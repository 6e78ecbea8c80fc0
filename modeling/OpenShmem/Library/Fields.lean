import Mathlib.Data.List.TakeWhile

namespace Fields
variable {α : Type} {delim : α → Bool} {text rest token : List α} {x : α}

-- What a text says as a sequence of fields: the pieces between delimiters, empty ones left out.
def fields (delim : α → Bool) (text : List α) : List (List α) := (text.splitOnP delim).filter fun field => !field.isEmpty

-- One call of strtok on the text that is left: the delimiters in front are skipped, and
-- the one behind the token is consumed with it.
def strtok (delim : α → Bool) (text : List α) : Option (List α × List α) :=
  match text.dropWhile delim with
  | [] => none
  | first :: rest => some (first :: rest.takeWhile fun x => !delim x,(rest.dropWhile fun x => !delim x).drop 1)

@[simp] theorem fields_nil : fields delim [] = [] := rfl

theorem fields_skip (skipped : delim x) : fields delim (x :: text) = fields delim text := by
  simp [fields,List.splitOnP_cons_eq_if_modifyHead,skipped]

theorem fields_dropWhile : fields delim (text.dropWhile delim) = fields delim text := by
  induction text with
  | nil => rfl
  | cons first rest ih =>
    by_cases skipped : delim first
    · rw [List.dropWhile_cons_of_pos skipped,fields_skip skipped,ih]
    · rw [List.dropWhile_cons_of_neg skipped]

theorem fields_single (plain : ∀ x ∈ token, delim x = false) (some : token ≠ []) : fields delim token = [token] := by
  simp [fields,List.splitOnP_eq_singleton plain,some]

theorem fields_append (plain : ∀ x ∈ token, delim x = false) (some : token ≠ []) (ends : delim x) :
    fields delim (token ++ x :: rest) = token :: fields delim rest := by
  simp [fields,List.splitOnP_append_cons_of_forall_mem plain x ends,some]

theorem strtok_none (ended : strtok delim text = none) : fields delim text = [] := by
  unfold strtok at ended
  rw [← fields_dropWhile]
  split at ended
  · rename_i empty
    rw [empty]
    rfl
  · cases ended

-- A call that finds a token finds the first field, and leaves the others.
theorem strtok_some (found : strtok delim text = some (token,rest)) : fields delim text = token :: fields delim rest := by
  unfold strtok at found
  rw [← fields_dropWhile]
  split at found
  · cases found
  · rename_i first behind starts
    cases found
    have front : delim first = false := by
      have head := List.head?_dropWhile_not delim text
      rw [starts] at head
      simpa using head
    have plain : ∀ x ∈ first :: behind.takeWhile (fun x => !delim x), delim x = false := by
      intro x member
      rcases List.mem_cons.mp member with rfl | later
      · exact front
      · simpa using List.mem_takeWhile_imp later
    have whole : first :: behind = (first :: behind.takeWhile fun x => !delim x) ++ behind.dropWhile fun x => !delim x := by
      rw [List.cons_append,List.takeWhile_append_dropWhile]
    rw [starts,whole]
    cases left : behind.dropWhile fun x => !delim x with
    | nil =>
      rw [List.append_nil,fields_single plain (List.cons_ne_nil _ _)]
      rfl
    | cons stop later =>
      have ends : delim stop = true := by
        have head := List.head?_dropWhile_not (fun x => !delim x) behind
        rw [left] at head
        simpa using head
      rw [fields_append plain (List.cons_ne_nil _ _) ends]
      rfl

-- Joining and splitting again gives back names that are not empty and hold no delimiter.
theorem fields_join [BEq α] [LawfulBEq α] (separator : α) {names : List (List α)}
    (clean : ∀ name ∈ names, name ≠ [] ∧ separator ∉ name) :
    fields (· == separator) ([separator].intercalate names) = names := by
  cases names with
  | nil => rfl
  | cons name others =>
    have apart : ([separator].intercalate (name :: others)).splitOn separator = name :: others :=
      List.splitOn_intercalate separator (fun name member => (clean name member).2) (List.cons_ne_nil _ _)
    unfold fields
    rw [← List.splitOn_eq_splitOnP,apart]
    exact List.filter_eq_self.mpr fun name member => by simpa using (clean name member).1

end Fields
