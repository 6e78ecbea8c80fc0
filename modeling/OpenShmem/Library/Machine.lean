import Mathlib.Data.List.Basic

namespace Guarded

-- Deciding a statement about the value of an option, if it has one.
instance decidableExistsSome {α : Type} {p : α → Prop} [DecidablePred p] : (o : Option α) → Decidable (∃ a, o = some a ∧ p a)
  | none => isFalse (by rintro ⟨_,absent,_⟩; cases absent)
  | some a => decidable_of_iff (p a) ⟨fun holds => ⟨a,rfl,holds⟩,fun ⟨_,same,holds⟩ => by cases same; exact holds⟩

instance decidableForallSome {α : Type} {p : α → Prop} [DecidablePred p] : (o : Option α) → Decidable (∀ a, o = some a → p a)
  | none => isTrue (by rintro _ absent; cases absent)
  | some a => decidable_of_iff (p a) ⟨fun holds _ same => by cases same; exact holds,fun all => all a rfl⟩

-- A guarded machine: `none` means that the event is not enabled in the state, or
-- that the program has no defined behaviour there.
structure Machine (σ ε : Type) where
  step : σ → ε → Option σ

namespace Machine
variable {σ ε τ δ : Type} {m : Machine σ ε} {s t u : σ}

def run (m : Machine σ ε) : σ → List ε → Option σ
  | s,[] => some s
  | s,event :: rest => (m.step s event).bind (m.run · rest)

@[simp] theorem run_nil : m.run s [] = some s := rfl

theorem run_cons : m.run s (event :: rest) = (m.step s event).bind (m.run · rest) := rfl

theorem run_one : m.run s [event] = m.step s event := by
  rw [run_cons]
  cases m.step s event with
  | none => rfl
  | some t => rfl

theorem run_append (first second : List ε) :
    m.run s (first ++ second) = (m.run s first).bind (m.run · second) := by
  induction first generalizing s with
  | nil => rfl
  | cons event rest ih =>
    simp only [List.cons_append,run_cons,Option.bind_assoc,ih]

theorem run_cons_some (ran : m.run s (event :: rest) = some u) :
    ∃ t, m.step s event = some t ∧ m.run t rest = some u :=
  Option.bind_eq_some_iff.mp ran

-- Every step of the run from `s` meets the condition in the state it is taken in.
-- After an undefined step nothing is asked of the events that follow.
def Meets (m : Machine σ ε) (guard : σ → ε → Prop) : σ → List ε → Prop
  | _,[] => True
  | s,event :: rest => guard s event ∧ ∀ t, m.step s event = some t → m.Meets guard t rest

instance instDecidableMeets {guard : σ → ε → Prop} [∀ s event, Decidable (guard s event)] :
    (s : σ) → (events : List ε) → Decidable (m.Meets guard s events)
  | _,[] => isTrue trivial
  | s,event :: rest =>
    match stepped : m.step s event with
    | none =>
      decidable_of_iff (guard s event) ⟨fun here => ⟨here,fun t moved => by rw [stepped] at moved; cases moved⟩,And.left⟩
    | some t =>
      have : Decidable (m.Meets guard t rest) := instDecidableMeets t rest
      decidable_of_iff (guard s event ∧ m.Meets guard t rest)
        ⟨fun ⟨here,later⟩ => ⟨here,fun u moved => by rw [stepped] at moved; cases moved; exact later⟩,
          fun ⟨here,later⟩ => ⟨here,later t stepped⟩⟩

theorem meets_mono {guard weaker : σ → ε → Prop} (weakens : ∀ s event, guard s event → weaker s event)
    (meets : m.Meets guard s events) : m.Meets weaker s events := by
  induction events generalizing s with
  | nil => trivial
  | cons event rest ih => exact ⟨weakens s event meets.1,fun t stepped => ih (meets.2 t stepped)⟩

theorem meets_append {guard : σ → ε → Prop} (first second : List ε) :
    m.Meets guard s (first ++ second) ↔ m.Meets guard s first ∧ ∀ t, m.run s first = some t → m.Meets guard t second := by
  induction first generalizing s with
  | nil => simp [Meets]
  | cons event rest ih =>
    constructor
    · intro ⟨here,later⟩
      refine ⟨⟨here,fun t stepped => (ih.mp (later t stepped)).1⟩,fun u ran => ?_⟩
      obtain ⟨t,stepped,ran⟩ := run_cons_some ran
      exact (ih.mp (later t stepped)).2 u ran
    · intro ⟨⟨here,later⟩,behind⟩
      refine ⟨here,fun t stepped => ih.mpr ⟨later t stepped,fun u ran => behind u ?_⟩⟩
      rw [run_cons,stepped]
      exact ran

-- The induction rule for invariants: what each guarded step keeps, a guarded run keeps.
theorem run_keeps {guard : σ → ε → Prop} {holds : σ → Prop}
    (kept : ∀ s event t, holds s → guard s event → m.step s event = some t → holds t)
    (start : holds s) (meets : m.Meets guard s events) (ran : m.run s events = some u) : holds u := by
  induction events generalizing s with
  | nil => cases ran; exact start
  | cons event rest ih =>
    obtain ⟨t,stepped,later⟩ := run_cons_some ran
    exact ih (kept _ _ _ start meets.1 stepped) (meets.2 t stepped) later

theorem run_invariant {holds : σ → Prop}
    (kept : ∀ s event t, holds s → m.step s event = some t → holds t)
    (start : holds s) (ran : m.run s events = some u) : holds u := by
  induction events generalizing s with
  | nil => cases ran; exact start
  | cons event rest ih =>
    obtain ⟨t,stepped,later⟩ := run_cons_some ran
    exact ih (kept _ _ _ start stepped) later

-- When each step uses up one unit, the length of a run is what it used up.
theorem run_spends {holds : σ → Prop} {measure : σ → Nat}
    (kept : ∀ s event t, holds s → m.step s event = some t → holds t)
    (spends : ∀ s event t, holds s → m.step s event = some t → measure t + 1 = measure s)
    (start : holds s) (ran : m.run s events = some u) : events.length + measure u = measure s := by
  induction events generalizing s with
  | nil =>
    cases ran
    exact Nat.zero_add _
  | cons event rest ih =>
    obtain ⟨t,stepped,later⟩ := run_cons_some ran
    have after := ih (kept _ _ _ start stepped) later
    have here := spends _ _ _ start stepped
    rw [List.length_cons]
    omega

-- When there is always a step to take until the end, some run gets there.
theorem run_completes {holds done : σ → Prop} {measure : σ → Nat}
    (kept : ∀ s event t, holds s → m.step s event = some t → holds t)
    (less : ∀ s event t, holds s → m.step s event = some t → measure t < measure s)
    (moves : ∀ s, holds s → ¬ done s → ∃ event t, m.step s event = some t)
    (start : holds s) : ∃ events u, m.run s events = some u ∧ done u := by
  induction spent : measure s using Nat.strongRecOn generalizing s with
  | ind k ih =>
    by_cases final : done s
    · exact ⟨[],s,rfl,final⟩
    · obtain ⟨event,t,stepped⟩ := moves s start final
      have lower := less s event t start stepped
      rw [spent] at lower
      obtain ⟨rest,u,later,ends⟩ := ih (measure t) lower (kept s event t start stepped) rfl
      refine ⟨event :: rest,u,?_,ends⟩
      rw [run_cons,stepped]
      exact later

-- When each step tells exactly whether it was safe, so does the run.
theorem run_iff {guard : σ → ε → Prop} {holds safe : σ → Prop}
    (kept : ∀ s event t, holds s → m.step s event = some t → holds t)
    (tells : ∀ s event t, holds s → m.step s event = some t → (safe t ↔ safe s ∧ guard s event))
    (start : holds s) (ran : m.run s events = some u) : safe u ↔ safe s ∧ m.Meets guard s events := by
  induction events generalizing s with
  | nil =>
    cases ran
    exact ⟨fun safe => ⟨safe,trivial⟩,And.left⟩
  | cons event rest ih =>
    obtain ⟨t,stepped,later⟩ := run_cons_some ran
    have here := tells s event t start stepped
    have after := ih (kept s event t start stepped) later
    constructor
    · intro final
      obtain ⟨next,meets⟩ := after.mp final
      obtain ⟨before,met⟩ := here.mp next
      refine ⟨before,met,?_⟩
      intro v also
      have same := Option.some.inj (stepped.symm.trans also)
      exact same ▸ meets
    · intro ⟨before,met,meets⟩
      exact after.mpr ⟨here.mpr ⟨before,met⟩,meets t stepped⟩

-- The same rule with progress: a guarded step is defined, so a guarded run ends.
theorem run_total {guard : σ → ε → Prop} {holds : σ → Prop}
    (moves : ∀ s event, holds s → guard s event → ∃ t, m.step s event = some t ∧ holds t)
    (start : holds s) (meets : m.Meets guard s events) : ∃ u, m.run s events = some u ∧ holds u := by
  induction events generalizing s with
  | nil => exact ⟨s,rfl,start⟩
  | cons event rest ih =>
    obtain ⟨t,stepped,next⟩ := moves s event start meets.1
    obtain ⟨u,later,final⟩ := ih next (meets.2 t stepped)
    exact ⟨u,by rw [run_cons,stepped]; exact later,final⟩

-- When each guarded step lowers the measure, it bounds the length of a guarded run.
theorem run_descends {guard : σ → ε → Prop} {holds : σ → Prop} {measure : σ → Nat}
    (kept : ∀ s event t, holds s → guard s event → m.step s event = some t → holds t)
    (descends : ∀ s event t, holds s → guard s event → m.step s event = some t → measure t < measure s)
    (start : holds s) (meets : m.Meets guard s events) (ran : m.run s events = some u) :
    events.length + measure u ≤ measure s := by
  induction events generalizing s with
  | nil =>
    cases ran
    exact Nat.le_of_eq (Nat.zero_add _)
  | cons event rest ih =>
    obtain ⟨t,stepped,later⟩ := run_cons_some ran
    have after := ih (kept _ _ _ start meets.1 stepped) (meets.2 t stepped) later
    have here := descends _ _ _ start meets.1 stepped
    rw [List.length_cons]
    omega

-- And when a guarded step is enabled until the end, some guarded run gets there.
theorem run_settles {guard : σ → ε → Prop} {holds done : σ → Prop} {measure : σ → Nat}
    (kept : ∀ s event t, holds s → guard s event → m.step s event = some t → holds t)
    (descends : ∀ s event t, holds s → guard s event → m.step s event = some t → measure t < measure s)
    (moves : ∀ s, holds s → ¬ done s → ∃ event t, guard s event ∧ m.step s event = some t)
    (start : holds s) : ∃ events u, m.Meets guard s events ∧ m.run s events = some u ∧ holds u ∧ done u := by
  induction spent : measure s using Nat.strongRecOn generalizing s with
  | ind k ih =>
    by_cases final : done s
    · exact ⟨[],s,trivial,rfl,start,final⟩
    · obtain ⟨event,t,met,stepped⟩ := moves s start final
      have lower := descends s event t start met stepped
      rw [spent] at lower
      obtain ⟨rest,u,meets,later,ends⟩ := ih (measure t) lower (kept s event t start met stepped) rfl
      refine ⟨event :: rest,u,⟨met,?_⟩,?_,ends⟩
      · intro v also
        have same := Option.some.inj (stepped.symm.trans also)
        exact same ▸ meets
      · rw [run_cons,stepped]
        exact later

-- Forward simulation: a step of `m` is answered by a run of `abstract`.
theorem run_simulates {abstract : Machine τ δ} {relates : σ → τ → Prop}
    (answers : ∀ s a event t, relates s a → m.step s event = some t →
      ∃ events b, abstract.run a events = some b ∧ relates t b)
    (start : relates s a) (ran : m.run s events = some u) :
    ∃ answer b, abstract.run a answer = some b ∧ relates u b := by
  induction events generalizing s a with
  | nil => cases ran; exact ⟨[],a,rfl,start⟩
  | cons event rest ih =>
    obtain ⟨t,stepped,later⟩ := run_cons_some ran
    obtain ⟨first,b,moved,related⟩ := answers _ _ _ _ start stepped
    obtain ⟨second,c,rest,final⟩ := ih related later
    exact ⟨first ++ second,c,by rw [run_append,moved]; exact rest,final⟩

-- Simulation with stuttering: under the view each step of `m` is one that `abstract` takes
-- too, or is not seen. What is asked of the steps of `m` carries over.
theorem run_erases {abstract : Machine τ δ} {view : σ → τ} {keep : ε → Option δ} {guard : σ → ε → Prop} {demand : τ → δ → Prop}
    (erases : ∀ s event t, m.step s event = some t →
      view t = view s ∨ ∃ kept, keep event = some kept ∧ abstract.step (view s) kept = some (view t))
    (demands : ∀ s event kept, keep event = some kept → guard s event → demand (view s) kept)
    (ran : m.run s events = some u) : ∃ kept, kept.Sublist (events.filterMap keep) ∧
      abstract.run (view s) kept = some (view u) ∧ (m.Meets guard s events → abstract.Meets demand (view s) kept) := by
  induction events generalizing s with
  | nil =>
    cases ran
    exact ⟨[],List.Sublist.refl _,rfl,fun _ => trivial⟩
  | cons event rest ih =>
    obtain ⟨t,stepped,later⟩ := run_cons_some ran
    obtain ⟨kept,among,moved,met⟩ := ih later
    rcases erases s event t stepped with same | ⟨first,kind,taken⟩
    · rw [same] at moved met
      refine ⟨kept,?_,moved,fun meets => met (meets.2 t stepped)⟩
      cases kind : keep event with
      | none => rwa [List.filterMap_cons_none kind]
      | some first =>
        rw [List.filterMap_cons_some kind]
        exact among.cons first
    · refine ⟨first :: kept,?_,?_,?_⟩
      · rw [List.filterMap_cons_some kind]
        exact among.cons_cons first
      · rw [run_cons,taken]
        exact moved
      · intro meets
        refine ⟨demands s event first kind meets.1,fun b also => ?_⟩
        obtain rfl := Option.some.inj (taken.symm.trans also)
        exact met (meets.2 t stepped)

end Machine
end Guarded
