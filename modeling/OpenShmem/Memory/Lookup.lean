import OpenShmem.Memory.Safety

namespace OpenShmem

-- A list up to the first item with the property.
theorem first_split {α : Type} (p : α → Prop) (items : List α) :
    (∀ x ∈ items, ¬ p x) ∨ ∃ front x back, items = front ++ x :: back ∧ (∀ y ∈ front, ¬ p y) ∧ p x := by
  induction items with
  | nil => exact Or.inl (by simp)
  | cons first rest ih =>
    by_cases here : p first
    · exact Or.inr ⟨[],first,rest,rfl,by simp,here⟩
    · rcases ih with none | ⟨front,x,back,rfl,before,found⟩
      · exact Or.inl (List.forall_mem_cons.mpr ⟨here,none⟩)
      · exact Or.inr ⟨first :: front,x,back,rfl,List.forall_mem_cons.mpr ⟨here,before⟩,found⟩

theorem first_unique {α : Type} {p : α → Prop} {front rest back tail : List α} {x y : α}
    (split : front ++ x :: back = rest ++ y :: tail) (first : ∀ z ∈ front, ¬ p z) (also : ∀ z ∈ rest, ¬ p z)
    (here : p x) (there : p y) : front = rest ∧ x = y ∧ back = tail := by
  induction front generalizing rest with
  | nil =>
    cases rest with
    | nil =>
      cases split
      exact ⟨rfl,rfl,rfl⟩
    | cons z rest =>
      obtain ⟨rfl,_⟩ := List.cons.inj split
      exact absurd here (also x List.mem_cons_self)
  | cons z front ih =>
    cases rest with
    | nil =>
      obtain ⟨rfl,_⟩ := List.cons.inj split
      exact absurd there (first z List.mem_cons_self)
    | cons w rest =>
      obtain ⟨rfl,later⟩ := List.cons.inj split
      obtain ⟨rfl,found⟩ := ih later (fun z member => first z (List.mem_cons_of_mem _ member))
        fun z member => also z (List.mem_cons_of_mem _ member)
      exact ⟨rfl,found⟩

variable {store : Store} {map : Hashmap} {key other : Nat} {node : HashmapNode} {chain front back : List HashmapNode}

-- The walks of the three loops pass the nodes that do not match.
theorem Passable.get (passed : Passable store key front) :
    getLoop store key (front ++ back) = getLoop store key back := by
  induction front with
  | nil => rfl
  | cons node rest ih =>
    obtain ⟨found,keyed,different⟩ := passed node List.mem_cons_self
    have later := ih fun other member => passed other (List.mem_cons_of_mem _ member)
    simp [getLoop,keyed,different,later]

theorem Passable.absent (passed : Passable store key chain) : getLoop store key chain = some none := by
  have through : getLoop store key (chain ++ []) = getLoop store key [] := passed.get
  rwa [List.append_nil] at through

theorem passable_of (keyed : ∀ node ∈ chain, ∃ found, implicitKey store node.value = some found)
    (none : ∀ node ∈ chain, implicitKey store node.value ≠ some key) : Passable store key chain := by
  intro node member
  obtain ⟨found,same⟩ := keyed node member
  exact ⟨found,same,fun equal => none node member (equal ▸ same)⟩

theorem Passable.set (passed : Passable store key front) (value : Nat) : setLoop store key value (front ++ back) =
    (setLoop store key value back).map (Option.map (front ++ ·)) := by
  induction front with
  | nil => simp
  | cons node rest ih =>
    obtain ⟨found,keyed,different⟩ := passed node List.mem_cons_self
    have later := ih fun other member => passed other (List.mem_cons_of_mem _ member)
    simp only [List.cons_append,setLoop,keyed,if_neg different,later,Option.bind_eq_bind,Option.bind_some]
    cases setLoop store key value back with
    | none => rfl
    | some updated => cases updated <;> rfl

-- The block that a node records starts at the key.
def Starts (store : Store) (key : Nat) (node : HashmapNode) : Prop :=
  ∃ block, store node.value = some block ∧ block.ptr = key

def Stored (store : Store) (chain : List HashmapNode) : Prop := ∀ node ∈ chain, ∃ block, store node.value = some block

theorem removeLoop_passed (recorded : Stored store front) (none : ∀ node ∈ front, ¬ Starts store key node) :
    removeLoop store key (front ++ back) = (removeLoop store key back).map (Option.map fun hit => (hit.1,front ++ hit.2)) := by
  induction front with
  | nil => simp
  | cons node rest ih =>
    obtain ⟨block,stored⟩ := recorded node List.mem_cons_self
    have different : key ≠ block.ptr := fun same => none node List.mem_cons_self ⟨block,stored,same.symm⟩
    have later := ih (fun other member => recorded other (List.mem_cons_of_mem _ member))
      fun other member => none other (List.mem_cons_of_mem _ member)
    simp only [List.cons_append,removeLoop,stored,if_neg different,later,Option.bind_eq_bind,Option.bind_some]
    cases removeLoop store key back with
    | none => rfl
    | some removed => cases removed <;> rfl

-- hashmap_remove on a bucket whose nodes all record allocated blocks: it stops at the
-- first node whose block starts at the key.
theorem removeLoop_spec (recorded : Stored store chain) (key : Nat) :
    ((∀ node ∈ chain, ¬ Starts store key node) ∧ removeLoop store key chain = some none) ∨
    ∃ front node back, chain = front ++ node :: back ∧ (∀ other ∈ front, ¬ Starts store key other) ∧
      Starts store key node ∧ removeLoop store key chain = some (some (node.value,front ++ back)) := by
  rcases first_split (Starts store key) chain with none | ⟨front,node,back,rfl,before,starts⟩
  · have passed : removeLoop store key (chain ++ []) = _ := removeLoop_passed recorded none
    rw [List.append_nil] at passed
    exact Or.inl ⟨none,passed⟩
  · have passed : removeLoop store key (front ++ node :: back) = _ :=
      removeLoop_passed (fun other member => recorded other (List.mem_append_left _ member)) before
    obtain ⟨block,stored,here⟩ := starts
    refine Or.inr ⟨front,node,back,rfl,before,⟨block,stored,here⟩,?_⟩
    simpa [removeLoop,stored,here] using passed

-- hashmap_get on a bucket whose nodes all have their keys.
theorem getLoop_spec (keyed : ∀ node ∈ chain, ∃ found, implicitKey store node.value = some found) (key : Nat) :
    ((∀ node ∈ chain, implicitKey store node.value ≠ some key) ∧ getLoop store key chain = some none) ∨
    ∃ front node back, chain = front ++ node :: back ∧ Passable store key front ∧
      implicitKey store node.value = some key ∧ getLoop store key chain = some (some node.value) := by
  rcases first_split (fun node => implicitKey store node.value = some key) chain with none | ⟨front,node,back,rfl,before,here⟩
  · exact Or.inl ⟨none,(passable_of keyed none).absent⟩
  · have passed := passable_of (fun node member => keyed node (List.mem_append_left _ member)) before
    refine Or.inr ⟨front,node,back,rfl,passed,here,?_⟩
    rw [passed.get]
    simp [getLoop,here]

theorem hashmapGet_none_iff (keyed : ∀ node ∈ getNode map key, ∃ found, implicitKey store node.value = some found) :
    hashmapGet store map key = some none ↔ ∀ node ∈ getNode map key, implicitKey store node.value ≠ some key := by
  unfold hashmapGet
  rcases getLoop_spec keyed key with ⟨none,loop⟩ | ⟨front,node,back,split,_,here,loop⟩
  · exact ⟨fun _ => none,fun _ => loop⟩
  · rw [loop]
    refine ⟨fun absent => (by cases absent),fun none => ?_⟩
    exact absurd here (none node (by rw [split]; simp))

-- hashmap_set in a bucket whose nodes all have their keys: a new node in front, or a new
-- value in the first node of the key.
theorem hashmapSet_spec (keyed : ∀ node ∈ getNode map key, ∃ found, implicitKey store node.value = some found) (value : Nat) :
    (Passable store key (getNode map key) ∧ hashmapSet store map key value =
      some (map.put (hashFunc key map.nBuckets) (⟨value,key⟩ :: getNode map key))) ∨
    ∃ front node back, getNode map key = front ++ node :: back ∧ Passable store key front ∧
      implicitKey store node.value = some key ∧ hashmapSet store map key value =
        some (map.put (hashFunc key map.nBuckets) (front ++ {node with value := value} :: back)) := by
  rcases getLoop_spec keyed key with ⟨none,_⟩ | ⟨front,node,back,split,passed,here,_⟩
  · have passed := passable_of keyed none
    exact Or.inl ⟨passed,hashmapSet_eq (passed.loop value)⟩
  · have loop : setLoop store key value (getNode map key) = some (some (front ++ {node with value := value} :: back)) := by
      rw [split,passed.set]
      simp [setLoop,here]
    exact Or.inr ⟨front,node,back,split,passed,here,hashmapSet_eq loop⟩

-- Each node lies in the bucket of its implicit key, and no two nodes have the same one.
structure Keyed (store : Store) (map : Hashmap) : Prop where
  filed : ∀ index, ∀ node ∈ map.buckets index, ∃ found, implicitKey store node.value = some found ∧
    hashFunc found map.nBuckets = index
  once : ∀ index, (map.buckets index).Pairwise fun one two => implicitKey store one.value ≠ implicitKey store two.value

-- hashmap_remove returns what hashmap_get would have, and takes out this entry only.
def Agrees (store : Store) (map : Hashmap) (key : Nat) : Prop :=
  ∃ found after, hashmapRemove store map key = some (found,after) ∧ hashmapGet store map key = some found ∧
    hashmapGet store after key = some none ∧ ∀ other, other ≠ key → hashmapGet store after other = hashmapGet store map other

-- In the bucket of the key, either no node is keyed by it and no recorded block starts at
-- it, or the first node whose recorded block starts at the key is also keyed by the key.
def Coincides (store : Store) (map : Hashmap) (key : Nat) : Prop :=
  (∀ node ∈ getNode map key, ¬ Starts store key node ∧ implicitKey store node.value ≠ some key) ∨
  ∃ front node back, getNode map key = front ++ node :: back ∧ (∀ other ∈ front, ¬ Starts store key other) ∧
    Starts store key node ∧ implicitKey store node.value = some key

theorem implicitKey_stored (keyed : implicitKey store value = some found) : ∃ block, store value = some block := by
  obtain ⟨block,stored,_⟩ := Option.bind_eq_some_iff.mp keyed
  exact ⟨block,stored⟩

theorem Keyed.recorded (keyed : Keyed store map) (key : Nat) : Stored store (getNode map key) := by
  intro node member
  obtain ⟨found,same,_⟩ := keyed.filed _ node member
  exact implicitKey_stored same

-- Taking out the one node of a key leaves the other lookups alone, and none for the key.
theorem getLoop_other (here : implicitKey store node.value = some key) (different : other ≠ key) :
    getLoop store other (front ++ node :: back) = getLoop store other (front ++ back) := by
  induction front with
  | nil => simp [getLoop,here,different]
  | cons first rest ih => simp only [List.cons_append,getLoop,ih]

theorem Keyed.unique (keyed : Keyed store map) (split : getNode map key = front ++ node :: back)
    (here : implicitKey store node.value = some key) : Passable store key (front ++ back) := by
  have once := keyed.once (hashFunc key map.nBuckets)
  rw [show map.buckets (hashFunc key map.nBuckets) = front ++ node :: back from split] at once
  obtain ⟨_,behind,cross⟩ := List.pairwise_append.mp once
  intro other member
  have listed : other ∈ getNode map key := by
    rw [split]
    rcases List.mem_append.mp member with first | later
    · exact List.mem_append_left _ first
    · exact List.mem_append_right _ (List.mem_cons_of_mem _ later)
  obtain ⟨found,same,_⟩ := keyed.filed _ other listed
  refine ⟨found,same,?_⟩
  rintro rfl
  rcases List.mem_append.mp member with first | later
  · exact cross other first node List.mem_cons_self (same.trans here.symm)
  · exact (List.pairwise_cons.mp behind).1 other later (here.trans same.symm)

theorem hashmapGet_put_other (different : hashFunc other map.nBuckets ≠ index) :
    hashmapGet store (map.put index chain) other = hashmapGet store map other := by
  simp [hashmapGet,getNode,different]

theorem remove_agrees_iff (keyed : Keyed store map) (key : Nat) : Agrees store map key ↔ Coincides store map key := by
  have recorded := keyed.recorded key
  have keys : ∀ node ∈ getNode map key, ∃ found, implicitKey store node.value = some found := by
    intro node member
    obtain ⟨found,same,_⟩ := keyed.filed _ node member
    exact ⟨found,same⟩
  constructor
  · intro ⟨found,after,removed,got,_⟩
    rcases removeLoop_spec recorded key with ⟨none,loop⟩ | ⟨front,node,back,split,before,starts,loop⟩
    · rw [hashmapRemove_absent loop] at removed
      cases removed
      rcases getLoop_spec keys key with ⟨absent,_⟩ | ⟨_,_,_,_,_,_,also⟩
      · exact Or.inl fun node member => ⟨none node member,absent node member⟩
      · exact absurd (got.symm.trans also) (by simp)
    · rw [hashmapRemove_hit loop] at removed
      cases removed
      rcases getLoop_spec keys key with ⟨_,also⟩ | ⟨_,other,_,_,_,here,also⟩
      · exact absurd (got.symm.trans also) (by simp)
      · have same : node.value = other.value := Option.some.inj (Option.some.inj (got.symm.trans also))
        exact Or.inr ⟨front,node,back,split,before,starts,same ▸ here⟩
  · intro coincides
    rcases coincides with none | ⟨front,node,back,split,before,starts,here⟩
    · rcases removeLoop_spec recorded key with ⟨_,loop⟩ | ⟨front,node,back,split,_,starts,_⟩
      · have absent := passable_of keys fun node member => (none node member).2
        have got : hashmapGet store map key = some .none := absent.absent
        exact ⟨.none,map,hashmapRemove_absent loop,got,got,fun _ _ => rfl⟩
      · exact False.elim ((none node (by rw [split]; simp)).1 starts)
    · have unique := keyed.unique split here
      have passed : Passable store key front := fun other member => unique other (List.mem_append_left _ member)
      have got : hashmapGet store map key = some (some node.value) := by
        unfold hashmapGet
        rw [split,passed.get]
        simp [getLoop,here]
      have loop : removeLoop store key (getNode map key) = some (some (node.value,front ++ back)) := by
        obtain ⟨block,stored,start⟩ := starts
        have first : Stored store front := fun other member => recorded other (by rw [split]; exact List.mem_append_left _ member)
        rw [split,removeLoop_passed first before]
        simp [removeLoop,stored,start]
      refine ⟨_,_,hashmapRemove_hit loop,got,?_,?_⟩
      · have none := unique.absent
        simpa [hashmapGet,getNode] using none
      · intro other different
        by_cases bucket : hashFunc other map.nBuckets = hashFunc key map.nBuckets
        · have same : getNode map other = front ++ node :: back := by rw [← split]; simp only [getNode,bucket]
          unfold hashmapGet
          rw [same,getLoop_other here different]
          simp [getNode,bucket]
        · exact hashmapGet_put_other bucket

-- The dummy block and two blocks behind it, as two calls of heap_malloc leave them.
def twoBlocks : Store
  | 0 => some ⟨4096,0,some 1⟩
  | 1 => some ⟨4096,8,some 2⟩
  | 2 => some ⟨4104,8,none⟩
  | _ => none

def twoBlocksMap : Hashmap := ((hashmapInit numBuckets).put 4 [⟨0,4096⟩]).put 12 [⟨1,4104⟩]

theorem twoBlocks_bucket (index : Nat) : (index = 12 ∧ twoBlocksMap.buckets index = [⟨1,4104⟩]) ∨
    (index = 4 ∧ twoBlocksMap.buckets index = [⟨0,4096⟩]) ∨ twoBlocksMap.buckets index = [] := by
  by_cases second : index = 12
  · exact Or.inl ⟨second,by simp [twoBlocksMap,second]⟩
  by_cases first : index = 4
  · exact Or.inr (Or.inl ⟨first,by simp [twoBlocksMap,first]⟩)
  · exact Or.inr (Or.inr (by simp [twoBlocksMap,second,first,hashmapInit]))

theorem twoBlocks_keyed : Keyed twoBlocks twoBlocksMap := by
  constructor
  · intro index node member
    rcases twoBlocks_bucket index with ⟨rfl,listed⟩ | ⟨rfl,listed⟩ | listed
    · rw [listed] at member
      cases List.mem_singleton.mp member
      exact ⟨4104,rfl,rfl⟩
    · rw [listed] at member
      cases List.mem_singleton.mp member
      exact ⟨4096,rfl,rfl⟩
    · rw [listed] at member
      cases member
  · intro index
    rcases twoBlocks_bucket index with ⟨_,listed⟩ | ⟨_,listed⟩ | listed <;> simp [listed]

-- The first block is found: it and the dummy block before it start at one address.
theorem remove_agrees_first : Agrees twoBlocks twoBlocksMap 4096 :=
  (remove_agrees_iff twoBlocks_keyed 4096).mpr (Or.inr ⟨[],⟨0,4096⟩,[],rfl,by simp,⟨_,rfl,rfl⟩,rfl⟩)

-- The second one is not, although hashmap_get finds it.
theorem second_block_not_removed : ¬ ∀ store map key, Keyed store map → Agrees store map key := by
  intro claim
  obtain ⟨found,after,removed,got,_⟩ := claim _ _ 4104 twoBlocks_keyed
  have missed : hashmapRemove twoBlocks twoBlocksMap 4104 = some (none,twoBlocksMap) := hashmapRemove_absent rfl
  rw [missed] at removed
  cases removed
  have present : hashmapGet twoBlocks twoBlocksMap 4104 = some (some 1) := rfl
  rw [present] at got
  cases got

end OpenShmem
