import OpenShmem.Memory.Lookup

namespace OpenShmem

-- Each node lies in the bucket of its implicit key. Several nodes may have one key.
def Bucketed (store : Store) (map : Hashmap) : Prop :=
  ∀ index, ∀ node ∈ map.buckets index, ∃ found, implicitKey store node.value = some found ∧ hashFunc found map.nBuckets = index

def HasKey (store : Store) (map : Hashmap) (key : Nat) : Prop :=
  ∃ index, ∃ node ∈ map.buckets index, implicitKey store node.value = some key

-- What hashmap_set promises to hashmap_get.
structure SetLaw (store : Store) (map after : Hashmap) (key value : Nat) : Prop where
  found : hashmapGet store after key = some (some value)
  others : ∀ other, other ≠ key → ∃ result, hashmapGet store map other = some result ∧ hashmapGet store after other = some result
  bucketed : Bucketed store after

-- How many nodes it makes: none if the map had the key, else one in the key's bucket.
structure SetCount (store : Store) (map after : Hashmap) (key : Nat) : Prop where
  replaced : HasKey store map key → ∀ index, (after.buckets index).length = (map.buckets index).length
  added : ¬ HasKey store map key → (getNode after key).length = (getNode map key).length + 1 ∧
    ∀ index, index ≠ hashFunc key map.nBuckets → after.buckets index = map.buckets index

variable {store : Store} {map : Hashmap} {key other value : Nat} {node : HashmapNode} {chain front back : List HashmapNode}

theorem Bucketed.keys (bucketed : Bucketed store map) (key : Nat) :
    ∀ node ∈ getNode map key, ∃ found, implicitKey store node.value = some found := by
  intro node member
  obtain ⟨found,same,_⟩ := bucketed _ node member
  exact ⟨found,same⟩

theorem Bucketed.get_total (bucketed : Bucketed store map) (key : Nat) : ∃ result, hashmapGet store map key = some result := by
  rcases getLoop_spec (bucketed.keys key) key with ⟨_,loop⟩ | ⟨_,node,_,_,_,_,loop⟩
  · exact ⟨none,loop⟩
  · exact ⟨some node.value,loop⟩

-- A node of the key can only be where the walks for the key look.
theorem Bucketed.has_iff (bucketed : Bucketed store map) :
    HasKey store map key ↔ ∃ node ∈ getNode map key, implicitKey store node.value = some key := by
  constructor
  · intro has
    obtain ⟨index,node,member,here⟩ := has
    obtain ⟨found,same,bucket⟩ := bucketed index node member
    have equal : found = key := Option.some.inj (same.symm.trans here)
    subst equal
    exact ⟨node,by rw [getNode,bucket]; exact member,here⟩
  · intro has
    obtain ⟨node,member,here⟩ := has
    exact ⟨_,node,member,here⟩

theorem Bucketed.put (bucketed : Bucketed store map) (keyed : implicitKey store value = some key)
    (sub : ∀ node ∈ chain, node.value = value ∨ node ∈ getNode map key) :
    Bucketed store (map.put (hashFunc key map.nBuckets) chain) := by
  intro index node member
  by_cases here : index = hashFunc key map.nBuckets
  · subst index
    rw [Hashmap.put_same] at member
    rcases sub node member with rfl | old
    · exact ⟨key,keyed,rfl⟩
    · exact bucketed _ node old
  · rw [Hashmap.put_other _ here] at member
    exact bucketed index node member

-- A walk for another key does not see that a node of the key got a new value with this key.
theorem getLoop_replaced (here : implicitKey store node.value = some key) (keyed : implicitKey store value = some key)
    (different : other ≠ key) :
    getLoop store other (front ++ {node with value := value} :: back) = getLoop store other (front ++ node :: back) := by
  rw [getLoop_other here different]
  exact getLoop_other keyed different

theorem getLoop_added (keyed : implicitKey store value = some key) (different : other ≠ key) :
    getLoop store other (⟨value,key⟩ :: chain) = getLoop store other chain := by
  simp [getLoop,keyed,different]

theorem hashmapGet_put (same : ∀ other, other ≠ key → getLoop store other chain = getLoop store other (getNode map key))
    (different : other ≠ key) :
    hashmapGet store (map.put (hashFunc key map.nBuckets) chain) other = hashmapGet store map other := by
  by_cases bucket : hashFunc other map.nBuckets = hashFunc key map.nBuckets
  · have equal : getNode map other = getNode map key := by simp only [getNode,bucket]
    unfold hashmapGet
    rw [equal,← same other different]
    simp [getNode,bucket]
  · exact hashmapGet_put_other bucket

-- The walks recover the key of a node from its value, so a new value must bring the key
-- that the node had; a second node of the key, behind the first one, is never looked at.
theorem Bucketed.set (bucketed : Bucketed store map) (keyed : implicitKey store value = some key) :
    ∃ after, hashmapSet store map key value = some after ∧ SetLaw store map after key value := by
  rcases hashmapSet_spec (bucketed.keys key) value with ⟨_,set⟩ | ⟨front,node,back,split,passed,here,set⟩
  · refine ⟨_,set,?_,?_,?_⟩
    · simp [hashmapGet,getNode,getLoop,keyed]
    · intro other different
      obtain ⟨result,before⟩ := bucketed.get_total other
      refine ⟨result,before,(hashmapGet_put ?_ different).trans before⟩
      exact fun _ apart => getLoop_added keyed apart
    · refine bucketed.put keyed fun node member => ?_
      rcases List.mem_cons.mp member with rfl | old
      · exact Or.inl rfl
      · exact Or.inr old
  · refine ⟨_,set,?_,?_,?_⟩
    · have through : getLoop store key (front ++ {node with value := value} :: back) = _ := passed.get
      simpa [hashmapGet,getNode,getLoop,keyed] using through
    · intro other different
      obtain ⟨result,before⟩ := bucketed.get_total other
      refine ⟨result,before,(hashmapGet_put ?_ different).trans before⟩
      intro _ apart
      rw [split]
      exact getLoop_replaced here keyed apart
    · refine bucketed.put keyed fun one member => ?_
      rw [split]
      simp only [List.mem_append,List.mem_cons] at member ⊢
      rcases member with first | rfl | later
      · exact Or.inr (Or.inl first)
      · exact Or.inl rfl
      · exact Or.inr (Or.inr (Or.inr later))

theorem Bucketed.set_count (bucketed : Bucketed store map) (ran : hashmapSet store map key value = some after) :
    SetCount store map after key := by
  rcases hashmapSet_spec (bucketed.keys key) value with ⟨passed,set⟩ | ⟨front,node,back,split,_,here,set⟩
  · rw [set] at ran
    cases ran
    have absent : ¬ HasKey store map key := by
      rw [bucketed.has_iff]
      intro has
      obtain ⟨node,member,here⟩ := has
      obtain ⟨found,same,different⟩ := passed node member
      exact different (Option.some.inj (here.symm.trans same))
    refine ⟨fun has => absurd has absent,fun _ => ⟨?_,fun index other => Hashmap.put_other _ other⟩⟩
    simp [getNode]
  · rw [set] at ran
    cases ran
    have present : HasKey store map key := bucketed.has_iff.mpr ⟨node,by rw [split]; simp,here⟩
    refine ⟨fun _ index => ?_,fun absent => absurd present absent⟩
    by_cases bucket : index = hashFunc key map.nBuckets
    · subst index
      have long : map.buckets (hashFunc key map.nBuckets) = front ++ node :: back := split
      simp [long]
    · rw [Hashmap.put_other _ bucket]

theorem hashmapSet_law (bucketed : Bucketed store map) (keyed : implicitKey store value = some key) :
    ∃ after, hashmapSet store map key value = some after ∧ SetLaw store map after key value ∧ SetCount store map after key := by
  obtain ⟨after,set,law⟩ := bucketed.set keyed
  exact ⟨after,set,law,bucketed.set_count set⟩

def repeatedKey : Hashmap := (hashmapInit numBuckets).put 12 [⟨1,4104⟩,⟨1,4104⟩]

theorem repeatedKey_bucketed : Bucketed twoBlocks repeatedKey := by
  intro index node member
  by_cases here : index = 12
  · subst index
    have listed : node = ⟨1,4104⟩ := by simpa [repeatedKey] using member
    subst listed
    exact ⟨4104,rfl,rfl⟩
  · rw [repeatedKey,Hashmap.put_other _ here] at member
    cases member

theorem hashmapSet_law_repeated : ∃ after, hashmapSet twoBlocks repeatedKey 4104 1 = some after ∧
    SetLaw twoBlocks repeatedKey after 4104 1 ∧ SetCount twoBlocks repeatedKey after 4104 :=
  hashmapSet_law repeatedKey_bucketed rfl

end OpenShmem
