import OpenShmem.Memory.Lookup
import OpenShmem.Memory.NextFit

namespace OpenShmem
open Linked

def Hashmap.tally (map : Hashmap) (index value : Nat) : Nat := (map.buckets index).countP (·.value = value)

-- For each pair of neighbours on the block list the bucket of the second one's address
-- holds exactly one node with the first one as its value, and the map holds no other node.
structure Coherent (map : Hashmap) (cells : List Cell) : Prop where
  once : ∀ a b y, Follows cells a b y → map.tally (hashFunc y.ptr map.nBuckets) a = 1
  only : ∀ index, ∀ node ∈ map.buckets index, ∃ b y, Follows cells node.value b y ∧ hashFunc y.ptr map.nBuckets = index

variable {store : Store} {heap : Heap} {map : Hashmap} {cells before after : List Cell} {x y z : Extent}

theorem key_eq (chain : Chain (links store) first cells) (follows : Follows cells a b y) :
    implicitKey store a = some y.ptr := by
  obtain ⟨before,x,after,rfl⟩ := follows
  obtain ⟨next,here,rest⟩ := chain.at
  obtain ⟨rfl,_,there,_⟩ := rest.head
  rw [links_eq] at here there
  simp [implicitKey,here,there]

theorem WellFormed.stored (wf : WellFormed store heap cells) (member : a ∈ addresses cells) :
    ∃ block, store a = some block := by
  obtain ⟨before,x,after,rfl⟩ := mem_split member
  exact ⟨_,wf.block_at⟩

theorem Coherent.key (coherent : Coherent map cells) (chain : Chain (links store) first cells)
    (member : node ∈ map.buckets index) : ∃ found, implicitKey store node.value = some found := by
  obtain ⟨b,y,follows,_⟩ := coherent.only index node member
  exact ⟨y.ptr,key_eq chain follows⟩

theorem Coherent.stored (coherent : Coherent map cells) (wf : WellFormed store heap cells) (key : Nat) :
    Stored store (getNode map key) := by
  intro node member
  obtain ⟨b,y,follows,_⟩ := coherent.only _ node member
  exact wf.stored follows.mem.1

theorem tally_pos : 0 < map.tally index value ↔ ∃ node ∈ map.buckets index, node.value = value := by
  simp [Hashmap.tally,List.countP_pos_iff]

theorem Follows.unique (chain : Chain (links store) first cells) (one : Follows cells a b y) (two : Follows cells a c z) :
    b = c ∧ y = z := by
  obtain ⟨before,x,after,rfl⟩ := one
  have here := (follows_at chain.nodup).mp two
  simpa using here

-- What heap_free leaves behind is coherent with the list it leaves behind.
def FreeCoherent (store : Store) (heap : Heap) (ptr : Nat) : Prop :=
  ∃ store' heap' cells, heapFree store heap ptr = some (store',heap') ∧
    Chain (links store') (some heap'.tail) cells ∧ Coherent heap'.blockMap cells

-- In the bucket of the address the first node whose recorded block starts there, if there
-- is one, records the last block but one of the list.
def FreesLast (store : Store) (heap : Heap) (cells : List Cell) (ptr : Nat) : Prop :=
  ∀ front node back, getNode heap.blockMap ptr = front ++ node :: back → (∀ other ∈ front, ¬ Starts store ptr other) →
    Starts store ptr node → ∃ before x cell, cells = before ++ [(node.value,x),cell]

theorem tally_put {chain : List HashmapNode} : (map.put index chain).tally i v =
    if i = index then chain.countP (·.value = v) else map.tally i v := by
  by_cases here : i = index <;> simp [Hashmap.tally,here]

theorem tally_node {chain : List HashmapNode} {node : HashmapNode} :
    (node :: chain).countP (·.value = v) = chain.countP (·.value = v) + if v = node.value then 1 else 0 := by
  by_cases here : node.value = v
  · simp [here]
  · simp [here,Ne.symm here]

theorem tally_front (node : HashmapNode) : (map.put index (node :: map.buckets index)).tally i v =
    map.tally i v + if i = index ∧ v = node.value then 1 else 0 := by
  rw [tally_put]
  by_cases here : i = index
  · subst i
    simp only [if_true,true_and,tally_node]
    rfl
  · simp [here]

theorem tally_replace (split : map.buckets index = front ++ node :: back) (value : Nat) :
    (map.put index (front ++ {node with value := value} :: back)).tally i v + (if i = index ∧ v = node.value then 1 else 0) =
      map.tally i v + if i = index ∧ v = value then 1 else 0 := by
  rw [tally_put]
  by_cases here : i = index
  · subst i
    unfold Hashmap.tally
    simp only [if_true,true_and,split,List.countP_append,tally_node]
    omega
  · simp [here]

theorem Coherent.tally_zero (coherent : Coherent map cells)
    (none : ∀ b y, Follows cells v b y → hashFunc y.ptr map.nBuckets ≠ i) : map.tally i v = 0 := by
  refine Nat.eq_zero_of_not_pos fun positive => ?_
  obtain ⟨node,member,rfl⟩ := tally_pos.mp positive
  obtain ⟨b,y,follows,here⟩ := coherent.only i node member
  exact none b y follows here

theorem tally_one (coherent : Coherent map cells) (member : node ∈ map.buckets i) : map.tally i node.value = 1 := by
  obtain ⟨b,y,follows,place⟩ := coherent.only i node member
  exact place ▸ coherent.once _ b y follows

theorem tally_gone {before after : List HashmapNode} (one : map.tally i node.value = 1)
    (split : map.buckets i = before ++ node :: after) (other : node.value ≠ value) :
    (map.put i (before ++ {node with value := value} :: after)).tally i node.value = 0 := by
  have tallied : (map.put i (before ++ {node with value := value} :: after)).tally i node.value + _ = _ :=
    tally_replace split value
  rw [one] at tallied
  simp only [and_self,if_true,other,and_false,if_false] at tallied
  omega

theorem coherent_of_tally (once : ∀ a b y, Follows cells a b y → map.tally (hashFunc y.ptr map.nBuckets) a = 1)
    (only : ∀ i v, 0 < map.tally i v → ∃ b y, Follows cells v b y ∧ hashFunc y.ptr map.nBuckets = i) : Coherent map cells :=
  ⟨once,fun i node member => only i node.value (tally_pos.mpr ⟨node,member,rfl⟩)⟩

theorem mem_front {new : HashmapNode} (member : node ∈ (map.put i (new :: map.buckets i)).buckets j) :
    (j = i ∧ node = new) ∨ node ∈ map.buckets j := by
  by_cases here : j = i
  · subst j
    rw [Hashmap.put_same] at member
    exact (List.mem_cons.mp member).imp_left fun same => ⟨rfl,same⟩
  · rw [Hashmap.put_other _ here] at member
    exact Or.inr member

theorem mem_replace {old new : HashmapNode} {before after : List HashmapNode} (split : map.buckets i = before ++ old :: after)
    (member : node ∈ (map.put i (before ++ new :: after)).buckets j) : (j = i ∧ node = new) ∨ node ∈ map.buckets j := by
  by_cases here : j = i
  · subst j
    rw [Hashmap.put_same] at member
    rw [split]
    rcases List.mem_append.mp member with first | rest
    · exact Or.inr (List.mem_append_left _ first)
    rcases List.mem_cons.mp rest with same | later
    · exact Or.inl ⟨rfl,same⟩
    · exact Or.inr (List.mem_append_right _ (List.mem_cons_of_mem _ later))
  · rw [Hashmap.put_other _ here] at member
    exact Or.inr member

-- The map without the node of `a`, whose successor `b` was the last block.
theorem Coherent.drop_last (coherent : Coherent map (before ++ [(a,x),(b,y)]))
    (chain : Chain (links store) first (before ++ [(a,x),(b,y)]))
    (split : map.buckets index = front ++ node :: back) (here : node.value = a) :
    Coherent (map.put index (front ++ back)) (before ++ [(a,x)]) := by
  have behind : Follows (before ++ [(a,x),(b,y)]) a b y := ⟨before,x,[],rfl⟩
  have once := chain.nodup
  have long : before ++ [(a,x),(b,y)] = (before ++ [(a,x)]) ++ (b,y) :: [] := by simp
  have notLast : ∀ d z, ¬ Follows (before ++ [(a,x),(b,y)]) b d z := by
    intro d z follows
    rw [long] at once follows
    rw [follows_at once] at follows
    cases follows
  have atIndex : hashFunc y.ptr map.nBuckets = index := by
    obtain ⟨c,z,follows,same⟩ := coherent.only index node (by rw [split]; simp)
    rw [here] at follows
    rw [← same,(Follows.unique chain behind follows).2]
  have tallied : ∀ i v, map.tally i v = (map.put index (front ++ back)).tally i v + if i = index ∧ v = a then 1 else 0 := by
    intro i v
    rw [tally_put]
    by_cases same : i = index
    · subst i
      unfold Hashmap.tally
      rw [split,List.countP_append,List.countP_append,tally_node,here]
      simp only [if_true,true_and]
      omega
    · simp [same]
  constructor
  · intro c d z follows
    have notA : c ≠ a := by
      rintro rfl
      have short : (addresses (before ++ [(c,x)])).Nodup := once.sublist (by simp [addresses])
      rw [follows_at short] at follows
      cases follows
    have notB : c ≠ b := by
      rintro rfl
      have member := follows.mem.1
      rw [long] at once
      exact (not_mem_halves once).1 member
    have old := coherent.once c d z ((follows_other once notA notB).mpr follows)
    rw [tallied] at old
    simpa [notA] using old
  · intro i other member
    have present := tally_pos.mpr ⟨other,member,rfl⟩
    have shared := tallied i other.value
    obtain ⟨c,z,follows,same⟩ : ∃ c z, Follows (before ++ [(a,x),(b,y)]) other.value c z ∧ hashFunc z.ptr map.nBuckets = i := by
      have positive : 0 < map.tally i other.value := by omega
      obtain ⟨again,listed,value⟩ := tally_pos.mp positive
      rw [← value]
      exact coherent.only i again listed
    have notA : other.value ≠ a := by
      intro value
      rw [value] at follows present shared
      have one := coherent.once a b y behind
      have place := (Follows.unique chain behind follows).2
      subst z
      rw [atIndex] at one same
      rw [← same,one] at shared
      rw [← same] at present
      simp only [and_self,if_true] at shared
      omega
    have notB : other.value ≠ b := by
      intro value
      rw [value] at follows
      exact notLast c z follows
    exact ⟨c,z,(follows_other once notA notB).mp follows,same⟩

theorem heapFree_coherent_iff (wf : WellFormed store heap cells) (coherent : Coherent heap.blockMap cells) (ptr : Nat) :
    FreeCoherent store heap ptr ↔ FreesLast store heap cells ptr := by
  rcases removeLoop_spec (coherent.stored wf ptr) ptr with ⟨none,loop⟩ | ⟨front,node,back,split,first,starts,loop⟩
  · have kept := heapFree_absent (hashmapRemove_absent loop)
    constructor
    · intro _ front node back split _ starts
      exact absurd starts (none node (by rw [split]; simp))
    · intro _
      exact ⟨_,_,cells,kept,wf.chain,coherent⟩
  · obtain ⟨b,y,follows,_⟩ := coherent.only _ node (by rw [show heap.blockMap.buckets _ = _ from split]; simp)
    obtain ⟨before,x,after,rfl⟩ := follows
    have stored := wf.block_at
    have moved : WellFormed store heap ((before ++ [(node.value,x)]) ++ (b,y) :: after) := by simpa using wf
    have there := moved.block_at
    have freed := heapFree_found (hashmapRemove_hit loop) stored rfl there
    have unlinked : WellFormed _ 
        {heap with blockMap := heap.blockMap.put (hashFunc ptr heap.blockMap.nBuckets) (front ++ back), head := _} _ :=
      wf.unlink stored there
    constructor
    · intro ⟨store',heap',rest,ran,chain,final⟩ front' node' back' split' first' starts'
      obtain ⟨_,rfl,_⟩ := first_unique (split.symm.trans split') first first' starts starts'
      rw [freed] at ran
      cases ran
      have same := chain.unique unlinked.chain
      subst same
      cases after with
      | nil => exact ⟨before,x,(b,y),rfl⟩
      | cons cell after =>
        -- The node of the block that was unlinked stays behind.
        obtain ⟨c,z⟩ := cell
        have notB : b ≠ node.value := by
          rintro rfl
          have once := wf.chain.nodup
          simp [addresses,List.nodup_append] at once
        have recorded := coherent.once b c z ⟨before ++ [(node.value,x)],y,after,by simp⟩
        have left : 0 < (heap.blockMap.put (hashFunc ptr heap.blockMap.nBuckets) (front ++ back)).tally
            (hashFunc z.ptr heap.blockMap.nBuckets) b := by
          rw [tally_put]
          by_cases bucket : hashFunc z.ptr heap.blockMap.nBuckets = hashFunc ptr heap.blockMap.nBuckets
          · unfold Hashmap.tally at recorded
            rw [bucket,show heap.blockMap.buckets _ = _ from split,List.countP_append,tally_node,if_neg notB] at recorded
            rw [if_pos bucket,List.countP_append]
            omega
          · rw [if_neg bucket,recorded]
            exact Nat.one_pos
        obtain ⟨other,member,value⟩ := tally_pos.mp left
        obtain ⟨d,w,follows,_⟩ := final.only _ other member
        have listed := follows.mem.1
        rw [value] at listed
        exact absurd listed (not_mem_removed wf.chain.nodup)
    · intro last
      obtain ⟨before',x',cell,same⟩ := last front node back split first starts
      obtain ⟨rfl,rfl,rest⟩ := split_unique wf.chain.nodup same
      cases rest
      exact ⟨_,_,_,freed,unlinked.chain,coherent.drop_last wf.chain split rfl⟩

-- The dummy block and one block of 8 bytes behind it.
def oneBlock (ptr : Nat) : Store
  | 0 => some ⟨4096,0,some 1⟩
  | 1 => some ⟨ptr,8,none⟩
  | _ => none

def oneBlockHeap (ptr size : Nat) : Heap := ⟨4096,0,0,(hashmapInit numBuckets).put (hashFunc ptr numBuckets) [⟨0,ptr⟩],size⟩

theorem oneBlock_wf (behind : 4096 ≤ ptr) (inside : ptr + 8 ≤ 4096 + size) (fits : 4096 + size < 2^64) :
    WellFormed (oneBlock ptr) (oneBlockHeap ptr size) [(0,⟨4096,0⟩),(1,⟨ptr,8⟩)] := by
  refine ⟨.cons rfl (.cons rfl .nil),⟨?_,?_⟩,by simp [oneBlockHeap],fits⟩
  · simpa [cellStart,cellStop] using behind
  · simp only [List.mem_cons,List.not_mem_nil,or_false,forall_eq_or_imp,forall_eq]
    simp only [cellStart,cellStop,heapEnd,oneBlockHeap]
    omega

theorem oneBlock_coherent : Coherent (oneBlockHeap ptr size).blockMap [(0,⟨4096,0⟩),(1,⟨ptr,8⟩)] := by
  constructor
  · intro a b y follows
    simp only [follows_cons,not_follows_nil,or_false,List.head?_cons,List.head?_nil,Option.some.injEq,Prod.mk.injEq,
      reduceCtorEq,and_false] at follows
    obtain ⟨rfl,rfl,rfl⟩ := follows
    simp [Hashmap.tally,oneBlockHeap,hashmapInit]
  · intro index node member
    by_cases here : index = hashFunc ptr numBuckets
    · subst index
      rw [oneBlockHeap,Hashmap.put_same] at member
      cases List.mem_singleton.mp member
      exact ⟨1,⟨ptr,8⟩,⟨[],⟨4096,0⟩,[],rfl⟩,rfl⟩
    · simp [oneBlockHeap,here,hashmapInit] at member

theorem heapFree_coherent_last : FreeCoherent (oneBlock 4096) (oneBlockHeap 4096 64) 4096 := by
  refine (heapFree_coherent_iff (oneBlock_wf ?_ ?_ ?_) oneBlock_coherent 4096).mpr ?_
  · decide
  · decide
  · decide
  · intro front node back split _ _
    cases front with
    | nil =>
      cases split
      exact ⟨[],⟨4096,0⟩,(1,⟨4096,8⟩),rfl⟩
    | cons other front =>
      have rest : [] = front ++ node :: back := (List.cons.inj split).2
      simp at rest

def twoBlocksHeap : Heap := ⟨4096,2,0,twoBlocksMap,64⟩

theorem twoBlocks_wf : WellFormed twoBlocks twoBlocksHeap [(0,⟨4096,0⟩),(1,⟨4096,8⟩),(2,⟨4104,8⟩)] :=
  ⟨.cons rfl (.cons rfl (.cons rfl .nil)),⟨by simp [cellStart,cellStop],by simp [cellStart,cellStop,heapEnd,twoBlocksHeap]⟩,
    by simp [twoBlocksHeap],by decide⟩

theorem twoBlocks_coherent : Coherent twoBlocksHeap.blockMap [(0,⟨4096,0⟩),(1,⟨4096,8⟩),(2,⟨4104,8⟩)] := by
  constructor
  · intro a b y follows
    simp only [follows_cons,not_follows_nil,or_false,List.head?_cons,List.head?_nil,Option.some.injEq,Prod.mk.injEq,
      reduceCtorEq,and_false] at follows
    rcases follows with ⟨rfl,rfl,rfl⟩ | ⟨rfl,rfl,rfl⟩ <;> rfl
  · intro index node member
    rcases twoBlocks_bucket index with ⟨rfl,listed⟩ | ⟨rfl,listed⟩ | listed
    · rw [twoBlocksHeap,listed] at member
      cases List.mem_singleton.mp member
      exact ⟨2,⟨4104,8⟩,⟨[(0,⟨4096,0⟩)],⟨4096,8⟩,[],rfl⟩,rfl⟩
    · rw [twoBlocksHeap,listed] at member
      cases List.mem_singleton.mp member
      exact ⟨1,⟨4096,8⟩,⟨[],⟨4096,0⟩,[(2,⟨4104,8⟩)],rfl⟩,rfl⟩
    · rw [twoBlocksHeap,listed] at member
      cases member

-- The node that recorded the freed block as the second block's predecessor is still there.
theorem freed_block_recorded : ¬ ∀ store heap cells ptr, WellFormed store heap cells → Coherent heap.blockMap cells →
    FreeCoherent store heap ptr := by
  intro claim
  obtain ⟨store,heap,cells,freed,chain,final⟩ := claim _ _ _ 4096 twoBlocks_wf twoBlocks_coherent
  have removed : hashmapRemove twoBlocks twoBlocksHeap.blockMap 4096 = some (some 0,twoBlocksMap.put 4 []) := hashmapRemove_hit rfl
  rw [heapFree_found removed rfl rfl rfl] at freed
  cases freed
  obtain ⟨b,y,follows,_⟩ := final.only 12 ⟨1,4104⟩ (by simp [twoBlocksMap])
  obtain ⟨x,listed⟩ := mem_addresses.mp follows.mem.1
  obtain ⟨next,found⟩ := chain.look_eq listed
  simp [links] at found

end OpenShmem
