import OpenShmem.Library.Bump
import OpenShmem.Memory.NamedFree
import OpenShmem.Memory.Update

namespace OpenShmem
open Linked Extents

-- No descriptor went away or moved its block, and none lost a successor.
def Extends (store changed : Store) : Prop :=
  ∀ a block, store a = some block → ∃ later, changed a = some later ∧ later.ptr = block.ptr ∧
    ∀ next, block.next = some next → later.next = some next

-- Looking up where each block of the list starts gives the block before it.
def Indexed (store : Store) (map : Hashmap) (cells : List Cell) : Prop :=
  ∀ a b y, Follows cells a b y → hashmapGet store map y.ptr = some (some a)

variable {libc : Libc} {region : Region} {s t : Session} {store changed : Store} {map : Hashmap} {blocks front back cells : List Cell}
  {a b i p next : Nat} {x y : Extent} {block : Block}

theorem extends_allocate (libc : Libc) (bytes : Nat) (unmade : store new = none) : Extends store (allocate libc store new bytes) := by
  intro a block stored
  have notNew : a ≠ new := by
    rintro rfl
    rw [unmade] at stored
    cases stored
  exact ⟨block,(allocate_other notNew).trans stored,rfl,fun _ linked => linked⟩

theorem extends_insert (libc : Libc) (bytes : Nat) (unmade : store new = none) (stored : store head = some block) (last : block.next = none) :
    Extends store (insertBlock (allocate libc store new bytes) head block new bytes) := by
  intro a one here
  by_cases onHead : a = head
  · subst a
    rw [stored] at here
    cases here
    refine ⟨{block with next := some new},by simp [insertBlock],rfl,fun next linked => ?_⟩
    rw [last] at linked
    cases linked
  · obtain ⟨later,kept,same⟩ := extends_allocate libc bytes unmade a one here
    have notNew : a ≠ new := by
      rintro rfl
      rw [unmade] at here
      cases here
    exact ⟨later,(insertBlock_other onHead notNew).trans kept,same⟩

theorem Extends.implicit (grown : Extends store changed) (keyed : implicitKey store v = some key) : implicitKey changed v = some key := by
  obtain ⟨block,stored,keyed⟩ := Option.bind_eq_some_iff.mp keyed
  obtain ⟨next,linked,keyed⟩ := Option.bind_eq_some_iff.mp keyed
  obtain ⟨successor,there,same⟩ := Option.bind_eq_some_iff.mp keyed
  obtain ⟨one,here,_,link⟩ := grown v block stored
  obtain ⟨two,behind,ptr,_⟩ := grown next successor there
  cases same
  simp [implicitKey,here,link next linked,behind,ptr]

theorem Bucketed.extend (bucketed : Bucketed store map) (grown : Extends store changed) : Bucketed changed map := by
  intro index node member
  obtain ⟨found,keyed,bucket⟩ := bucketed index node member
  exact ⟨found,grown.implicit keyed,bucket⟩

theorem getLoop_extend (keyed : ∀ node ∈ chain, ∃ found, implicitKey store node.value = some found)
    (grown : Extends store changed) (key : Nat) : getLoop changed key chain = getLoop store key chain := by
  induction chain with
  | nil => rfl
  | cons node rest ih =>
    obtain ⟨found,here⟩ := keyed node List.mem_cons_self
    have later := ih fun other member => keyed other (List.mem_cons_of_mem _ member)
    simp only [getLoop,here,grown.implicit here,later]

theorem Bucketed.get_extend (bucketed : Bucketed store map) (grown : Extends store changed) (key : Nat) :
    hashmapGet changed map key = hashmapGet store map key :=
  getLoop_extend (bucketed.keys key) grown key

theorem Indexed.extend (indexed : Indexed store map cells) (bucketed : Bucketed store map) (grown : Extends store changed) :
    Indexed changed map cells :=
  fun a b y follows => (bucketed.get_extend grown y.ptr).trans (indexed a b y follows)

-- A block behind the last one adds one pair of neighbours and leaves the others.
theorem follows_last {n : Nat} {w z : Extent} (once : (addresses (front ++ [(a,x),(n,w)])).Nodup)
    (follows : Follows (front ++ [(a,x),(n,w)]) c b z) : (c = a ∧ b = n ∧ z = w) ∨ Follows (front ++ [(a,x)]) c b z := by
  by_cases here : c = a
  · subst c
    rw [follows_at once] at follows
    cases follows
    exact Or.inl ⟨rfl,rfl,rfl⟩
  by_cases new : c = n
  · subst c
    have longer : front ++ [(a,x),(n,w)] = (front ++ [(a,x)]) ++ (n,w) :: [] := by simp
    rw [longer] at once follows
    rw [follows_at once] at follows
    cases follows
  · exact Or.inr ((follows_other once here new).mp follows)

-- hashmap_set of the last block under where the new one starts completes the index.
theorem Indexed.push {n : Nat} {w : Extent} (indexed : Indexed store map (front ++ [(a,x)])) (law : SetLaw store map after w.ptr a)
    (once : (addresses (front ++ [(a,x),(n,w)])).Nodup)
    (before : ∀ c b z, Follows (front ++ [(a,x)]) c b z → z.ptr < w.ptr) : Indexed store after (front ++ [(a,x),(n,w)]) := by
  intro c b z follows
  rcases follows_last once follows with ⟨rfl,rfl,rfl⟩ | old
  · exact law.found
  · obtain ⟨result,same,kept⟩ := law.others z.ptr (Nat.ne_of_lt (before c b z old))
    rw [indexed c b z old] at same
    exact kept.trans same.symm

-- What the results say of their positions, one more result told.
theorem logged_push {results : List (Option Nat)} {known : Nat → Nat → Prop} (logged : ∀ i p, results[i]? = some (some p) → known i p)
    (result : Option Nat) (last : ∀ p, result = some p → known results.length p) :
    ∀ i p, (results ++ [result])[i]? = some (some p) → known i p := by
  intro i p found
  rw [List.getElem?_append] at found
  split at found
  · exact logged i p found
  · have bound := (List.getElem?_eq_some_iff.mp found).1
    rw [List.length_singleton] at bound
    have index : i = results.length := by omega
    subst i
    exact last p (by simpa using found)

-- Behind malloc calls only: the blocks lie one behind the other without a gap from the
-- region's base up to `next`, the cursor is on the last one, and the block of the call
-- with number i has the descriptor i+1. The map is an index of the list as long as no
-- block but the last one is empty.
structure Stacked (region : Region) (s : Session) (blocks : List Cell) (next : Nat) : Prop where
  layout : Layout s (dummy region :: blocks)
  numbered : Numbered s
  ends : heapEnd s.heap = region.base + region.size
  touching : (dummy region :: blocks).IsChain fun c d => cellStop c = cellStart d
  last : ∃ front x, dummy region :: blocks = front ++ [(s.heap.head,x)] ∧ x.ptr + x.size = next
  counted : s.results.length + 1 = s.made
  logged : ∀ i p, s.results[i]? = some (some p) → ∃ size, (i + 1,⟨p,size⟩) ∈ blocks
  bucketed : Bucketed s.store s.heap.blockMap
  indexed : (∀ size ∈ (blocks.map (·.2.size)).dropLast, 0 < size) → Indexed s.store s.heap.blockMap (dummy region :: blocks)

theorem start_stacked (region : Region) (clean : (libc.prior 0).next = none) :
    Stacked region (Session.start libc region) [] region.base := by
  refine ⟨start_layout region clean,start_numbered libc region,rfl,List.isChain_singleton _,⟨[],⟨region.base,0⟩,rfl,rfl⟩,rfl,?_,?_,?_⟩
  · intro i p logged
    cases logged
  · intro index node member
    cases member
  · intro _ a b y follows
    simp [dummy,follows_cons] at follows

-- The cursor's gap is the one at the end, and no other one holds a byte.
theorem Stacked.search (stacked : Stacked region s blocks next) (libc : Libc) (bytes : Nat) :
    findBlock (allocate libc s.store s.made bytes) s.heap bytes s.made s.heap.head =
      some (if bytes ≤ region.base + region.size - next then some s.heap.head else none) := by
  have allocated := stacked.layout.wf.allocate libc bytes stacked.layout.unlisted
  have bound := stacked.layout.length_le
  obtain ⟨front,x,split,stop⟩ := stacked.last
  rw [split,List.length_append,List.length_singleton] at bound
  rw [split] at allocated
  have enough : ([] : List Cell).length + front.length < s.made := by
    rw [List.length_nil]
    omega
  have searched := allocated.find_eq bytes enough
  rw [searchOrder,gaps,gaps,List.cons_append,firstFit_cons] at searched
  have gap : gapEnd s.heap ([] ++ []) - (x.ptr + x.size) = region.base + region.size - next := by
    rw [stop,← stacked.ends]
    rfl
  rw [gap] at searched
  by_cases fits : bytes ≤ region.base + region.size - next
  · rw [if_pos fits] at searched ⊢
    exact searched
  · rw [if_neg fits] at searched ⊢
    rw [searched]
    cases found : firstFit bytes ([] ++ gaps s.heap [(s.heap.head,x)] front) with
    | none => rfl
    | some a =>
      rw [found] at searched
      obtain ⟨before,z,after,cut,room⟩ := findBlock_sound allocated allocated.cursor searched
      have positive : 0 < bytes := by omega
      have nothing := room_last stacked.touching (split.trans cut) room positive
      subst nothing
      obtain ⟨_,same⟩ := List.append_inj' cut rfl
      cases same
      simp only [HasRoom,gapEnd,stop,stacked.ends] at room
      omega

theorem Stacked.below (stacked : Stacked region s blocks next) (member : (b,y) ∈ blocks) (positive : 0 < y.size) : y.ptr < next := by
  obtain ⟨front,x,split,stop⟩ := stacked.last
  have laid := stacked.layout.wf.laid
  have listed : (b,y) ∈ dummy region :: blocks := List.mem_cons_of_mem _ member
  rw [split] at laid listed
  rcases List.mem_append.mp listed with before | last
  · have apart := (List.pairwise_append.mp laid.ordered).2.2 _ before (s.heap.head,x) List.mem_cons_self
    simp only [cellStop,cellStart] at apart
    omega
  · cases List.mem_singleton.mp last
    omega

theorem Stacked.full (stacked : Stacked region s blocks next) (libc : Libc) (large : ¬ bytes ≤ region.base + region.size - next) :
    ∃ t, s.call libc (.malloc bytes) = some t ∧ t.results = s.results ++ [none] ∧ Stacked region t blocks next := by
  have searched := stacked.search libc bytes
  rw [if_neg large] at searched
  have called := session_malloc (heapMalloc_full searched)
  have unmade := stacked.numbered s.made (Nat.le_refl _)
  have grown := extends_allocate libc bytes unmade
  refine ⟨_,called,rfl,?_,call_numbered stacked.numbered called,stacked.ends,stacked.touching,stacked.last,?_,?_,
    stacked.bucketed.extend grown,?_⟩
  · rcases malloc_layout stacked.layout called with ⟨_,_,layout⟩ | ⟨_,_,_,_,_,_,results,_⟩
    · exact layout
    · simp at results
  · simp [stacked.counted]
  · refine logged_push stacked.logged none fun p absent => ?_
    cases absent
  · exact fun positive => (stacked.indexed positive).extend stacked.bucketed grown

theorem Stacked.placed (stacked : Stacked region s blocks next) (libc : Libc) (fits : bytes ≤ region.base + region.size - next) :
    ∃ t, s.call libc (.malloc bytes) = some t ∧ t.results = s.results ++ [some next] ∧
      Stacked region t (blocks ++ [(s.made,⟨next,bytes⟩)]) (next + bytes) := by
  have searched := stacked.search libc bytes
  rw [if_pos fits] at searched
  have unmade := stacked.numbered s.made (Nat.le_refl _)
  have fresh := stacked.layout.unlisted
  have wf := stacked.layout.wf
  have allocated := wf.allocate libc bytes fresh
  obtain ⟨front,x,split,rfl⟩ := stacked.last
  have longer : dummy region :: (blocks ++ [(s.made,⟨x.ptr + x.size,bytes⟩)]) =
      front ++ [(s.heap.head,x),(s.made,⟨x.ptr + x.size,bytes⟩)] := by
    rw [← List.cons_append,split,List.append_assoc]
    rfl
  rw [split] at wf allocated fresh
  have before := wf.block_at
  have stored := allocated.block_at
  have grown := extends_insert libc bytes unmade before rfl
  have room : HasRoom s.heap bytes x [] := by
    have inside := (wf.laid.inside (s.heap.head,x) (by simp)).2.2
    have ends := stacked.ends
    simp only [HasRoom,gapEnd,cellStop] at inside ⊢
    omega
  have inserted := fun blockMap => allocated.insert blockMap room fresh stored
  have keyed : implicitKey (insertBlock (allocate libc s.store s.made bytes) s.heap.head ⟨x.ptr,x.size,none⟩ s.made bytes) s.heap.head =
      some (x.ptr + x.size) := by
    have apart : s.made ≠ s.heap.head := by
      intro same
      rw [same] at fresh
      simp [addresses] at fresh
    simp [implicitKey,insertBlock,apart,blockEnd]
  obtain ⟨blockMap,set,law⟩ := (stacked.bucketed.extend grown).set keyed
  have called := session_malloc (heapMalloc_placed searched stored rfl set)
  refine ⟨_,called,rfl,?_,call_numbered stacked.numbered called,stacked.ends,?_,⟨front ++ [(s.heap.head,x)],⟨x.ptr + x.size,bytes⟩,?_,rfl⟩,?_,?_,law.bucketed,?_⟩
  · rcases malloc_layout stacked.layout called with ⟨_,results,_⟩ | ⟨_,_,_,_,_,_,_,layout⟩
    · simp at results
    · have same := layout.wf.chain.unique (inserted blockMap).chain
      rw [longer,← same]
      exact layout
  · rw [longer,List.isChain_append_cons_cons]
    exact ⟨split ▸ stacked.touching,rfl,List.isChain_singleton _⟩
  · rw [longer]
    simp
  · simp [stacked.counted]
  · refine logged_push (fun i p logged => ?_) _ fun p same => ?_
    · obtain ⟨size,member⟩ := stacked.logged i p logged
      exact ⟨size,List.mem_append_left _ member⟩
    · cases same
      exact ⟨bytes,by simp [stacked.counted,blockEnd]⟩
  · intro positive
    rw [List.map_append,List.map_singleton,List.dropLast_concat] at positive
    have indexed := (stacked.indexed fun size member => positive size (List.dropLast_subset _ member)).extend stacked.bucketed grown
    rw [split] at indexed
    rw [longer]
    refine indexed.push law (inserted blockMap).chain.nodup fun c b z follows => ?_
    have behind := Follows.behind (split ▸ follows)
    exact stacked.below behind (positive _ (List.mem_map.mpr ⟨_,behind,rfl⟩))

theorem Stacked.malloc (stacked : Stacked region s blocks next) (libc : Libc) (bytes : Nat) :
    ∃ t more later, s.call libc (.malloc bytes) = some t ∧ Stacked region t (blocks ++ more) later ∧
      ∀ rest, s.results ++ Bump.answers next (region.base + region.size - next) (bytes :: rest) =
          t.results ++ Bump.answers later (region.base + region.size - later) rest ∧
        Bump.served (region.base + region.size - next) (bytes :: rest) =
          more.map (·.2.size) ++ Bump.served (region.base + region.size - later) rest := by
  by_cases fits : bytes ≤ region.base + region.size - next
  · obtain ⟨t,called,results,placed⟩ := stacked.placed libc fits
    refine ⟨t,[(s.made,⟨next,bytes⟩)],next + bytes,called,placed,fun rest => ?_⟩
    simp [Bump.answers,Bump.served,fits,results,Nat.sub_sub]
  · obtain ⟨t,called,results,full⟩ := stacked.full libc fits
    refine ⟨t,[],next,called,by rwa [List.append_nil],fun rest => ?_⟩
    simp [Bump.answers,Bump.served,fits,results]

-- From a fresh heap on, heap_malloc is a bump allocator.
theorem mallocs_bump (stacked : Stacked region s blocks next) (libc : Libc) (sizes : List Nat) :
    ∃ t more later, (sessions libc).run s (sizes.map Call.malloc) = some t ∧ Stacked region t (blocks ++ more) later ∧
      t.results = s.results ++ Bump.answers next (region.base + region.size - next) sizes ∧
      more.map (·.2.size) = Bump.served (region.base + region.size - next) sizes := by
  induction sizes generalizing s blocks next with
  | nil => exact ⟨s,[],next,rfl,by rwa [List.append_nil],by simp [Bump.answers],rfl⟩
  | cons bytes rest ih =>
    obtain ⟨u,first,middle,called,one,unfolds⟩ := stacked.malloc libc bytes
    obtain ⟨t,more,later,ran,two,results,sizes⟩ := ih one
    obtain ⟨answers,served⟩ := unfolds rest
    refine ⟨t,first ++ more,later,?_,by rwa [← List.append_assoc],by rw [answers,results],?_⟩
    · have stepped : (sessions libc).step s (.malloc bytes) = some u := called
      rw [List.map_cons,Guarded.Machine.run_cons,stepped]
      exact ran
    · rw [List.map_append,sizes,served]

-- The addresses returned are distinct, and looking up each of them gives the block before
-- the one of this allocation (the i-th call's block has the descriptor i+1).
structure Identified (s : Session) : Prop where
  distinct : s.results.reduceOption.Nodup
  found : ∃ cells, Chain (links s.store) (some s.heap.tail) cells ∧ ∀ i p, s.results[i]? = some (some p) →
    ∃ a y, Follows cells a (i + 1) y ∧ y.ptr = p ∧ hashmapGet s.store s.heap.blockMap p = some (some a)

-- So does hashmap_remove, which heap_free asks.
def Removable (s : Session) : Prop :=
  ∃ cells, Chain (links s.store) (some s.heap.tail) cells ∧ ∀ i p, s.results[i]? = some (some p) →
    ∃ a y after, Follows cells a (i + 1) y ∧ y.ptr = p ∧ hashmapRemove s.store s.heap.blockMap p = some (some a,after)

theorem Stacked.identified (stacked : Stacked region s blocks next) (distinct : s.results.reduceOption.Nodup)
    (positive : ∀ size ∈ (blocks.map (·.2.size)).dropLast, 0 < size) : Identified s := by
  refine ⟨distinct,dummy region :: blocks,stacked.layout.wf.chain,?_⟩
  intro i p logged
  obtain ⟨size,member⟩ := stacked.logged i p logged
  obtain ⟨front,back,split⟩ := List.append_of_mem member
  have follows : ∃ a, Follows (dummy region :: blocks) a (i + 1) ⟨p,size⟩ := by
    rw [split]
    rcases List.eq_nil_or_concat front with rfl | ⟨front,⟨a,x⟩,rfl⟩
    · exact ⟨0,[],_,back,rfl⟩
    · exact ⟨a,dummy region :: front,x,back,by simp⟩
  obtain ⟨a,follows⟩ := follows
  exact ⟨a,_,follows,rfl,stacked.indexed positive _ _ _ follows⟩

-- A block with an earlier one behind the dummy block starts where this one ends, so its
-- own predecessor does not start at its address.
theorem Stacked.not_removable (stacked : Stacked region s blocks next) (positive : ∀ size ∈ (blocks.map (·.2.size)).dropLast, 0 < size)
    (logged : s.results[i]? = some (some p)) (behind : region.base < p) : ¬ Removable s := by
  intro all
  obtain ⟨cells,chain,removable⟩ := all
  obtain ⟨a,y,after,follows,same,removed⟩ := removable i p logged
  subst same
  cases chain.unique stacked.layout.wf.chain
  rcases hashmapRemove_cases removed with ⟨_,absent,_⟩ | ⟨value,rest,loop,hit,_⟩
  · cases absent
  cases hit
  obtain ⟨⟨block,stored,starts⟩,_⟩ := removeLoop_found loop
  obtain ⟨front,x,back,split⟩ := follows
  have wf := stacked.layout.wf
  rw [split] at wf
  rw [wf.block_at] at stored
  cases stored
  have apart := wf.gap_order.1
  simp only [gapEnd] at apart starts
  cases front with
  | nil =>
    cases (List.cons.inj split).1
    simp only at starts
    omega
  | cons cell front =>
    have tail : blocks = front ++ (a,x) :: (i + 1,y) :: back := (List.cons.inj split).2
    have early : x.size ∈ (blocks.map (·.2.size)).dropLast := by
      rw [tail]
      simp [List.dropLast_append_of_ne_nil]
    have size := positive x.size early
    omega

-- With one block at most, only the dummy block's node can be met.
theorem Stacked.removable (stacked : Stacked region s blocks next) (few : blocks.length ≤ 1) (identified : Identified s) : Removable s := by
  obtain ⟨cells,chain,found⟩ := identified.found
  refine ⟨cells,chain,fun i p logged => ?_⟩
  obtain ⟨a,y,follows,same,got⟩ := found i p logged
  cases chain.unique stacked.layout.wf.chain
  subst same
  have split := follows
  obtain ⟨front,x,back,split⟩ := split
  have shape : front = [] ∧ back = [] := by
    have lengths := congrArg List.length split
    simp only [List.length_cons,List.length_append] at lengths
    exact ⟨List.length_eq_zero_iff.mp (by omega),List.length_eq_zero_iff.mp (by omega)⟩
  obtain ⟨rfl,rfl⟩ := shape
  obtain ⟨same,rfl⟩ := List.cons.inj split
  cases same
  have wf : WellFormed s.store s.heap ([] ++ (0,⟨region.base,0⟩) :: [(i + 1,y)]) := stacked.layout.wf
  have moved : WellFormed s.store s.heap ([dummy region] ++ (i + 1,y) :: []) := stacked.layout.wf
  have first : s.store 0 = some ⟨region.base,0,some (i + 1)⟩ := wf.block_at
  have second : s.store (i + 1) = some ⟨y.ptr,y.size,none⟩ := moved.block_at
  have meets : region.base = y.ptr := (List.isChain_cons_cons.mp stacked.touching).1
  have recorded : Stored s.store (getNode s.heap.blockMap y.ptr) := by
    intro node member
    obtain ⟨found,keyed⟩ := stacked.bucketed.keys y.ptr node member
    exact implicitKey_stored keyed
  rcases removeLoop_spec recorded y.ptr with ⟨none,_⟩ | ⟨front,node,back,cut,_,⟨block,stored,_⟩,loop⟩
  · rcases getLoop_spec (stacked.bucketed.keys y.ptr) y.ptr with ⟨_,absent⟩ | ⟨front,node,back,cut,_,_,hit⟩
    · rw [hashmapGet,absent] at got
      cases got
    · rw [hashmapGet,hit] at got
      have value : node.value = 0 := Option.some.inj (Option.some.inj got)
      have member : node ∈ getNode s.heap.blockMap y.ptr := by rw [cut]; simp
      exact absurd ⟨_,value ▸ first,meets⟩ (none node member)
  · have member : node ∈ getNode s.heap.blockMap y.ptr := by rw [cut]; simp
    have value : node.value = 0 := by
      rcases (stacked.layout.known node.value ⟨_,node,member,rfl⟩).2 with listed | gone
      · simp only [dummy,addresses_cons,addresses_nil,List.mem_cons,List.not_mem_nil,or_false] at listed
        rcases listed with same | same
        · exact same
        · obtain ⟨found,keyed⟩ := stacked.bucketed.keys y.ptr node member
          simp [implicitKey,same,second] at keyed
      · rw [stored] at gone
        cases gone
    exact ⟨0,y,_,follows,rfl,value ▸ hashmapRemove_hit loop⟩

theorem mallocs_identified_iff (libc : Libc) (region : Region) (clean : (libc.prior 0).next = none) (sizes : List Nat) :
    ∃ t, (sessions libc).run (Session.start libc region) (sizes.map Call.malloc) = some t ∧
      (Identified t ↔ ∀ size ∈ (Bump.served region.size sizes).dropLast, 0 < size) ∧
      (Identified t ∧ Removable t ↔ (Bump.served region.size sizes).length ≤ 1) := by
  obtain ⟨t,blocks,next,ran,stacked,results,sized⟩ := mallocs_bump (start_stacked region clean) libc sizes
  rw [Nat.add_sub_cancel_left] at results sized
  have answers : t.results = Bump.answers region.base region.size sizes := results
  have identified : Identified t ↔ ∀ size ∈ (Bump.served region.size sizes).dropLast, 0 < size := by
    constructor
    · intro identified
      have distinct := identified.distinct
      rw [answers] at distinct
      exact Bump.answers_nodup.mp distinct
    · intro positive
      refine stacked.identified ?_ ?_
      · rw [answers]
        exact Bump.answers_nodup.mpr positive
      · rw [List.nil_append,sized]
        exact positive
  refine ⟨t,ran,identified,?_⟩
  constructor
  · intro both
    obtain ⟨one,two⟩ := both
    have positive := identified.mp one
    match shape : Bump.served region.size sizes with
    | [] => exact Nat.zero_le _
    | [_] => exact Nat.le_refl _
    | size :: second :: rest =>
      -- The second block is not removable.
      have listed : region.base + size ∈ t.results.reduceOption := by
        rw [answers,Bump.answers_served,shape]
        simp [Bump.starts]
      obtain ⟨i,logged⟩ := List.mem_iff_getElem?.mp (List.reduceOption_mem_iff.mp listed)
      have first : 0 < size := positive size (by rw [shape]; simp)
      refine absurd two (stacked.not_removable ?_ logged (Nat.lt_add_of_pos_right first))
      rw [List.nil_append,sized]
      exact positive
  · intro few
    have one : Identified t := identified.mpr fun size member => by
      have empty : (Bump.served region.size sizes).dropLast = [] := by
        rw [← List.length_eq_zero_iff,List.length_dropLast]
        omega
      rw [empty] at member
      cases member
    exact ⟨one,stacked.removable (by rw [List.nil_append,← List.length_map,sized]; exact few) one⟩

-- The last block may be empty.
theorem mallocs_identified_last : ∃ t, (sessions scattered).run (Session.start scattered ⟨4096,64,by decide⟩) ([8,0].map Call.malloc) = some t ∧
    Identified t := by
  obtain ⟨t,ran,identified,_⟩ := mallocs_identified_iff scattered ⟨4096,64,by decide⟩ rfl [8,0]
  exact ⟨t,ran,identified.mpr (by decide)⟩

-- An empty block and the block behind it have one address, and the map keeps one of them.
theorem empty_block_shares : ¬ ∀ (libc : Libc) (region : Region) (sizes : List Nat) (t : Session), (libc.prior 0).next = none →
    (sessions libc).run (Session.start libc region) (sizes.map Call.malloc) = some t → Identified t := by
  intro claim
  let first : Session := Session.start scattered ⟨4096,64,by decide⟩
  have results : ((sessions scattered).run first ([0,8].map Call.malloc)).map Session.results = some [some 4096,some 4096] := by
    decide +kernel
  obtain ⟨t,ran,answers⟩ := Option.map_eq_some_iff.mp results
  have distinct := (claim _ _ _ t rfl ran).distinct
  rw [answers] at distinct
  exact absurd distinct (by decide)

end OpenShmem
