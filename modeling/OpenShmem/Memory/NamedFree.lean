import OpenShmem.Memory.Coherence
import Mathlib.Data.List.Chain

namespace OpenShmem
open Linked Extents

-- The nodes that heap_malloc leaves in the map for a list it built from front to back:
-- one for each pair of neighbours, the last pair's first.
def filings : List Cell → List HashmapNode
  | (a,_) :: (b,y) :: rest => filings ((b,y) :: rest) ++ [⟨a,y.ptr⟩]
  | _ => []

variable {libc : Libc} {region : Region} {s t : Session} {blocks front back : List Cell} {a b : Nat} {x y z : Extent}

theorem filings_append (front : List Cell) (cell : Cell) (back : List Cell) :
    filings (front ++ cell :: back) = filings (cell :: back) ++ filings (front ++ [cell]) := by
  induction front with
  | nil => simp [filings]
  | cons first front ih =>
    cases front with
    | nil => simp [filings]
    | cons second front =>
      simp only [List.cons_append] at ih
      simp [filings,ih]

theorem filings_follows {cells : List Cell} (member : node ∈ filings cells) :
    ∃ b y, Follows cells node.value b y ∧ node.filed = y.ptr := by
  induction cells with
  | nil => cases member
  | cons first rest ih =>
    cases rest with
    | nil => cases member
    | cons second rest =>
      rw [filings,List.mem_append] at member
      rcases member with later | here
      · obtain ⟨b,y,follows,filed⟩ := ih later
        exact ⟨b,y,follows_cons.mpr (Or.inr follows),filed⟩
      · cases List.mem_singleton.mp here
        exact ⟨second.1,second.2,⟨[],first.2,rest,rfl⟩,rfl⟩

-- The dummy block of heap_init.
def dummy (region : Region) : Cell := (0,⟨region.base,0⟩)

-- The heap after heap_malloc calls only: no gap but the one at the end.
structure Packed (region : Region) (s : Session) (blocks : List Cell) : Prop where
  wf : WellFormed s.store s.heap (dummy region :: blocks)
  made : ∀ a ∈ addresses (dummy region :: blocks), a < s.made
  ends : heapEnd s.heap = region.base + region.size
  touching : (dummy region :: blocks).IsChain fun c d => cellStop c = cellStart d
  positive : ∀ block ∈ blocks, 0 < block.2.size
  nBuckets : s.heap.blockMap.nBuckets = numBuckets
  map : ∀ i, s.heap.blockMap.buckets i =
    (filings (dummy region :: blocks)).filter fun node => hashFunc node.filed numBuckets = i

theorem Packed.keyed (packed : Packed region s blocks) (member : node ∈ getNode s.heap.blockMap key) :
    ∃ b y, Follows (dummy region :: blocks) node.value b y ∧ node.filed = y.ptr ∧
      hashFunc y.ptr numBuckets = hashFunc key numBuckets := by
  rw [getNode,packed.map,packed.nBuckets,List.mem_filter] at member
  obtain ⟨b,y,follows,filed⟩ := filings_follows member.1
  rw [filed,decide_eq_true_eq] at member
  exact ⟨b,y,follows,filed,member.2⟩

-- Only the gap at the end can hold a byte.
theorem room_last {cells : List Cell} (touching : cells.IsChain fun c d => cellStop c = cellStart d)
    (split : cells = front ++ (a,x) :: back) (room : HasRoom heap bytes x back) (positive : 0 < bytes) : back = [] := by
  cases back with
  | nil => rfl
  | cons cell back =>
    rw [split,List.isChain_append_cons_cons] at touching
    have meets := touching.2.1
    simp only [HasRoom,gapEnd,cellStop,cellStart] at room meets
    omega

theorem Packed.search (packed : Packed region s blocks) (libc : Libc) (bytes : Nat) :
    ∃ found, findBlock (allocate libc s.store s.made bytes) s.heap bytes s.made s.heap.head = some found := by
  obtain ⟨before,x,after,split⟩ := mem_split packed.wf.cursor
  exact ⟨_,packed.wf.search_eq libc packed.made bytes split⟩

theorem start_packed (region : Region) (clean : (libc.prior 0).next = none) :
    Packed region (Session.start libc region) [] := by
  have layout : Layout (Session.start libc region) _ := start_layout region clean
  exact ⟨layout.wf,layout.made,rfl,List.isChain_singleton _,by simp,rfl,fun _ => rfl⟩

-- The new block lies behind all others, so no node of the map is keyed by its address.
theorem Packed.passed (packed : Packed region s blocks) (split : dummy region :: blocks = front ++ [(a,x)])
    (chain : Chain (links store) first (front ++ [(a,x),(n,w)])) : Passable store (x.ptr + x.size) (getNode s.heap.blockMap (x.ptr + x.size)) := by
  intro node member
  obtain ⟨b,y,follows,_,_⟩ := packed.keyed member
  have positive := packed.positive _ follows.behind
  have laid := packed.wf.laid.ordered
  have here := follows.mem
  have once := packed.wf.chain.nodup
  rw [split] at follows laid here once
  have notLast : node.value ≠ a := by
    intro same
    rw [same,follows_at once] at follows
    cases follows
  have notNew : node.value ≠ n := fun same => not_mem_removed chain.nodup (same ▸ here.1)
  have kept := (follows_other chain.nodup notLast notNew).mpr follows
  refine ⟨y.ptr,key_eq chain kept,?_⟩
  rcases List.mem_append.mp here.2 with before | last
  · have ordered := (List.pairwise_append.mp laid).2.2 _ before (a,x) (by simp)
    simp only [cellStop,cellStart] at ordered positive
    omega
  · cases List.mem_singleton.mp last
    simp only at positive
    omega

theorem Packed.malloc (packed : Packed region s blocks) (positive : 0 < bytes) :
    ∃ t blocks', s.call libc (.malloc bytes) = some t ∧ Packed region t blocks' := by
  have fresh : s.made ∉ addresses (dummy region :: blocks) := fun member => Nat.lt_irrefl _ (packed.made _ member)
  have allocated := packed.wf.allocate libc bytes fresh
  obtain ⟨found,search⟩ := packed.search libc bytes
  cases found with
  | none =>
    refine ⟨_,blocks,session_malloc (heapMalloc_full search),allocated,?_,packed.ends,packed.touching,
      packed.positive,packed.nBuckets,packed.map⟩
    intro a member
    exact Nat.lt_succ_of_lt (packed.made a member)
  | some a =>
    obtain ⟨front,x,back,split,room⟩ := findBlock_sound allocated allocated.cursor search
    cases room_last packed.touching split room positive
    have longer : dummy region :: (blocks ++ [(s.made,⟨x.ptr + x.size,bytes⟩)]) =
        front ++ [(a,x),(s.made,⟨x.ptr + x.size,bytes⟩)] := by
      rw [← List.cons_append,split]
      simp
    rw [split] at allocated fresh
    have stored := allocated.block_at
    have inserted := fun blockMap => allocated.insert blockMap room fresh stored
    have passed := packed.passed split (inserted s.heap.blockMap).chain
    have set := hashmapSet_eq (passed.loop a)
    refine ⟨_,_,session_malloc (heapMalloc_placed search stored rfl set),longer ▸ inserted _,?_,packed.ends,?_,?_,?_,?_⟩
    · intro c member
      rw [longer] at member
      rcases mem_addresses_behind.mp member with rfl | old
      · exact Nat.lt_succ_self _
      · exact Nat.lt_succ_of_lt (packed.made c (split ▸ old))
    · rw [longer,List.isChain_append_cons_cons]
      exact ⟨split ▸ packed.touching,rfl,List.isChain_singleton _⟩
    · intro block member
      rcases List.mem_append.mp member with old | new
      · exact packed.positive block old
      · cases List.mem_singleton.mp new
        exact positive
    · exact packed.nBuckets
    · intro i
      rw [longer,filings_append,← split,List.filter_append,← packed.map]
      by_cases here : hashFunc (x.ptr + x.size) numBuckets = i
      · subst i
        simp [filings,getNode,packed.nBuckets]
      · simp [filings,here,Ne.symm here,packed.nBuckets]

theorem mallocs_packed {sizes : List Nat} (packed : Packed region s blocks) (positive : ∀ bytes ∈ sizes, 0 < bytes)
    (ran : (sessions libc).run s (sizes.map Call.malloc) = some t) : ∃ blocks, Packed region t blocks := by
  induction sizes generalizing s blocks with
  | nil =>
    cases ran
    exact ⟨blocks,packed⟩
  | cons bytes sizes ih =>
    obtain ⟨u,called,later⟩ := Guarded.Machine.run_cons_some ran
    obtain ⟨v,longer,also,next⟩ := packed.malloc (positive bytes List.mem_cons_self)
    cases called.symm.trans also
    exact ih next (fun size member => positive size (List.mem_cons_of_mem _ member)) later

-- No gap of the list can hold a byte.
def Full (heap : Heap) (cells : List Cell) : Prop :=
  ∀ front a x back, cells = front ++ (a,x) :: back → ¬ HasRoom heap 1 x back

-- heap_free of `ptr` on a heap with these blocks behind the dummy block takes the block at
-- `ptr` off the list and nothing else. In a full heap its memory can be had again.
def FreesNamed (libc : Libc) (s : Session) (first : Cell) (blocks : List Cell) (ptr : Nat) : Prop :=
  ∃ t, s.call libc (.free ptr) = some t ∧
    Chain (links t.store) (some t.heap.tail) (first :: blocks.filter fun block => block.2.ptr ≠ ptr) ∧
    ((∀ block ∈ blocks, block.2.ptr ≠ ptr) → t.heap.head = s.heap.head) ∧
    (Full s.heap (first :: blocks) → ∀ block ∈ blocks, block.2.ptr = ptr →
      ∃ u, t.call libc (.malloc block.2.size) = some u ∧ u.results = s.results ++ [some ptr])

-- No block starts at `ptr`; or the first one does, and a block behind it starts in another
-- bucket and, in a full heap, has its descriptor in another bucket than it starts in.
def NamesFirst (libc : Libc) (s : Session) (first : Cell) (blocks : List Cell) (ptr : Nat) : Prop :=
  (∀ block ∈ blocks, block.2.ptr ≠ ptr) ∨
  ∃ b y back, blocks = (b,y) :: back ∧ y.ptr = ptr ∧ ∀ c z, back.head? = some (c,z) →
    hashFunc z.ptr numBuckets ≠ hashFunc ptr numBuckets ∧
    (Full s.heap (first :: blocks) → hashFunc (libc.place c) numBuckets ≠ hashFunc z.ptr numBuckets)

theorem Packed.block_unique (packed : Packed region s blocks) (one : (a,x) ∈ blocks) (two : (b,y) ∈ blocks) (same : x.ptr = y.ptr) :
    (a,x) = (b,y) := by
  by_contra different
  have apart := packed.wf.laid.disjoint (List.mem_cons_of_mem _ one) (List.mem_cons_of_mem _ two) different
  have first := packed.positive _ one
  have second := packed.positive _ two
  simp only [Extents.Disjoint,cellStart,cellStop] at apart first second
  omega

-- Where a recorded block starts at an address, a block of the list other than the dummy one does.
theorem Packed.starts_block (packed : Packed region s blocks) (follows : Follows (dummy region :: blocks) v c z)
    (starts : ∃ block, s.store v = some block ∧ block.ptr = ptr) :
    ∃ b y, (b,y) ∈ blocks ∧ y.ptr = ptr ∧ (v = b ∨ (v = 0 ∧ blocks.head? = some (b,y))) := by
  obtain ⟨block,stored,same⟩ := starts
  obtain ⟨before,w,after,place⟩ := follows
  have wf := packed.wf
  rw [place] at wf
  rw [wf.block_at] at stored
  cases stored
  cases before with
  | cons cell before =>
    obtain ⟨_,rest⟩ := List.cons.inj place
    exact ⟨v,w,by rw [rest]; simp,same,Or.inl rfl⟩
  | nil =>
    obtain ⟨head,rest⟩ := List.cons.inj place
    cases head
    have touching := packed.touching
    rw [rest,List.isChain_cons_cons] at touching
    have meets : cellStop (dummy region) = z.ptr := touching.1
    exact ⟨c,z,by rw [rest]; exact List.mem_cons_self,meets.symm.trans same,Or.inr ⟨rfl,by rw [rest]; rfl⟩⟩

-- A recorded block that starts where the block `b` does is `b`, or the dummy block before it.
theorem Packed.starts (packed : Packed region s blocks) (split : dummy region :: blocks = front ++ (a,x) :: (b,y) :: back)
    (follows : Follows (dummy region :: blocks) v c z) (starts : ∃ block, s.store v = some block ∧ block.ptr = y.ptr) :
    v = b ∨ (v = a ∧ front = []) := by
  obtain ⟨d,u,listed,same,which⟩ := packed.starts_block follows starts
  cases packed.block_unique listed (Follows.behind ⟨front,x,back,split⟩) same
  rcases which with here | ⟨rfl,head⟩
  · exact Or.inl here
  · refine Or.inr ?_
    cases front with
    | nil =>
      cases split
      exact ⟨rfl,rfl⟩
    | cons cell front =>
      have once : (addresses blocks).Nodup := (List.nodup_cons.mp packed.wf.chain.nodup).2
      have rest : blocks = front ++ (a,x) :: (b,y) :: back := (List.cons.inj split).2
      have longer : front ++ (a,x) :: (b,y) :: back = (front ++ [(a,x)]) ++ (b,y) :: back := by simp
      rw [rest,longer] at once head
      have early : b ∈ addresses (front ++ [(a,x)]) := by
        cases front with
        | nil =>
          cases head
          exact List.mem_cons_self
        | cons second front =>
          cases head
          exact List.mem_cons_self
      exact absurd early (not_mem_halves once).1

theorem Packed.recorded (packed : Packed region s blocks) (key : Nat) : Stored s.store (getNode s.heap.blockMap key) := by
  intro node member
  obtain ⟨b,y,follows,_⟩ := packed.keyed member
  exact packed.wf.stored follows.mem.1

theorem Packed.free_unlisted (packed : Packed region s blocks)
    (none : ∀ node ∈ getNode s.heap.blockMap ptr, ¬ Starts s.store ptr node) :
    heapFree s.store s.heap ptr = some (s.store,s.heap) := by
  have passed : removeLoop s.store ptr (getNode s.heap.blockMap ptr ++ []) = _ := removeLoop_passed (packed.recorded ptr) none
  rw [List.append_nil] at passed
  exact heapFree_absent (hashmapRemove_absent passed)

-- heap_free takes off the block behind the one that the first fitting node records.
theorem Packed.free_behind (packed : Packed region s blocks) (split : dummy region :: blocks = front ++ (a,x) :: (b,y) :: back)
    (bucket : getNode s.heap.blockMap ptr = pre ++ node :: post) (passed : ∀ other ∈ pre, ¬ Starts s.store ptr other)
    (here : node.value = a) (starts : x.ptr = ptr) : ∃ store heap, heapFree s.store s.heap ptr = some (store,heap) ∧
      WellFormed store heap (front ++ (a,x) :: back) ∧ store b = none ∧
      heap.blockMap = s.heap.blockMap.put (hashFunc ptr s.heap.blockMap.nBuckets) (pre ++ post) ∧ heapEnd heap = heapEnd s.heap := by
  subst here
  have wf := packed.wf
  rw [split] at wf
  have moved : WellFormed s.store s.heap ((front ++ [(node.value,x)]) ++ (b,y) :: back) := by simpa using wf
  have stored := wf.block_at
  have there := moved.block_at
  have recorded := packed.recorded ptr
  rw [bucket] at recorded
  have loop : removeLoop s.store ptr (pre ++ node :: post) = _ :=
    removeLoop_passed (fun other member => recorded other (List.mem_append_left _ member)) passed
  simp only [removeLoop,stored,starts,Option.bind_eq_bind,Option.bind_some,if_true,Option.map_some] at loop
  rw [← bucket] at loop
  exact ⟨_,_,heapFree_found (hashmapRemove_hit loop) stored rfl there,wf.unlink stored there,by simp,rfl,rfl⟩

theorem filings_next : filings (front ++ (a,x) :: (b,y) :: back) =
    filings ((b,y) :: back) ++ ⟨a,y.ptr⟩ :: filings (front ++ [(a,x)]) := by
  rw [filings_append,filings,List.append_assoc]
  rfl

theorem filings_listed {cells : List Cell} (member : node ∈ filings cells) : node.value ∈ addresses cells := by
  obtain ⟨_,_,follows,_⟩ := filings_follows member
  exact follows.mem.1

-- In the bucket of `b`, only nodes of the blocks from `b` on come before the node of `a`.
theorem Packed.bucket (packed : Packed region s blocks) (split : dummy region :: blocks = front ++ (a,x) :: (b,y) :: back) (key : Nat) :
    getNode s.heap.blockMap key = ((filings ((b,y) :: back)).filter fun node => hashFunc node.filed numBuckets = hashFunc key numBuckets) ++
      ((⟨a,y.ptr⟩ :: filings (front ++ [(a,x)])).filter fun node => hashFunc node.filed numBuckets = hashFunc key numBuckets) := by
  rw [getNode,packed.map,packed.nBuckets,split,filings_next,List.filter_append]

-- Of the blocks from `b` on, only `b` starts where `b` does.
theorem Packed.starts_later (packed : Packed region s blocks) (split : dummy region :: blocks = front ++ (a,x) :: (b,y) :: back)
    (present : node ∈ getNode s.heap.blockMap key) (later : node.value ∈ addresses ((b,y) :: back)) (starts : Starts s.store y.ptr node) :
    node.value = b := by
  obtain ⟨_,_,follows,_⟩ := packed.keyed present
  rcases packed.starts split follows starts with here | ⟨here,_⟩
  · exact here
  · have once := packed.wf.chain.nodup
    rw [split] at once
    rw [here] at later
    exact absurd later (not_mem_halves once).2

theorem Packed.collides (packed : Packed region s blocks) (split : dummy region :: blocks = front ++ (a,x) :: (b,y) :: (c,z) :: back)
    (same : hashFunc z.ptr numBuckets = hashFunc y.ptr numBuckets) : ∃ store heap, heapFree s.store s.heap y.ptr = some (store,heap) ∧
      WellFormed store heap (front ++ (a,x) :: (b,y) :: back) := by
  have longer : dummy region :: blocks = (front ++ [(a,x)]) ++ (b,y) :: (c,z) :: back := by simp [split]
  have bucket := packed.bucket longer y.ptr
  rw [List.filter_cons_of_pos (by simpa using same)] at bucket
  have once := packed.wf.chain.nodup
  rw [longer] at once
  have passed : ∀ other ∈ (filings ((c,z) :: back)).filter fun node => hashFunc node.filed numBuckets = hashFunc y.ptr numBuckets,
      ¬ Starts s.store y.ptr other := by
    intro other member starts
    have later := filings_listed (List.mem_filter.mp member).1
    have present : other ∈ getNode s.heap.blockMap y.ptr := by
      rw [bucket]
      exact List.mem_append_left _ member
    have here := packed.starts_later split present (List.mem_cons_of_mem _ later) starts
    rw [here] at later
    exact (not_mem_halves once).2 later
  obtain ⟨store,heap,freed,wf,_⟩ := packed.free_behind longer bucket passed rfl rfl
  exact ⟨store,heap,freed,by simpa using wf⟩

theorem Packed.misses (packed : Packed region s blocks) (split : dummy region :: blocks = front ++ (a,x) :: (b,y) :: back)
    (later : front ≠ []) (apart : ∀ c z, back.head? = some (c,z) → hashFunc z.ptr numBuckets ≠ hashFunc y.ptr numBuckets) :
    heapFree s.store s.heap y.ptr = some (s.store,s.heap) := by
  refine packed.free_unlisted fun node member starts => ?_
  obtain ⟨c,z,follows,_,same⟩ := packed.keyed member
  rcases packed.starts split follows starts with here | ⟨_,first⟩
  · have once := packed.wf.chain.nodup
    have longer : dummy region :: blocks = (front ++ [(a,x)]) ++ (b,y) :: back := by simp [split]
    rw [longer] at once
    rw [here,longer,follows_at once] at follows
    exact apart c z follows same
  · exact later first

-- The heap behind a free of the first block. Its node is gone, and `b`'s own one is left.
structure Vacated (region : Region) (store : Store) (heap : Heap) (b : Nat) (y : Extent) (back : List Cell) : Prop where
  wf : WellFormed store heap (dummy region :: back)
  gone : store b = none
  nBuckets : heap.blockMap.nBuckets = numBuckets
  map : ∀ i, heap.blockMap.buckets i = (filings ((b,y) :: back)).filter fun node => hashFunc node.filed numBuckets = i

theorem Packed.first_start (packed : Packed region s ((b,y) :: back)) : region.base = y.ptr :=
  (List.isChain_cons_cons.mp packed.touching).1

theorem Packed.vacates (packed : Packed region s ((b,y) :: back))
    (apart : ∀ c z, back.head? = some (c,z) → hashFunc z.ptr numBuckets ≠ hashFunc y.ptr numBuckets) :
    ∃ store heap, heapFree s.store s.heap y.ptr = some (store,heap) ∧ Vacated region store heap b y back ∧ heapEnd heap = heapEnd s.heap := by
  have split : dummy region :: (b,y) :: back = [] ++ (0,⟨region.base,0⟩) :: (b,y) :: back := rfl
  have start := packed.first_start
  have bucket := packed.bucket split y.ptr
  have only : (⟨0,y.ptr⟩ :: filings ([] ++ [(0,⟨region.base,0⟩)])).filter
      (fun node => hashFunc node.filed numBuckets = hashFunc y.ptr numBuckets) = [(⟨0,y.ptr⟩ : HashmapNode)] := by
    simp [filings]
  rw [only] at bucket
  have passed : ∀ other ∈ (filings ((b,y) :: back)).filter fun node => hashFunc node.filed numBuckets = hashFunc y.ptr numBuckets,
      ¬ Starts s.store y.ptr other := by
    intro other member starts
    have present : other ∈ getNode s.heap.blockMap y.ptr := by
      rw [bucket]
      exact List.mem_append_left _ member
    have here := packed.starts_later split present (filings_listed (List.mem_filter.mp member).1) starts
    obtain ⟨c,z,follows,_,same⟩ := packed.keyed present
    have once := packed.wf.chain.nodup
    have longer : dummy region :: (b,y) :: back = [dummy region] ++ (b,y) :: back := rfl
    rw [longer] at once
    rw [here,longer,follows_at once] at follows
    exact apart c z follows same
  obtain ⟨store,heap,freed,wf,gone,map,ends⟩ := packed.free_behind split bucket passed rfl start
  refine ⟨store,heap,freed,⟨wf,gone,by rw [map]; exact packed.nBuckets,?_⟩,ends⟩
  intro i
  rw [map,packed.nBuckets,List.append_nil]
  by_cases here : i = hashFunc y.ptr numBuckets
  · subst i
    rw [Hashmap.put_same]
  · rw [Hashmap.put_other _ here,packed.map,split,filings_next,List.filter_append]
    simp [filings,Ne.symm here]

-- The nodes of a part of the list are keyed by the addresses of its blocks.
theorem filings_keyed (chain : Chain (links store) first (front ++ back)) (member : node ∈ filings back) :
    ∃ d u, (d,u) ∈ back ∧ implicitKey store node.value = some u.ptr := by
  obtain ⟨d,u,follows,_⟩ := filings_follows member
  refine ⟨d,u,follows.mem.2,?_⟩
  obtain ⟨before,w,after,rfl⟩ := follows
  have here : Follows (front ++ (before ++ (node.value,w) :: (d,u) :: after)) node.value d u := ⟨front ++ before,w,after,by simp⟩
  exact key_eq chain here

theorem Packed.inside (packed : Packed region s blocks) (member : (a,x) ∈ blocks) :
    region.base ≤ x.ptr ∧ x.ptr < region.base + region.size := by
  have ordered := (List.pairwise_cons.mp packed.wf.laid.ordered).1 _ member
  have below := packed.wf.laid.inside (a,x) (List.mem_cons_of_mem _ member)
  have positive := packed.positive _ member
  rw [packed.ends] at below
  simp only [dummy,cellStop,cellStart] at ordered below positive
  omega

-- libc malloc does not hand out the memory of the heap.
def Outside (libc : Libc) (region : Region) : Prop :=
  ∀ n, libc.place n < region.base ∨ region.base + region.size ≤ libc.place n

theorem Packed.placed (packed : Packed region s blocks) (outside : Outside libc region) (member : (a,x) ∈ blocks) :
    libc.place n ≠ x.ptr := by
  have inside := packed.inside member
  have apart := outside n
  omega

-- The freed first block leaves a gap of its own size behind the dummy block.
theorem Packed.room_first (packed : Packed region s ((b,y) :: back)) (ends : heapEnd heap = heapEnd s.heap) :
    HasRoom heap y.size ⟨region.base,0⟩ back := by
  have start := packed.first_start
  cases back with
  | nil =>
    have below := packed.wf.laid.inside (b,y) (by simp)
    simp only [cellStop] at below
    simp only [HasRoom,gapEnd,ends]
    omega
  | cons cell back =>
    have behind := (List.isChain_cons_cons.mp packed.touching).2
    have next : cellStop (b,y) = cellStart cell := (List.isChain_cons_cons.mp behind).1
    simp only [cellStop,cellStart] at next
    simp only [HasRoom,gapEnd]
    omega

theorem Packed.known_rest (packed : Packed region s ((b,y) :: back)) : ∀ a ∈ addresses (dummy region :: back), a < s.made := by
  intro a member
  rcases List.mem_cons.mp member with first | later
  · exact packed.made a (first ▸ List.mem_cons_self)
  · exact packed.made a (List.mem_cons_of_mem _ (List.mem_cons_of_mem _ later))

-- In the heap that was full, only the memory of the freed first block is free.
theorem Vacated.search (vacated : Vacated region store heap b y back) (packed : Packed region s ((b,y) :: back))
    (ends : heapEnd heap = heapEnd s.heap) (full : Full s.heap (dummy region :: (b,y) :: back)) (libc : Libc) :
    findBlock (allocate libc store s.made y.size) heap y.size s.made heap.head = some (some 0) := by
  have known := packed.known_rest
  have fresh : s.made ∉ addresses (dummy region :: back) := fun member => Nat.lt_irrefl _ (known _ member)
  have allocated := vacated.wf.allocate libc y.size fresh
  have sized := packed.positive _ List.mem_cons_self
  obtain ⟨before,x,after,split⟩ := mem_split vacated.wf.cursor
  have search := vacated.wf.search_eq libc known y.size split
  cases chosen : firstFit y.size (searchOrder heap before (heap.head,x) after) with
  | none =>
    have room := packed.room_first ends
    exact absurd room ((split ▸ vacated.wf).firstFit_iff.mp chosen [] 0 _ back split.symm)
  | some a =>
    rw [chosen] at search
    obtain ⟨front,z,rest,place,room⟩ := findBlock_sound allocated allocated.cursor search
    cases front with
    | nil =>
      cases place
      exact search
    | cons cell front =>
      obtain ⟨_,rfl⟩ := List.cons.inj place
      refine absurd ?_ (full (dummy region :: (b,y) :: front) a z rest rfl)
      have same : gapEnd s.heap rest = gapEnd heap rest := by
        cases rest with
        | nil => exact ends.symm
        | cons _ _ => rfl
      simp only [HasRoom,same] at room sized ⊢
      omega

-- The bucket of a key, with the node of the freed block `b` last.
theorem Vacated.bucket (vacated : Vacated region store heap b y ((c,z) :: back)) (key : Nat) : getNode heap.blockMap key =
    (filings ((c,z) :: back)).filter (fun node => hashFunc node.filed numBuckets = hashFunc key numBuckets) ++
      if hashFunc z.ptr numBuckets = hashFunc key numBuckets then [⟨b,z.ptr⟩] else [] := by
  rw [getNode,vacated.map,vacated.nBuckets,filings,List.filter_append]
  by_cases here : hashFunc z.ptr numBuckets = hashFunc key numBuckets <;> simp [here]

-- The nodes of the blocks that are left are not keyed by an address outside the region.
theorem Packed.rest_passed (packed : Packed region s ((b,y) :: back)) (outside : Outside libc region)
    (chain : Chain (links store) first (dummy region :: back)) (n : Nat) : Passable store (libc.place n)
      ((filings back).filter fun node => hashFunc node.filed numBuckets = hashFunc (libc.place n) numBuckets) := by
  intro node member
  have split : dummy region :: back = [dummy region] ++ back := rfl
  obtain ⟨d,u,listed,keyed⟩ := filings_keyed (split ▸ chain) (List.mem_filter.mp member).1
  exact ⟨u.ptr,keyed,packed.placed outside (List.mem_cons_of_mem _ listed)⟩

-- A heap_malloc that files the new block in the bucket of the freed block's node reads the
-- descriptor that the free released.
theorem Vacated.stuck (vacated : Vacated region store heap b y ((c,z) :: back)) (packed : Packed region s ((b,y) :: (c,z) :: back))
    (outside : Outside libc region) (same : hashFunc (libc.place c) numBuckets = hashFunc z.ptr numBuckets) (new : Nat) :
    hashmapSet (allocate libc store s.made y.size) heap.blockMap (libc.place c) new = none := by
  have fresh : s.made ∉ addresses (dummy region :: (c,z) :: back) := fun member => Nat.lt_irrefl _ (packed.known_rest _ member)
  have allocated := vacated.wf.allocate libc y.size fresh
  have passed := packed.rest_passed outside allocated.chain c
  have gone : allocate libc store s.made y.size b = none := by
    have old := packed.made b (List.mem_cons_of_mem _ List.mem_cons_self)
    exact (allocate_other (Nat.ne_of_lt old)).trans vacated.gone
  have stuck : implicitKey (allocate libc store s.made y.size) b = none := by simp [implicitKey,gone]
  cases set : hashmapSet (allocate libc store s.made y.size) heap.blockMap (libc.place c) new with
  | none => rfl
  | some after =>
    obtain ⟨_,loop,_⟩ := hashmapSet_cases set
    rw [vacated.bucket,if_pos same.symm,passed.set] at loop
    simp [setLoop,stuck] at loop

theorem Vacated.refills (vacated : Vacated region store heap b y back) (packed : Packed region s ((b,y) :: back))
    (ends : heapEnd heap = heapEnd s.heap) (full : Full s.heap (dummy region :: (b,y) :: back)) (outside : Outside libc region)
    (apart : ∀ c z, back.head? = some (c,z) → hashFunc z.ptr numBuckets ≠ hashFunc y.ptr numBuckets) :
    (∃ store' heap', heapMalloc libc s.made store heap y.size = some (store',heap',some y.ptr)) ↔
      ∀ c z, back.head? = some (c,z) → hashFunc (libc.place c) numBuckets ≠ hashFunc z.ptr numBuckets := by
  have search := vacated.search packed ends full libc
  have once := packed.wf.chain.nodup
  have start := packed.first_start
  have fresh : s.made ∉ addresses (dummy region :: back) := fun member => Nat.lt_irrefl _ (packed.known_rest _ member)
  have room := packed.room_first ends
  have allocated := vacated.wf.allocate libc y.size fresh
  have stored : allocate libc store s.made y.size 0 = some ⟨region.base,0,back.head?.map Prod.fst⟩ := by
    have split : dummy region :: back = [] ++ (0,⟨region.base,0⟩) :: back := rfl
    rw [split] at allocated
    exact allocated.block_at
  have ended : blockEnd ⟨region.base,0,back.head?.map Prod.fst⟩ = y.ptr := start
  cases back with
  | nil =>
    have empty : getNode heap.blockMap y.ptr = [] := by
      rw [getNode,vacated.map]
      rfl
    have loop : setLoop (insertBlock (allocate libc store s.made y.size) 0 ⟨region.base,0,none⟩ s.made y.size) y.ptr 0
        (getNode heap.blockMap y.ptr) = some none := by
      rw [empty]
      rfl
    refine ⟨fun _ c z none => (by cases none),fun _ => ?_⟩
    rw [← ended] at loop ⊢
    exact ⟨_,_,heapMalloc_placed search stored rfl (hashmapSet_eq loop)⟩
  | cons cell back =>
    obtain ⟨c,z⟩ := cell
    have bucket := vacated.bucket
    have passed := packed.rest_passed outside allocated.chain c
    constructor
    · intro placed c' z' next same
      obtain ⟨store',heap',returned⟩ := placed
      cases next
      rcases heapMalloc_cases returned with ⟨_,_,_,none⟩ | ⟨head,block,filed,_,searched,stored',update,_⟩
      · cases none
      · cases search.symm.trans searched
        cases stored.symm.trans stored'
        have stuck := vacated.stuck packed outside same s.made
        exact absurd (update.symm.trans stuck) (by simp)
    · intro different
      have apart := apart c z rfl
      have unfiled := different c z rfl
      have listed : dummy region :: (c,z) :: back = [] ++ (0,⟨region.base,0⟩) :: (c,z) :: back := rfl
      have clear := bucket (libc.place c)
      rw [if_neg (Ne.symm unfiled),List.append_nil] at clear
      have update : updateNext libc (allocate libc store s.made y.size) heap.blockMap ⟨region.base,0,some c⟩ s.made = _ :=
        hashmapSet_eq (clear ▸ passed.loop s.made)
      rw [listed] at allocated fresh
      have inserted := (allocated.insert heap.blockMap room fresh stored).chain
      have second : Passable (insertBlock (allocate libc store s.made y.size) 0 ⟨region.base,0,some c⟩ s.made y.size) y.ptr
          (getNode (heap.blockMap.put (hashFunc (libc.place c) heap.blockMap.nBuckets) (⟨s.made,libc.place c⟩ ::
            getNode heap.blockMap (libc.place c))) y.ptr) := by
        intro node member
        rcases mem_front member with ⟨_,rfl⟩ | old
        · exact ⟨z.ptr,key_eq inserted ⟨[(0,⟨region.base,0⟩)],_,back,rfl⟩,fun same => apart (by rw [same])⟩
        · have kept : node ∈ getNode heap.blockMap y.ptr := old
          rw [bucket,if_neg apart,List.append_nil] at kept
          have whole : [] ++ (0,⟨region.base,0⟩) :: (s.made,⟨region.base + 0,y.size⟩) :: (c,z) :: back =
              [(0,⟨region.base,0⟩),(s.made,⟨region.base + 0,y.size⟩)] ++ (c,z) :: back := rfl
          obtain ⟨d,u,later,keyed⟩ := filings_keyed (whole ▸ inserted) (List.mem_filter.mp kept).1
          refine ⟨u.ptr,keyed,fun same => ?_⟩
          cases packed.block_unique List.mem_cons_self (List.mem_cons_of_mem _ later) same
          exact (List.nodup_cons.mp (List.nodup_cons.mp once).2).1 (mem_addresses.mpr ⟨_,later⟩)
      have set := hashmapSet_eq (second.loop 0)
      rw [← ended] at set ⊢
      exact ⟨_,_,heapMalloc_placed search stored update set⟩

theorem Packed.not_kept (packed : Packed region s blocks) (member : (b,y) ∈ blocks) :
    (b,y) ∉ dummy region :: blocks.filter fun block => block.2.ptr ≠ y.ptr := by
  intro kept
  rcases List.mem_cons.mp kept with first | later
  · have sized := packed.positive _ member
    cases first
    exact Nat.lt_irrefl 0 sized
  · simp at later

theorem Packed.not_freed (packed : Packed region s blocks) (split : dummy region :: blocks = front ++ (a,x) :: (b,y) :: back)
    (wrong : front ≠ [] ∨ ∃ c z, back.head? = some (c,z) ∧ hashFunc z.ptr numBuckets = hashFunc y.ptr numBuckets) :
    ¬ FreesNamed libc s (dummy region) blocks y.ptr := by
  intro ⟨t,called,chain,_⟩
  have listed : (b,y) ∈ blocks := Follows.behind ⟨front,x,back,split⟩
  by_cases collision : ∃ c z, back.head? = some (c,z) ∧ hashFunc z.ptr numBuckets = hashFunc y.ptr numBuckets
  · obtain ⟨c,z,next,same⟩ := collision
    cases back with
    | nil => cases next
    | cons cell back =>
      cases next
      obtain ⟨store,heap,freed,wf⟩ := packed.collides split same
      rw [session_free freed] at called
      cases called
      have kept := chain.unique wf.chain
      exact packed.not_kept listed (by rw [kept]; simp)
  · have missed := packed.misses split (wrong.resolve_right collision) fun c z next same => collision ⟨c,z,next,same⟩
    rw [session_free missed] at called
    cases called
    have kept := chain.unique packed.wf.chain
    exact packed.not_kept listed (by rw [kept]; exact List.mem_cons_of_mem _ listed)

theorem Packed.freed_iff (packed : Packed region s ((b,y) :: back)) (outside : Outside libc region)
    (apart : ∀ c z, back.head? = some (c,z) → hashFunc z.ptr numBuckets ≠ hashFunc y.ptr numBuckets) :
    FreesNamed libc s (dummy region) ((b,y) :: back) y.ptr ↔ (Full s.heap (dummy region :: (b,y) :: back) →
      ∀ c z, back.head? = some (c,z) → hashFunc (libc.place c) numBuckets ≠ hashFunc z.ptr numBuckets) := by
  obtain ⟨store,heap,freed,vacated,ends⟩ := packed.vacates apart
  have once := (List.nodup_cons.mp (List.nodup_cons.mp packed.wf.chain.nodup).2).1
  have others : ((b,y) :: back).filter (fun block => block.2.ptr ≠ y.ptr) = back := by
    rw [List.filter_cons_of_neg (by simp)]
    refine List.filter_eq_self.mpr fun block member => ?_
    rw [decide_eq_true_eq]
    intro same
    cases packed.block_unique (List.mem_cons_of_mem _ member) List.mem_cons_self same
    exact once (mem_addresses.mpr ⟨_,member⟩)
  constructor
  · intro ⟨t,called,_,_,refill⟩ full
    rw [session_free freed] at called
    cases called
    obtain ⟨u,again,results⟩ := refill full _ List.mem_cons_self rfl
    refine (vacated.refills packed ends full outside apart).mp ?_
    obtain ⟨⟨store',heap',found⟩,returned,same⟩ := Option.bind_eq_some_iff.mp again
    cases same
    have last : [found] = [some y.ptr] := List.append_cancel_left results
    cases last
    exact ⟨store',heap',returned⟩
  · intro clear
    refine ⟨_,session_free freed,by rw [others]; exact vacated.wf.chain,?_,?_⟩
    · intro none
      exact absurd rfl (none _ List.mem_cons_self)
    · intro full block member same
      cases packed.block_unique member List.mem_cons_self same
      obtain ⟨store',heap',returned⟩ := (vacated.refills packed ends full outside apart).mpr (clear full)
      exact ⟨_,session_malloc returned,rfl⟩

theorem Packed.names_iff (packed : Packed region s (front ++ (b,y) :: back)) :
    NamesFirst libc s (dummy region) (front ++ (b,y) :: back) y.ptr ↔ front = [] ∧ ∀ c z, back.head? = some (c,z) →
      hashFunc z.ptr numBuckets ≠ hashFunc y.ptr numBuckets ∧ (Full s.heap (dummy region :: (front ++ (b,y) :: back)) →
        hashFunc (libc.place c) numBuckets ≠ hashFunc z.ptr numBuckets) := by
  have member : (b,y) ∈ front ++ (b,y) :: back := by simp
  constructor
  · intro names
    rcases names with none | ⟨d,u,rest,split,same,clear⟩
    · exact absurd rfl (none _ member)
    cases packed.block_unique (by rw [split]; exact List.mem_cons_self) member same
    cases front with
    | nil =>
      cases split
      exact ⟨rfl,clear⟩
    | cons cell front =>
      obtain ⟨rfl,_⟩ := List.cons.inj split
      have once := (List.nodup_cons.mp packed.wf.chain.nodup).2
      exact absurd List.mem_cons_self (not_mem_halves once).1
  · intro ⟨first,clear⟩
    subst first
    exact Or.inr ⟨b,y,back,rfl,rfl,clear⟩

theorem Packed.frees_iff (packed : Packed region s blocks) (outside : Outside libc region) (ptr : Nat) :
    FreesNamed libc s (dummy region) blocks ptr ↔ NamesFirst libc s (dummy region) blocks ptr := by
  by_cases none : ∀ block ∈ blocks, block.2.ptr ≠ ptr
  · refine ⟨fun _ => Or.inl none,fun _ => ?_⟩
    have kept : heapFree s.store s.heap ptr = some (s.store,s.heap) := by
      refine packed.free_unlisted fun node member starts => ?_
      obtain ⟨c,z,follows,_⟩ := packed.keyed member
      obtain ⟨b,y,listed,same,_⟩ := packed.starts_block follows starts
      exact none _ listed same
    have all : blocks.filter (fun block => block.2.ptr ≠ ptr) = blocks :=
      List.filter_eq_self.mpr fun block member => decide_eq_true (none block member)
    refine ⟨_,session_free kept,by rw [all]; exact packed.wf.chain,fun _ => rfl,?_⟩
    intro _ block member same
    exact absurd same (none block member)
  · simp only [not_forall,not_not] at none
    obtain ⟨⟨b,y⟩,member,rfl⟩ := none
    obtain ⟨front,back,rfl⟩ := List.append_of_mem member
    rw [packed.names_iff]
    rcases List.eq_nil_or_concat front with rfl | ⟨front,⟨a,x⟩,rfl⟩
    · by_cases apart : ∀ c z, back.head? = some (c,z) → hashFunc z.ptr numBuckets ≠ hashFunc y.ptr numBuckets
      · rw [List.nil_append] at packed ⊢
        rw [packed.freed_iff outside apart]
        exact ⟨fun clear => ⟨rfl,fun c z next => ⟨apart c z next,fun full => clear full c z next⟩⟩,
          fun clear full c z next => (clear.2 c z next).2 full⟩
      · have split : dummy region :: ([] ++ (b,y) :: back) = [] ++ (0,⟨region.base,0⟩) :: (b,y) :: back := rfl
        refine ⟨fun freed => absurd freed (packed.not_freed split (Or.inr ?_)),
          fun clear => absurd (fun c z next => (clear.2 c z next).1) apart⟩
        simpa only [not_forall,not_not,exists_prop] using apart
    · have split : dummy region :: (front.concat (a,x) ++ (b,y) :: back) = (dummy region :: front) ++ (a,x) :: (b,y) :: back := by simp
      exact ⟨fun freed => absurd freed (packed.not_freed split (Or.inl (by simp))),fun clear => absurd clear.1 (by simp)⟩

-- For every heap that heap_malloc calls of positive sizes build, and every address.
theorem heapFree_names_iff (libc : Libc) (region : Region) (clean : (libc.prior 0).next = none) (outside : Outside libc region)
    (sizes : List Nat) (positive : ∀ bytes ∈ sizes, 0 < bytes)
    (ran : (sessions libc).run (Session.start libc region) (sizes.map Call.malloc) = some s)
    (listed : Chain (links s.store) (some s.heap.tail) (first :: blocks)) (ptr : Nat) :
    FreesNamed libc s first blocks ptr ↔ NamesFirst libc s first blocks ptr := by
  obtain ⟨packing,packed⟩ := mallocs_packed (start_packed region clean) positive ran
  obtain ⟨rfl,rfl⟩ := List.cons.inj (listed.unique packed.wf.chain)
  exact packed.frees_iff outside ptr

def scattered : Libc := ⟨fun n => 65536 + 32 * n,fun _ => ⟨7,7,none⟩⟩

-- Two blocks of 8 bytes fill a heap of 16.
theorem filled : ∃ s, (sessions scattered).run (Session.start scattered ⟨4096,16,by decide⟩) ([8,8].map Call.malloc) = some s ∧
    Chain (links s.store) (some s.heap.tail) [(0,⟨4096,0⟩),(1,⟨4096,8⟩),(2,⟨4104,8⟩)] := by
  have stored : ((sessions scattered).run (Session.start scattered ⟨4096,16,by decide⟩) ([8,8].map Call.malloc)).map
      (fun s => (s.heap.tail,s.store 0,s.store 1,s.store 2)) =
      some (0,some ⟨4096,0,some 1⟩,some ⟨4096,8,some 2⟩,some ⟨4104,8,none⟩) := by decide +kernel
  obtain ⟨s,ran,same⟩ := Option.map_eq_some_iff.mp stored
  simp only [Prod.mk.injEq] at same
  obtain ⟨tail,zero,one,two⟩ := same
  refine ⟨s,ran,?_⟩
  rw [tail]
  exact .cons (links_eq.mpr zero) (.cons (links_eq.mpr one) (.cons (links_eq.mpr two) .nil))

theorem scattered_outside : Outside scattered ⟨4096,16,by decide⟩ := by
  intro n
  simp only [scattered]
  omega

theorem heapFree_names_first : ∃ s, (sessions scattered).run (Session.start scattered ⟨4096,16,by decide⟩) ([8,8].map Call.malloc) = some s ∧
    FreesNamed scattered s (0,⟨4096,0⟩) [(1,⟨4096,8⟩),(2,⟨4104,8⟩)] 4096 := by
  obtain ⟨s,ran,listed⟩ := filled
  refine ⟨s,ran,(heapFree_names_iff scattered _ rfl scattered_outside [8,8] (by decide) ran listed 4096).mpr ?_⟩
  refine Or.inr ⟨1,⟨4096,8⟩,_,rfl,rfl,?_⟩
  intro c z next
  cases next
  exact ⟨by decide,fun _ => by decide⟩

-- The second block is not found under its own address and stays on the list.
theorem second_block_stays : ¬ ∀ (libc : Libc) (region : Region) (sizes : List Nat) (s : Session) (first : Cell) (blocks : List Cell)
    (ptr : Nat), (libc.prior 0).next = none → Outside libc region → (∀ bytes ∈ sizes, 0 < bytes) →
    (sessions libc).run (Session.start libc region) (sizes.map Call.malloc) = some s →
    Chain (links s.store) (some s.heap.tail) (first :: blocks) → FreesNamed libc s first blocks ptr := by
  intro claim
  obtain ⟨s,ran,listed⟩ := filled
  obtain ⟨t,called,chain,_⟩ := claim scattered _ [8,8] s _ _ 4104 rfl scattered_outside (by decide) ran listed
  have left : ((sessions scattered).run (Session.start scattered ⟨4096,16,by decide⟩) ([8,8].map Call.malloc ++ [.free 4104])).map
      (fun t => t.store 1) = some (some ⟨4096,8,some 2⟩) := by decide +kernel
  have freed : (sessions scattered).step s (.free 4104) = some t := called
  rw [Guarded.Machine.run_append,ran,Option.bind_some,Guarded.Machine.run_cons,freed] at left
  have stored : t.store 1 = some ⟨4096,8,some 2⟩ := Option.some.inj left
  have rest : Chain (links t.store) (some t.heap.tail) ([(0,⟨4096,0⟩)] ++ (1,⟨4096,8⟩) :: []) := chain
  obtain ⟨_,_,absent⟩ := rest.successor (links_eq.mpr stored)
  cases absent

end OpenShmem
