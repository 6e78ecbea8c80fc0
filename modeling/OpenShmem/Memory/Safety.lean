import OpenShmem.Memory.Session

namespace OpenShmem
open Linked Extents

-- The users' side of the contract: positive sizes, and frees of addresses that were
-- returned and not freed since.
def Allowed (s : Session) : Call → Prop
  | .malloc bytes => 0 < bytes
  | .free ptr => ptr ∈ s.live.map Prod.fst

def Apart (one two : Nat × Nat) : Prop := one.1 + one.2 ≤ two.1 ∨ two.1 + two.2 ≤ one.1

structure Safe (s : Session) : Prop where
  disjoint : s.live.Pairwise Apart
  inside : ∀ a ∈ s.live, s.heap.ptr ≤ a.1 ∧ a.1 + a.2 ≤ s.heap.ptr + s.heap.size

-- The walk of hashmap_remove down the bucket of `ptr` reads no released descriptor, and
-- the node it stops at records the predecessor of the block named, or else of a block
-- that was already passed to heap_free.
def RemovesNamed (s : Session) (ptr : Nat) : List HashmapNode → Prop
  | [] => True
  | node :: rest => ∃ block, s.store node.value = some block ∧
      (if ptr = block.ptr then
        ∃ next, block.next = some next ∧ ∃ successor, s.store next = some successor ∧
          (successor.ptr = ptr ∨ successor.ptr ∉ s.live.map Prod.fst)
      else RemovesNamed s ptr rest)

-- It reads no released descriptor, and the block it stops at has a successor that fits.
def Removes (store : Store) (key : Nat) (fits : Block → Prop) : List HashmapNode → Prop
  | [] => True
  | node :: rest => ∃ block, store node.value = some block ∧
      (if key = block.ptr then ∃ next, block.next = some next ∧ ∃ successor, store next = some successor ∧ fits successor
      else Removes store key fits rest)

-- The walk of hashmap_set meets, up to the key, only blocks that still have a successor.
def SetDefined (store : Store) (key : Nat) : List HashmapNode → Prop
  | [] => True
  | node :: rest => ∃ found, implicitKey store node.value = some found ∧
      (key = found ∨ SetDefined store key rest)

-- The bucket of a descriptor's place holds only blocks that still have a successor, and
-- none of them is keyed by that very place.
def Passable (store : Store) (key : Nat) (chain : List HashmapNode) : Prop :=
  ∀ node ∈ chain, ∃ found, implicitKey store node.value = some found ∧ key ≠ found

-- The condition on a call, in the state it is made in: no bucket walk reads a stale
-- entry, and a free does not stop at the entry of another live allocation.
def Sound (libc : Libc) (s : Session) : Call → Prop
  | .free ptr => RemovesNamed s ptr (getNode s.heap.blockMap ptr)
  | .malloc bytes => ∀ found,
      findBlock (allocate libc s.store s.made bytes) s.heap bytes s.made s.heap.head = some found →
      ∀ head, found = some head → ∀ block, allocate libc s.store s.made bytes head = some block →
      (∀ next, block.next = some next →
        Passable (allocate libc s.store s.made bytes) (libc.place next) (getNode s.heap.blockMap (libc.place next))) ∧
      SetDefined (insertBlock (allocate libc s.store s.made bytes) head block s.made bytes) (blockEnd block)
        (getNode s.heap.blockMap (blockEnd block))

-- A call whose outcome is defined, whatever block a free picks.
def Definite (libc : Libc) (s : Session) : Call → Prop
  | .free ptr => Removes s.store ptr (fun _ => True) (getNode s.heap.blockMap ptr)
  | .malloc bytes => Sound libc s (.malloc bytes)

instance : (s : Session) → (call : Call) → Decidable (Allowed s call)
  | _,.malloc bytes => inferInstanceAs (Decidable (0 < bytes))
  | s,.free ptr => inferInstanceAs (Decidable (ptr ∈ s.live.map Prod.fst))

instance decidableRemovesNamed : (chain : List HashmapNode) → Decidable (RemovesNamed s ptr chain)
  | [] => isTrue trivial
  | node :: rest =>
    have : Decidable (RemovesNamed s ptr rest) := decidableRemovesNamed rest
    inferInstanceAs (Decidable (∃ block, s.store node.value = some block ∧ (if ptr = block.ptr then
      ∃ next, block.next = some next ∧ ∃ successor, s.store next = some successor ∧
        (successor.ptr = ptr ∨ successor.ptr ∉ s.live.map Prod.fst)
      else RemovesNamed s ptr rest)))

instance decidableRemoves {fits : Block → Prop} [DecidablePred fits] :
    (chain : List HashmapNode) → Decidable (Removes store key fits chain)
  | [] => isTrue trivial
  | node :: rest =>
    have : Decidable (Removes store key fits rest) := decidableRemoves rest
    inferInstanceAs (Decidable (∃ block, store node.value = some block ∧ (if key = block.ptr then
      ∃ next, block.next = some next ∧ ∃ successor, store next = some successor ∧ fits successor
      else Removes store key fits rest)))

instance decidableSetDefined : (chain : List HashmapNode) → Decidable (SetDefined store key chain)
  | [] => isTrue trivial
  | node :: rest =>
    have : Decidable (SetDefined store key rest) := decidableSetDefined rest
    inferInstanceAs (Decidable (∃ found, implicitKey store node.value = some found ∧
      (key = found ∨ SetDefined store key rest)))

instance (store : Store) (key : Nat) (chain : List HashmapNode) : Decidable (Passable store key chain) :=
  inferInstanceAs (Decidable (∀ node ∈ chain, _))

instance : (s : Session) → (call : Call) → Decidable (Sound libc s call)
  | s,.free ptr => inferInstanceAs (Decidable (RemovesNamed s ptr _))
  | s,.malloc bytes => inferInstanceAs (Decidable (∀ found,
      findBlock (allocate libc s.store s.made bytes) s.heap bytes s.made s.heap.head = some found →
      ∀ head, found = some head → ∀ block, allocate libc s.store s.made bytes head = some block →
      (∀ next, block.next = some next →
        Passable (allocate libc s.store s.made bytes) (libc.place next) (getNode s.heap.blockMap (libc.place next))) ∧
      SetDefined (insertBlock (allocate libc s.store s.made bytes) head block s.made bytes) (blockEnd block)
        (getNode s.heap.blockMap (blockEnd block))))

instance : (s : Session) → (call : Call) → Decidable (Definite libc s call)
  | s,.free ptr => inferInstanceAs (Decidable (Removes s.store ptr (fun _ => True) _))
  | s,.malloc bytes => inferInstanceAs (Decidable (Sound libc s (.malloc bytes)))

theorem Removes.mono {fits weaker : Block → Prop} (weakens : ∀ block, fits block → weaker block)
    (removes : Removes store key fits chain) : Removes store key weaker chain := by
  induction chain with
  | nil => trivial
  | cons node rest ih =>
    obtain ⟨block,stored,removes⟩ := removes
    refine ⟨block,stored,?_⟩
    by_cases here : key = block.ptr
    · rw [if_pos here] at removes ⊢
      obtain ⟨next,linked,successor,there,fits⟩ := removes
      exact ⟨next,linked,successor,there,weakens successor fits⟩
    · rw [if_neg here] at removes ⊢
      exact ih removes

theorem Removes.loop {fits : Block → Prop} (removes : Removes store key fits chain) :
    ∃ removed, removeLoop store key chain = some removed ∧ ∀ value rest, removed = some (value,rest) →
      ∃ block next successor, store value = some block ∧ block.next = some next ∧
        store next = some successor ∧ fits successor := by
  induction chain with
  | nil => exact ⟨none,rfl,by simp⟩
  | cons node rest ih =>
    obtain ⟨block,stored,removes⟩ := removes
    simp only [removeLoop,stored,Option.bind_eq_bind,Option.bind_some]
    by_cases here : key = block.ptr
    · rw [if_pos here] at removes ⊢
      obtain ⟨next,linked,successor,there,fits⟩ := removes
      refine ⟨_,rfl,?_⟩
      intro value tail same
      cases same
      exact ⟨block,next,successor,stored,linked,there,fits⟩
    · rw [if_neg here] at removes ⊢
      obtain ⟨removed,loop,found⟩ := ih removes
      rw [loop]
      refine ⟨_,rfl,?_⟩
      intro value tail same
      obtain ⟨hit,rfl,equal⟩ := Option.map_eq_some_iff.mp same
      cases equal
      exact found _ _ rfl

theorem RemovesNamed.removes (named : RemovesNamed s ptr chain) :
    Removes s.store ptr (fun successor => successor.ptr = ptr ∨ successor.ptr ∉ s.live.map Prod.fst) chain := by
  induction chain with
  | nil => trivial
  | cons node rest ih =>
    obtain ⟨block,stored,named⟩ := named
    refine ⟨block,stored,?_⟩
    by_cases here : ptr = block.ptr
    · rw [if_pos here] at named ⊢
      exact named
    · rw [if_neg here] at named ⊢
      exact ih named

theorem Sound.definite (sound : Sound libc s call) : Definite libc s call := by
  cases call with
  | malloc bytes => exact sound
  | free ptr => exact (RemovesNamed.removes sound).mono fun _ _ => trivial

theorem SetDefined.loop (defined : SetDefined store key chain) (value : Nat) :
    ∃ updated, setLoop store key value chain = some updated := by
  induction chain with
  | nil => exact ⟨_,rfl⟩
  | cons node rest ih =>
    obtain ⟨found,stored,either⟩ := defined
    simp only [setLoop,stored,Option.bind_eq_bind,Option.bind_some]
    by_cases here : key = found
    · rw [if_pos here]; exact ⟨_,rfl⟩
    · obtain ⟨updated,loop⟩ := ih (either.resolve_left here)
      rw [if_neg here,loop]; exact ⟨_,rfl⟩

theorem Passable.loop (passable : Passable store key chain) (value : Nat) : setLoop store key value chain = some none := by
  induction chain with
  | nil => rfl
  | cons node rest ih =>
    obtain ⟨found,stored,different⟩ := passable node List.mem_cons_self
    have later := ih fun other member => passable other (List.mem_cons_of_mem _ member)
    simp [setLoop,stored,different,later]

-- Filing the new block under the next descriptor puts one node in front of a bucket.
theorem updateNext_passable (new : Nat)
    (linked : ∀ next, block.next = some next → Passable store (libc.place next) (getNode map (libc.place next))) :
    ∃ filed, updateNext libc store map block new = some filed ∧ filed.nBuckets = map.nBuckets ∧
      ∀ index, filed.buckets index = map.buckets index ∨
        ∃ next, block.next = some next ∧ filed.buckets index = ⟨new,libc.place next⟩ :: map.buckets index := by
  cases next : block.next with
  | none => exact ⟨map,by simp [updateNext,next],rfl,fun _ => Or.inl rfl⟩
  | some descriptor =>
    have set := hashmapSet_eq ((linked descriptor next).loop new)
    refine ⟨map.put (hashFunc (libc.place descriptor) map.nBuckets)
      (⟨new,libc.place descriptor⟩ :: getNode map (libc.place descriptor)),?_,rfl,?_⟩
    · simp only [updateNext,next,set]
      rfl
    · intro index
      by_cases here : index = hashFunc (libc.place descriptor) map.nBuckets
      · refine Or.inr ⟨descriptor,rfl,?_⟩
        subst index
        simp [getNode]
      · exact Or.inl (by simp [here])

-- The ledger rests on the list: each live allocation is the extent of a block on it.
structure Ledger (s : Session) (cells : List Cell) : Prop where
  listed : ∀ a ∈ s.live, 0 < a.2 ∧ ∃ d, (d,⟨a.1,a.2⟩) ∈ cells
  once : (s.live.map Prod.fst).Nodup

theorem live_apart (wf : WellFormed store heap cells) (one : (d,⟨p,m⟩) ∈ cells) (two : (e,⟨q,k⟩) ∈ cells)
    (different : p ≠ q) : Apart (p,m) (q,k) := by
  refine wf.laid.disjoint one two ?_
  intro same
  simp only [Prod.mk.injEq,Extent.mk.injEq] at same
  exact different same.2.1

theorem Ledger.safe (ledger : Ledger s cells) (layout : Layout s cells) : Safe s := by
  constructor
  · have distinct := List.pairwise_map.mp ledger.once
    refine distinct.imp_of_mem ?_
    intro one two first second different
    obtain ⟨_,d,listed⟩ := ledger.listed one first
    obtain ⟨_,e,also⟩ := ledger.listed two second
    exact live_apart layout.wf listed also different
  · intro a member
    obtain ⟨_,d,listed⟩ := ledger.listed a member
    exact ⟨layout.above _ listed,(layout.wf.laid.inside _ listed).2.2⟩

theorem Ledger.malloc (ledger : Ledger s (before ++ (head,x) :: after)) (positive : 0 < bytes)
    (wf : WellFormed store heap (before ++ (head,x) :: (new,⟨p,bytes⟩) :: after)) (unlisted : new ∉ addresses (before ++ (head,x) :: after))
    (same : t.live = s.live ++ [(p,bytes)]) : Ledger t (before ++ (head,x) :: (new,⟨p,bytes⟩) :: after) := by
  have keeps : ∀ cell, cell ∈ before ++ (head,x) :: after →
      cell ∈ before ++ (head,x) :: (new,⟨p,bytes⟩) :: after := fun _ member => mem_behind.mpr (Or.inr member)
  constructor
  · intro a member
    rw [same] at member
    rcases List.mem_append.mp member with old | fresh
    · obtain ⟨size,d,listed⟩ := ledger.listed a old
      exact ⟨size,d,keeps _ listed⟩
    · cases List.mem_singleton.mp fresh
      exact ⟨positive,new,by simp⟩
  · rw [same,List.map_append]
    refine List.nodup_append.mpr ⟨ledger.once,by simp,?_⟩
    intro q first r second
    cases List.mem_singleton.mp second
    rintro rfl
    obtain ⟨a,member,rfl⟩ := List.mem_map.mp first
    obtain ⟨size,d,listed⟩ := ledger.listed a member
    -- Two positive extents at one address would overlap.
    have different : (d,(⟨a.1,a.2⟩ : Extent)) ≠ (new,⟨a.1,bytes⟩) := by
      intro equal
      cases equal
      exact unlisted (mem_addresses.mpr ⟨_,listed⟩)
    have apart := wf.laid.disjoint (keeps _ listed) (y := (new,⟨a.1,bytes⟩)) (by simp) different
    simp only [Extents.Disjoint,cellStart,cellStop] at apart
    omega

theorem Ledger.free (ledger : Ledger s (before ++ (a,x) :: (b,y) :: after))
    (harmless : y.ptr = ptr ∨ y.ptr ∉ s.live.map Prod.fst) (same : t.live = s.live.filter (·.1 ≠ ptr)) :
    Ledger t (before ++ (a,x) :: after) := by
  constructor
  · intro allocation member
    rw [same] at member
    obtain ⟨old,other⟩ := List.mem_filter.mp member
    obtain ⟨size,d,listed⟩ := ledger.listed allocation old
    rcases mem_behind.mp listed with there | kept
    · cases there
      rcases harmless with named | dead
      · simp only [decide_eq_true_eq] at other
        exact False.elim (other named)
      · exact False.elim (dead (List.mem_map.mpr ⟨allocation,old,rfl⟩))
    · exact ⟨size,d,kept⟩
  · rw [same]
    exact ledger.once.sublist (List.filter_sublist.map _)

theorem malloc_moves (layout : Layout s cells) (sound : Sound libc s (.malloc bytes)) :
    ∃ t, s.call libc (.malloc bytes) = some t := by
  have allocated := layout.wf.allocate libc bytes layout.unlisted
  obtain ⟨before,y,after,split⟩ := mem_split allocated.cursor
  have enough : after.length + before.length < s.made := by
    have bound := layout.length_le
    simp only [split,List.length_append,List.length_cons] at bound
    omega
  have searched := (split ▸ allocated).find_eq bytes enough
  cases search : firstFit bytes (searchOrder s.heap before (s.heap.head,y) after) with
  | none =>
    rw [search] at searched
    exact ⟨_,by simp only [Session.call,heapMalloc_full searched]; rfl⟩
  | some head =>
    rw [search] at searched
    obtain ⟨front,x,back,rfl,room⟩ := findBlock_sound allocated allocated.cursor searched
    have stored := allocated.block_at
    generalize (⟨x.ptr,x.size,back.head?.map Prod.fst⟩ : Block) = block at stored
    obtain ⟨passable,defined⟩ := sound _ searched head rfl block stored
    obtain ⟨filed,update,nBuckets,buckets⟩ := updateNext_passable s.made passable
    -- The node just filed records a block with a successor, so the second walk passes it.
    have walk : SetDefined (insertBlock (allocate libc s.store s.made bytes) head block s.made bytes)
        (blockEnd block) (getNode filed (blockEnd block)) := by
      unfold getNode at defined ⊢
      rw [nBuckets]
      rcases buckets (hashFunc (blockEnd block) s.heap.blockMap.nBuckets) with same | ⟨next,linked,front⟩
      · rw [same]; exact defined
      · obtain ⟨found,keyed⟩ := allocated.insert_key bytes layout.unlisted stored linked
        rw [front]
        exact ⟨found,keyed,Or.inr defined⟩
    obtain ⟨updated,loop⟩ := walk.loop head
    have set := hashmapSet_eq loop
    exact ⟨_,by simp only [Session.call,heapMalloc_placed searched stored update set]; rfl⟩

theorem free_moves (definite : Definite libc s (.free ptr)) : ∃ t, s.call libc (.free ptr) = some t := by
  obtain ⟨removed,loop,found⟩ := Removes.loop definite
  cases removed with
  | none =>
    have absent := hashmapRemove_absent loop
    exact ⟨_,by simp only [Session.call,heapFree_absent absent]; rfl⟩
  | some hit =>
    obtain ⟨block,next,successor,stored,linked,there,_⟩ := found hit.1 hit.2 rfl
    have removed := hashmapRemove_hit loop
    exact ⟨_,by simp only [Session.call,heapFree_found removed stored linked there]; rfl⟩

def Kept (s : Session) : Prop := ∃ cells, Layout s cells ∧ Ledger s cells

theorem call_kept (kept : Kept s) (allowed : Allowed s call) (sound : Sound libc s call)
    (called : s.call libc call = some t) : Kept t := by
  obtain ⟨cells,layout,ledger⟩ := kept
  cases call with
  | malloc bytes =>
    rcases malloc_layout layout called with ⟨live,_,next⟩ | ⟨before,head,x,after,rfl,live,_,next⟩
    · exact ⟨cells,next,⟨by rw [live]; exact ledger.listed,by rw [live]; exact ledger.once⟩⟩
    · exact ⟨_,next,ledger.malloc allowed next.wf layout.unlisted live⟩
  | free ptr =>
    obtain ⟨live,_,next | ⟨before,a,x,b,y,after,rest,rfl,_,loop,next⟩⟩ := free_layout layout called
    · refine ⟨cells,next,⟨?_,?_⟩⟩
      · rw [live]; exact fun a member => ledger.listed a (List.mem_filter.mp member).1
      · rw [live]; exact ledger.once.sublist (List.filter_sublist.map _)
    · obtain ⟨removed,again,found⟩ := (RemovesNamed.removes sound).loop
      rw [loop] at again
      obtain ⟨block,c,successor,stored,linked,there,harmless⟩ := found a rest (Option.some.inj again).symm
      have located := layout.wf.block_at
      have moved : WellFormed s.store s.heap ((before ++ [(a,x)]) ++ (b,y) :: after) := by
        simpa using layout.wf
      rw [located] at stored
      cases stored
      cases linked
      rw [moved.block_at] at there
      cases there
      exact ⟨_,next,ledger.free harmless live⟩

theorem call_moves (layout : Layout s cells) (definite : Definite libc s call) : ∃ t, s.call libc call = some t := by
  cases call with
  | malloc bytes => exact malloc_moves layout definite
  | free ptr => exact free_moves definite

theorem kept_moves (kept : Kept s) (allowed : Allowed s call) (sound : Sound libc s call) :
    ∃ t, s.call libc call = some t ∧ Kept t := by
  obtain ⟨cells,layout,_⟩ := id kept
  obtain ⟨t,called⟩ := call_moves layout sound.definite
  exact ⟨t,called,call_kept kept allowed sound called⟩

theorem start_kept (region : Region) (clean : (libc.prior 0).next = none) : Kept (Session.start libc region) :=
  ⟨_,start_layout region clean,⟨by simp [Session.start],by simp [Session.start]⟩⟩

-- Every run whose calls meet the condition goes through, and no two of its live
-- allocations overlap at any moment (each moment ends a run of its own).
theorem allocations_disjoint (libc : Libc) (region : Region) (clean : (libc.prior 0).next = none)
    (calls : List Call)
    (meets : (sessions libc).Meets (fun s call => Allowed s call ∧ Sound libc s call)
      (Session.start libc region) calls) :
    ∃ s, (sessions libc).run (Session.start libc region) calls = some s ∧ Safe s := by
  have moves : ∀ s call, Kept s → Allowed s call ∧ Sound libc s call →
      ∃ t, (sessions libc).step s call = some t ∧ Kept t := fun _ _ kept sound => kept_moves kept sound.1 sound.2
  have total := Guarded.Machine.run_total moves (start_kept region clean) meets
  obtain ⟨s,ran,cells,layout,ledger⟩ := total
  exact ⟨s,ran,ledger.safe layout⟩

-- A free of the first block, and later a block put in its place before another one, with
-- its descriptor where the freed one was.
theorem allocations_disjoint_reuse :
    ∃ s, (sessions ⟨fun n => 65536 + 32 * (if n = 3 then 1 else n),fun _ => ⟨7,7,none⟩⟩).run
      (Session.start ⟨fun n => 65536 + 32 * (if n = 3 then 1 else n),fun _ => ⟨7,7,none⟩⟩ ⟨4096,64,by decide⟩)
      [.malloc 8,.malloc 8,.free 4096,.malloc 40,.malloc 4] = some s ∧ Safe s :=
  allocations_disjoint _ _ rfl _ (by decide +kernel)

-- Freeing the block in front of one whose address collides with it modulo 1023 frees the
-- other one, whose memory is then handed out a second time.
theorem freed_successor_reallocated :
    ¬ ∀ (libc : Libc) (region : Region) (calls : List Call) (s : Session), (libc.prior 0).next = none →
      (sessions libc).Meets Allowed (Session.start libc region) calls →
      (sessions libc).run (Session.start libc region) calls = some s → Safe s := by
  intro claim
  let libc : Libc := ⟨fun n => 65536 + 32 * n,fun _ => ⟨0,0,none⟩⟩
  let calls : List Call := [.malloc 1023,.malloc 1,.free 4096,.malloc 1]
  let first : Session := Session.start libc ⟨4096,2048,by decide⟩
  have live : ((sessions libc).run first calls).map Session.live = some [(5119,1),(5119,1)] := by decide +kernel
  obtain ⟨s,ran,lives⟩ := Option.map_eq_some_iff.mp live
  have safe := claim _ _ calls s rfl (by decide +kernel) ran
  have apart := safe.disjoint
  rw [lives] at apart
  simp [Apart] at apart

end OpenShmem
