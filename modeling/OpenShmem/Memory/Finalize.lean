import OpenShmem.Memory.Session

namespace OpenShmem
open Linked Extents

-- The loop of heap_finalize, with the descriptors it releases in order. A released one is
-- not read again, so a unit of fuel for each descriptor that was made is enough.
def finalizeLoop : Nat → Store → Option Nat → Option (List Nat × Store)
  | _,store,none => some ([],store)
  | 0,_,some _ => none
  | fuel+1,store,some block => do
    let here ← store block
    let (released,left) ← finalizeLoop fuel (store.release block) here.next
    return (block :: released,left)

-- The heap object itself is released too; the block map is not.
def heapFinalize (made : Nat) (store : Store) (heap : Heap) : Option (List Nat × Store) :=
  finalizeLoop made store (some heap.head)

-- What the loop releases is the chain from the dummy block, each descriptor once.
def ReleasesAll (s : Session) : Prop :=
  ∃ cells released left, Chain (links s.store) (some s.heap.tail) cells ∧
    heapFinalize s.made s.store s.heap = some (released,left) ∧ released.Perm (addresses cells)

variable {libc : Libc} {region : Region} {s : Session} {store left : Store} {first : Option Nat} {cells : List Cell} {released : List Nat}

theorem links_released (other : c ≠ a) : links (store.release a) c = links store c :=
  links_congr (Store.release_other store other)

theorem finalizeLoop_chain (chain : Chain (links store) first cells) (enough : cells.length ≤ fuel) :
    finalizeLoop fuel store first = some (addresses cells,(addresses cells).foldl Store.release store) := by
  induction cells generalizing first store fuel with
  | nil =>
    cases chain
    cases fuel <;> rfl
  | cons cell rest ih =>
    obtain ⟨a,x⟩ := cell
    have once := (List.nodup_cons.mp chain.nodup).1
    obtain ⟨rfl,next,found,behind⟩ := chain.head
    rw [List.length_cons] at enough
    obtain ⟨fuel,rfl⟩ : ∃ less, fuel = less + 1 := ⟨fuel - 1,by omega⟩
    have left : Chain (links (store.release a)) next rest := behind.frame fun c member => links_released (by
      rintro rfl
      exact once member)
    have later := ih left (Nat.le_of_succ_le_succ enough)
    simp only [finalizeLoop,links_eq.mp found,later,Option.bind_eq_bind,Option.bind_some]
    rfl

-- When the loop ends it has gone along a chain.
theorem finalizeLoop_sound (ran : finalizeLoop fuel store first = some (released,left)) :
    ∃ cells, Chain (links store) first cells ∧ released = addresses cells := by
  induction fuel generalizing store first released with
  | zero =>
    cases first with
    | none =>
      cases ran
      exact ⟨[],.nil,rfl⟩
    | some a => cases ran
  | succ fuel ih =>
    cases first with
    | none =>
      cases ran
      exact ⟨[],.nil,rfl⟩
    | some a =>
      obtain ⟨block,stored,ran⟩ := Option.bind_eq_some_iff.mp ran
      obtain ⟨⟨rest,final⟩,later,same⟩ := Option.bind_eq_some_iff.mp ran
      cases same
      obtain ⟨cells,chain,rfl⟩ := ih later
      have apart : ∀ c ∈ addresses cells, c ≠ a := by
        rintro c member rfl
        obtain ⟨x,listed⟩ := mem_addresses.mp member
        obtain ⟨next,found⟩ := chain.look_eq listed
        simp [links] at found
      have behind : Chain (links store) block.next cells := chain.frame fun c member => (links_released (apart c member)).symm
      exact ⟨(a,⟨block.ptr,block.size⟩) :: cells,.cons (links_eq.mpr stored) behind,rfl⟩

theorem Numbered.length_le (numbered : Numbered s) (chain : Chain (links s.store) first cells) : cells.length ≤ s.made := by
  refine length_le_made chain.nodup fun a member => ?_
  obtain ⟨x,listed⟩ := mem_addresses.mp member
  obtain ⟨next,found⟩ := chain.look_eq listed
  refine Nat.lt_of_not_le fun later => ?_
  simp [links,numbered a later] at found

-- The loop starts at the cursor, so it releases the whole chain only with the cursor on the
-- dummy block. The chain ends in every run if heap_init found NULL behind the dummy block.
theorem heapFinalize_releases_iff (ran : (sessions libc).run (Session.start libc region) calls = some s) :
    (ReleasesAll s ↔ (∃ cells, Chain (links s.store) (some s.heap.tail) cells) ∧ s.heap.head = s.heap.tail) ∧
      ((libc.prior 0).next = none → ∃ cells, Chain (links s.store) (some s.heap.tail) cells) := by
  refine ⟨?_,fun clean => ?_⟩
  · constructor
    · intro all
      obtain ⟨cells,released,left,chain,finalized,same⟩ := all
      refine ⟨⟨cells,chain⟩,?_⟩
      obtain ⟨others,along,rfl⟩ := finalizeLoop_sound finalized
      obtain ⟨front,x,back,rfl⟩ := mem_split (same.mem_iff.mpr chain.first_mem)
      have entered := along.enter.unique chain
      have lengths := same.length_eq
      rw [← entered] at lengths
      cases front with
      | nil => exact Option.some.inj along.head.1
      | cons cell front =>
        simp only [addresses,List.length_map,List.length_append,List.length_cons] at lengths
        omega
    · intro atDummy
      obtain ⟨⟨cells,chain⟩,same⟩ := atDummy
      have finalized := finalizeLoop_chain chain ((run_numbered ran).length_le chain)
      exact ⟨cells,_,_,chain,by rw [heapFinalize,same]; exact finalized,List.Perm.refl _⟩
  · obtain ⟨cells,layout⟩ := run_layout clean ran
    exact ⟨cells,layout.wf.chain⟩

-- The one block is freed again, and the cursor with it goes back to the dummy block.
theorem heapFinalize_releases_freed : ∃ s, (sessions ⟨fun n => 65536 + 32 * n,fun _ => ⟨7,7,none⟩⟩).run
    (Session.start ⟨fun n => 65536 + 32 * n,fun _ => ⟨7,7,none⟩⟩ ⟨4096,64,by decide⟩) [.malloc 8,.free 4096] = some s ∧ ReleasesAll s := by
  let libc : Libc := ⟨fun n => 65536 + 32 * n,fun _ => ⟨7,7,none⟩⟩
  let first : Session := Session.start libc ⟨4096,64,by decide⟩
  have cursor : ((sessions libc).run first [.malloc 8,.free 4096]).map (fun s => (s.heap.head,s.heap.tail)) = some (0,0) := by
    decide +kernel
  obtain ⟨s,ran,ends⟩ := Option.map_eq_some_iff.mp cursor
  obtain ⟨releases,chained⟩ := heapFinalize_releases_iff ran
  have same : s.heap.head = s.heap.tail := (congrArg Prod.fst ends).trans (congrArg Prod.snd ends).symm
  exact ⟨s,ran,releases.mpr ⟨chained rfl,same⟩⟩

-- Behind one heap_malloc the dummy block stays.
theorem dummy_not_released : ¬ ∀ (libc : Libc) (region : Region) (calls : List Call) (s : Session), (libc.prior 0).next = none →
    (sessions libc).run (Session.start libc region) calls = some s → ReleasesAll s := by
  intro claim
  let libc : Libc := ⟨fun n => 65536 + 32 * n,fun _ => ⟨7,7,none⟩⟩
  let first : Session := Session.start libc ⟨4096,64,by decide⟩
  have finalized : ((sessions libc).run first [.malloc 8]).map
      (fun s => (s.heap.tail,(heapFinalize s.made s.store s.heap).map Prod.fst)) = some (0,some [1]) := by
    decide +kernel
  obtain ⟨s,ran,ends⟩ := Option.map_eq_some_iff.mp finalized
  obtain ⟨cells,released,left,chain,final,same⟩ := claim _ _ _ s rfl ran
  simp only [Prod.mk.injEq,final,Option.map_some,Option.some.injEq] at ends
  have listed := same.mem_iff.mpr chain.first_mem
  rw [ends.1,ends.2] at listed
  exact absurd listed (by decide)

end OpenShmem
