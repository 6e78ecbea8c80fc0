import OpenShmem.Memory.Fresh

namespace OpenShmem
open Linked

-- What heap_malloc and heap_free are owed by heap_init: the list is the dummy block alone,
-- the cursor is on it and the map is empty, so a first heap_malloc has the whole region.
structure Established (libc : Libc) (region : Region) : Prop where
  wf : WellFormed (Session.start libc region).store (Session.start libc region).heap [((Session.start libc region).heap.tail,⟨region.base,0⟩)]
  cursor : (Session.start libc region).heap.head = (Session.start libc region).heap.tail
  empty : ∀ index, (Session.start libc region).heap.blockMap.buckets index = []
  first : ∀ bytes, ∃ t, (Session.start libc region).call libc (.malloc bytes) = some t ∧
    t.results = [if bytes ≤ region.size then some region.base else none]

theorem start_first (region : Region) (clean : (libc.prior 0).next = none) (bytes : Nat) :
    ∃ t, (Session.start libc region).call libc (.malloc bytes) = some t ∧
      t.results = [if bytes ≤ region.size then some region.base else none] := by
  have stacked := start_stacked region clean
  have space : region.base + region.size - region.base = region.size := Nat.add_sub_cancel_left _ _
  by_cases fits : bytes ≤ region.size
  · obtain ⟨t,called,results,_⟩ := stacked.placed libc (space.symm ▸ fits)
    exact ⟨t,called,by rw [results,if_pos fits]; rfl⟩
  · obtain ⟨t,called,results,_⟩ := stacked.full libc (space.symm ▸ fits)
    exact ⟨t,called,by rw [results,if_neg fits]; rfl⟩

-- heap_init sets every field that the calls read but one: the successor of the dummy block
-- is whatever its memory held before.
theorem heapInit_established_iff (libc : Libc) (region : Region) : Established libc region ↔ (libc.prior 0).next = none := by
  constructor
  · intro established
    have alone : WellFormed _ _ ([] ++ (_,⟨region.base,0⟩) :: []) := established.wf
    have stored := alone.block_at
    have written : (Session.start libc region).store 0 = some {libc.prior 0 with ptr := region.base, size := 0} := by
      simp [Session.start,heapInit]
    have same := Option.some.inj (written.symm.trans stored)
    exact congrArg Block.next same
  · intro clean
    exact ⟨(start_layout region clean).wf,rfl,fun _ => rfl,start_first region clean⟩

-- With a dummy block that follows itself, the search finds its one gap empty.
theorem first_malloc_fails : ¬ ∀ (libc : Libc) (region : Region), Established libc region := by
  intro claim
  let libc : Libc := ⟨fun n => 65536 + 32 * n,fun _ => ⟨0,0,some 0⟩⟩
  obtain ⟨t,called,results⟩ := (claim libc ⟨4096,64,by decide⟩).first 8
  have failed : ((Session.start libc ⟨4096,64,by decide⟩).call libc (.malloc 8)).map Session.results = some [none] := by
    decide +kernel
  rw [called] at failed
  have answers : t.results = [none] := Option.some.inj failed
  rw [results] at answers
  exact absurd answers (by decide)

end OpenShmem
