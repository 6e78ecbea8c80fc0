import OpenShmem.Comm.Provenance
import OpenShmem.Memory.Heap

namespace OpenShmem
open ByteMemory (memcpy)

-- comm_local_get copies from the mapped heap of a PE on the node. comm_remote_get has an
-- empty body, so nothing comes from another node. `memory` is the caller's own.
def System.commGet (cluster : Cluster) (s : System) (me : Nat) (memory : Nat → UInt8) (dest : Nat) (src : BitVec 64)
    (size pe : Nat) : Option (Nat → UInt8) := do
  let entry ← cluster.localityMap me pe
  match entry.type with
  | .near => do
    let heap ← cluster.shared me entry.index
    memcpy memory dest (ByteMemory.read (s.heaps heap) src.toNat size)
  | .remote => memory

-- comm_local_offset of an address in the heap that starts at `base`.
def commLocalOffset (base ptr : Nat) : BitVec 64 := BitVec.ofNat 64 (sizeT ((ptr : Int) - base))

-- Every put of anyone to that PE, at any time, is beside this one or is the same write.
def RaceFree (s : System) (issue : Issue) : Prop :=
  ∀ other ∈ s.issued, other.target = issue.target →
    (issue.dest.toNat + issue.size ≤ other.dest.toNat ∨ other.dest.toNat + other.size ≤ issue.dest.toNat) ∨
      (other.dest = issue.dest ∧ other.src = issue.src)

variable {cluster : Cluster} {s t : System} {me pe i j k base offset : Nat} {memory : Nat → UInt8}

theorem commLocalOffset_add (offset : BitVec 64) : commLocalOffset base (base + offset.toNat) = offset := by
  have bound := offset.isLt
  have value : sizeT (((base + offset.toNat : Nat) : Int) - base) = offset.toNat := by
    unfold sizeT
    omega
  unfold commLocalOffset
  rw [value]
  simp

theorem commGet_near (wired : cluster.WiredUp) (inside : pe < cluster.n) (near : cluster.node me = cluster.node pe) (src : BitVec 64) (size : Nat) :
    s.commGet cluster me memory dest src size pe = some (memcpy memory dest (ByteMemory.read (s.heaps pe) src.toNat size)) := by
  obtain ⟨entry,found,type,_⟩ := cluster.map_eq me inside
  unfold System.commGet
  rw [found]
  simp [type.mpr near,shared_eq wired near found]

-- What a put and a race-free heap come to.
theorem Traceable.read {issue : Issue} {bytes : List UInt8} (traceable : Traceable cluster s) (recorded : Recorded cluster s)
    (issued : issue ∈ s.issued) (target : issue.target = j) (source : issue.src = .buffer bytes) (free : RaceFree s issue)
    (applied : ∃ update ∈ s.updates i j, Fulfils issue update.order) :
    ByteMemory.read (s.heaps j) issue.dest.toNat bytes.length = bytes := by
  obtain ⟨update,member,dest,size,given⟩ := applied
  obtain ⟨there,which⟩ := List.mem_filter.mp member
  simp only [decide_eq_true_eq] at which
  have content : bytes = update.bytes := by
    rcases given with caller | buffer
    · rw [source] at caller
      cases caller
    · rw [source] at buffer
      cases buffer
      rfl
  have length : issue.size = bytes.length := size.trans (by rw [content]; rfl)
  rw [recorded.replay j]
  refine ByteMemory.read_replay ?_ ?_
  · refine List.mem_map.mpr ⟨update,List.mem_filter.mpr ⟨there,by simp [which.2]⟩,?_⟩
    simp only [Update.placed,dest,content]
    rfl
  · intro write listed
    obtain ⟨other,among,rfl⟩ := List.mem_map.mp listed
    obtain ⟨put,heap⟩ := List.mem_filter.mp among
    simp only [decide_eq_true_eq] at heap
    rcases traceable.applied other put with ⟨slot,inside,place,four⟩ | ⟨asked,issued',_,same,place,size',source'⟩
    · left
      have range := slot_range inside place four
      have apart := traceable.beside issue issued
      unfold Cluster.Apart at apart
      simp only [ByteMemory.Beside,Update.placed,Update.written] at range ⊢
      omega
    · rcases free asked issued' (same.trans (heap.trans target.symm)) with beside | ⟨samePlace,sameSource⟩
      · left
        rw [place,size'] at beside
        simp only [ByteMemory.Beside,Update.placed,Update.written] at beside ⊢
        omega
      · right
        have bytes' : other.bytes = bytes := by
          rcases source' with caller | buffer
          · rw [sameSource,source] at caller
            cases caller
          · rw [sameSource,source] at buffer
            cases buffer
            rfl
        have dest' : other.dest = issue.dest := place.symm.trans samePlace
        simp only [Update.placed,bytes',dest']

end OpenShmem
