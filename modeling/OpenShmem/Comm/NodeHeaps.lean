import OpenShmem.Comm.SharedMemory
import OpenShmem.Comm.Standstill
import OpenShmem.Comm.Visibility

namespace OpenShmem
open ByteMemory (memcpy replay read)

-- The node that PE `me` of a cluster is on.
structure Cluster.OnNode (cluster : Cluster) (me : Nat) (job : NodeJob) : Prop where
  map : job.localityMap = cluster.localityMap me
  rank : job.localRank = cluster.localRank

-- The heaps of the system are what the node's memory makes of the puts to its PEs.
def Mirrors (cluster : Cluster) (me : Nat) (job : NodeJob) (s : System) (node : NodeMemory) : Prop :=
  ∀ pe < cluster.n, cluster.node me = cluster.node pe → ∀ a < symmetricHeapSize,
    s.heaps pe a = replay (fun _ => 0) (node.putsTo job (job.localRank pe)) a

-- The same on a node that has started up.
structure Mirrored (cluster : Cluster) (me : Nat) (job : NodeJob) (s : System) (node : NodeMemory) : Prop where
  mirrors : Mirrors cluster me job s node
  sound : NodeSound job node
  running : ∀ p < job.n, (node.pes p).stage = .running

def Update.Fits (update : Update) : Prop := update.dest.toNat + update.bytes.length ≤ symmetricHeapSize

variable {cluster : Cluster} {job : NodeJob} {s t : System} {node : NodeMemory} {me pe q : Nat}

theorem Cluster.OnNode.near (on : cluster.OnNode me job) (inside : pe < cluster.n) (near : cluster.node me = cluster.node pe) :
    ∃ entry, job.localityMap pe = some entry ∧ entry.type = .near := by
  obtain ⟨entry,found,type,_⟩ := cluster.map_eq me inside
  exact ⟨entry,by rw [on.map]; exact found,type.mpr near⟩

theorem Cluster.OnNode.ranked (on : cluster.OnNode me job) (wired : cluster.WiredUp) : job.Ranked := by
  intro pe entry found type
  rw [on.map] at found
  have inside := Job.map_inside found
  obtain ⟨again,also,near,_⟩ := cluster.map_eq me inside
  rw [found] at also
  cases also
  obtain ⟨again,also,host,there,name,member,index⟩ := Job.near_index inside (near.mp type)
  rw [found] at also
  cases also
  rw [on.rank]
  exact index.trans (wired.ranked me host there name pe member)

theorem Cluster.OnNode.rank_inside (on : cluster.OnNode me job) (wired : cluster.WiredUp) (inside : pe < cluster.n)
    (near : cluster.node me = cluster.node pe) : job.localRank pe < job.n := by
  obtain ⟨entry,found,type⟩ := on.near inside near
  rw [← on.ranked wired pe entry found type]
  exact job.indexed pe entry found type

theorem Mirrors.congr (mirrors : Mirrors cluster me job s node) (same : t.heaps = s.heaps) : Mirrors cluster me job t node := by
  unfold Mirrors at *
  rw [same]
  exact mirrors

-- A write of the system is a comm_local_put of its actor on the node.
theorem write_mirrored {dest : BitVec 64} {bytes : List UInt8} (wired : cluster.WiredUp) (on : cluster.OnNode me job)
    (mirrored : Mirrored cluster me job s node) (actor : q < cluster.n) (here : cluster.node me = cluster.node q)
    (inside : pe < cluster.n) (near : cluster.node me = cluster.node pe) (fits : dest.toNat + bytes.length ≤ symmetricHeapSize)
    (origin : Nat) : ∃ after, node.step job (.put (job.localRank q) pe dest.toNat bytes) = some after ∧
      Mirrored cluster me job (s.write q origin pe dest bytes) after := by
  have ranked := on.ranked wired
  have rank := on.rank_inside wired actor here
  have running := mirrored.running _ rank
  obtain ⟨entry,found,type⟩ := on.near inside near
  obtain ⟨id,mapped,_,whole,_⟩ := mirrored.sound.slot ranked rank running found type
  have moved : node.step job (.put (job.localRank q) pe dest.toNat bytes) = some (node.copy pe id dest.toNat bytes) := by
    simp [NodeMemory.step,NodeMemory.commLocalPut,rank,running,mapped,whole,fits]
  refine ⟨_,moved,?_,nodeStep_sound mirrored.sound ranked (by trivial) moved,mirrored.running⟩
  intro p there same a below
  have before := mirrored.mirrors p there same a below
  rw [putsTo_copy]
  by_cases target : p = pe
  · subst p
    rw [if_pos rfl,ByteMemory.replay_snoc]
    simp only [System.write,Function.update_self]
    exact ByteMemory.memcpy_congr before
  · have apart : job.localRank pe ≠ job.localRank p := by
      rw [on.rank]
      intro ranks
      exact target (wired.distinct p there pe inside (same.symm.trans near) ranks.symm)
    rw [if_neg apart]
    simp only [System.write,Function.update_of_ne target]
    exact before

-- A step of the system is a comm_local_put on the node, or the node does not see it.
theorem step_mirrored {event : Event} (wired : cluster.WiredUp) (on : cluster.OnNode me job) (mirrored : Mirrored cluster me job s node)
    (moved : s.step cluster event = some t) (fits : ∀ update ∈ t.applied, update.Fits) :
    ∃ puts after, (nodeMemories job).run node puts = some after ∧ Mirrored cluster me job t after := by
  have unseen : (∀ p < cluster.n, cluster.node me = cluster.node p → t.heaps p = s.heaps p) →
      ∃ puts after, (nodeMemories job).run node puts = some after ∧ Mirrored cluster me job t after := by
    intro kept
    refine ⟨[],node,rfl,?_,mirrored.sound,mirrored.running⟩
    intro p there same a below
    rw [kept p there same]
    exact mirrored.mirrors p there same a below
  have actor : event.me < cluster.n := by
    unfold System.step at moved
    split at moved
    · rename_i inside
      exact inside
    · cases moved
  rcases (step_logs moved).2 with ⟨heaps,_⟩ | ⟨update,⟨inside,near⟩,applied,heaps⟩
  · exact unseen fun p _ _ => by rw [heaps]
  · by_cases here : cluster.node me = cluster.node update.heap
    · have whole : update.Fits := fits update (by rw [applied]; exact List.mem_append_right _ List.mem_cons_self)
      obtain ⟨after,put,later⟩ := write_mirrored wired on mirrored actor (here.trans near.symm) inside here whole update.origin
      refine ⟨[.put (job.localRank event.me) update.heap update.dest.toNat update.bytes],after,?_,
        later.mirrors.congr heaps,later.sound,later.running⟩
      exact Guarded.Machine.run_one.trans put
    · refine unseen fun p _ same => ?_
      have other : p ≠ update.heap := by
        rintro rfl
        exact here same
      rw [heaps,Function.update_of_ne other]

-- In every run of the system in which all writes are inside the heaps, the heaps of the PEs
-- on a node are what their comm_local_puts make of the node's shared memory.
theorem run_mirrored {events : List Event} (wired : cluster.WiredUp) (on : cluster.OnNode me job) (sound : NodeSound job node)
    (running : ∀ p < job.n, (node.pes p).stage = .running) (quiet : node.puts = [])
    (ran : (systems cluster).run System.start events = some s) (fits : ∀ update ∈ s.applied, update.Fits) :
    ∃ puts after, (nodeMemories job).run node puts = some after ∧ Mirrored cluster me job s after := by
  have start : Mirrored cluster me job System.start node := by
    refine ⟨?_,sound,running⟩
    intro pe _ _ a _
    unfold NodeMemory.putsTo
    rw [quiet]
    rfl
  have answers : ∀ s node event t, ((∀ update ∈ s.applied, update.Fits) → Mirrored cluster me job s node) →
      (systems cluster).step s event = some t → ∃ puts after, (nodeMemories job).run node puts = some after ∧
        ((∀ update ∈ t.applied, update.Fits) → Mirrored cluster me job t after) := by
    intro s node event t before moved
    by_cases fits : ∀ update ∈ t.applied, update.Fits
    · have early := before fun update member => fits update ((step_logs moved).2.logged.subset member)
      obtain ⟨puts,after,put,later⟩ := step_mirrored wired on early moved fits
      exact ⟨puts,after,put,fun _ => later⟩
    · exact ⟨[],node,rfl,fun all => absurd all fits⟩
  obtain ⟨puts,after,put,later⟩ := Guarded.Machine.run_simulates answers (fun _ => start) ran
  exact ⟨puts,after,put,later fits⟩

-- And a get from a PE on the node reads the same bytes there.
theorem get_mirrored {memory : Nat → UInt8} {src : BitVec 64} (wired : cluster.WiredUp) (on : cluster.OnNode me job)
    (mirrored : Mirrored cluster me job s node) (here : me < cluster.n) (inside : pe < cluster.n)
    (near : cluster.node me = cluster.node pe) (fits : src.toNat + size ≤ symmetricHeapSize) :
    ∃ bytes, node.commLocalGet job (job.localRank me) pe src.toNat size = some bytes ∧
      s.commGet cluster me memory dest src size pe = some (memcpy memory dest bytes) := by
  have ranked := on.ranked wired
  have rank := on.rank_inside wired here rfl
  obtain ⟨entry,found,type⟩ := on.near inside near
  refine ⟨_,(mirrored.sound.shared ranked).reads _ rank (mirrored.running _ rank) pe entry found type src.toNat size fits,?_⟩
  rw [commGet_near wired inside near]
  have same : read (s.heaps pe) src.toNat size = read (replay (fun _ => 0) (node.putsTo job (job.localRank pe))) src.toNat size :=
    read_congr fun a below => mirrored.mirrors pe inside near a (Nat.lt_of_lt_of_le below fits)
  rw [same]

end OpenShmem
