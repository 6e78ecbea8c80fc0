import OpenShmem.Comm.Visibility

namespace OpenShmem
open ByteMemory (memcpy)

def Issue.Covers (issue : Issue) (address : Nat) : Prop :=
  issue.dest.toNat ≤ address ∧ address < issue.dest.toNat + issue.size

def RemotePut.Covers (put : RemotePut) (address : Nat) : Prop :=
  put.dest.toNat ≤ address ∧ address < put.dest.toNat + put.bytes.length

instance (issue : Issue) (address : Nat) : Decidable (issue.Covers address) := inferInstanceAs (Decidable (_ ∧ _))

-- An address of a heap that is not in __pSync.
def Cluster.Free (cluster : Cluster) (address : Nat) : Prop :=
  address < cluster.pSync ∨ cluster.pSync + 4 * cluster.n ≤ address

-- A shmem_putmem is put at once, so what writes to an address that nothing had been issued
-- for by then is put behind it.
structure Orderly (cluster : Cluster) (s : System) : Prop where
  sized : ∀ issue ∈ s.issued, ∀ bytes, issue.src = .buffer bytes → issue.size = bytes.length
  entered : ∀ issue ∈ s.issued, ∀ bytes, issue.src = .buffer bytes →
    ∃ put ∈ s.puts cluster issue.origin issue.target, put.written = (issue.dest,bytes)
  behind : ∀ before after k address, s.issued = before ++ after → cluster.Free address →
    (∀ issue ∈ before, issue.target = k → ¬ issue.Covers address) →
    ∀ i front put back, s.puts cluster i k = front ++ put :: back → put.Covers address →
    ∀ issue ∈ before, issue.origin = i → issue.target = k → ∀ bytes, issue.src = .buffer bytes →
      ∃ first ∈ front, first.written = (issue.dest,bytes)

-- What a step adds to what was issued and put.
structure Adds (cluster : Cluster) (s t : System) (new : List Issue) : Prop where
  issued : t.issued = s.issued ++ new
  single : new.length ≤ 1
  puts : ∀ i k, ∃ more, t.puts cluster i k = s.puts cluster i k ++ more
  made : ∀ issue ∈ new, ∀ bytes, issue.src = .buffer bytes → issue.size = bytes.length ∧
    ∃ put ∈ t.puts cluster issue.origin issue.target, put.written = (issue.dest,bytes)

variable {cluster : Cluster} {s t : System} {me pe slot i k address : Nat}

theorem Traceable.put (traceable : Traceable cluster s) {put : RemotePut} (member : put ∈ s.puts cluster i k) :
    Traced cluster s.issued i k put.written := by
  unfold System.puts at member
  split at member
  · obtain ⟨update,among,rfl⟩ := List.mem_map.mp member
    obtain ⟨applied,both⟩ := List.mem_filter.mp among
    simp only [decide_eq_true_eq] at both
    have traced := traceable.applied update applied
    rw [both.1,both.2] at traced
    exact traced
  · obtain ⟨entered,both⟩ := List.mem_filter.mp member
    simp only [decide_eq_true_eq] at both
    have traced := traceable.entered put entered
    rw [both.1,both.2] at traced
    exact traced

-- A write beside __pSync was asked for by an issue that covers what it covers.
theorem Traced.issue {issued : List Issue} {written : BitVec 64 × List UInt8} (traced : Traced cluster issued i k written)
    (free : cluster.Free address) (first : written.1.toNat ≤ address) (last : address < written.1.toNat + written.2.length) :
    ∃ issue ∈ issued, issue.origin = i ∧ issue.target = k ∧ issue.Covers address := by
  rcases traced with ⟨slot,inside,dest,size⟩ | ⟨issue,member,origin,target,dest,size,_⟩
  · have range := slot_range inside dest size
    unfold Cluster.Free at free
    omega
  · simp only at dest size
    exact ⟨issue,member,origin,target,by unfold Issue.Covers; rw [dest,size]; exact ⟨first,last⟩⟩

-- A split of a list that grew by one at most is one of the list before, or takes all.
theorem split_grown {α : Type} {old new before after : List α} (grown : old ++ new = before ++ after) (single : new.length ≤ 1)
    (some : after ≠ []) : ∃ rest, old = before ++ rest := by
  rcases List.append_eq_append_iff.mp grown with ⟨more,longer,split⟩ | ⟨rest,shorter,_⟩
  · have empty : more = [] := by
      have positive := List.length_pos_of_ne_nil some
      rw [split,List.length_append] at single
      exact List.eq_nil_of_length_eq_zero (by omega)
    subst empty
    exact ⟨[],by rw [longer]; simp⟩
  · exact ⟨rest,shorter⟩

theorem Orderly.adds (orderly : Orderly cluster s) (adds : Adds cluster s t new) (traceable : Traceable cluster t) :
    Orderly cluster t := by
  obtain ⟨sized,entered,behind⟩ := orderly
  refine ⟨?_,?_,?_⟩
  · intro issue member bytes source
    rw [adds.issued] at member
    rcases List.mem_append.mp member with old | fresh
    · exact sized issue old bytes source
    · exact (adds.made issue fresh bytes source).1
  · intro issue member bytes source
    rw [adds.issued] at member
    rcases List.mem_append.mp member with old | fresh
    · obtain ⟨put,there,written⟩ := entered issue old bytes source
      obtain ⟨more,grown⟩ := adds.puts issue.origin issue.target
      exact ⟨put,by rw [grown]; exact List.mem_append_left _ there,written⟩
    · exact (adds.made issue fresh bytes source).2
  · intro before after k address split free none i front put back puts covers issue member origin target bytes source
    by_cases all : after = []
    · -- every issue is among those that do not cover the address
      exfalso
      have listed : put ∈ t.puts cluster i k := by
        rw [puts]
        exact List.mem_append_right _ List.mem_cons_self
      obtain ⟨asked,issued,_,same,covered⟩ := (traceable.put listed).issue free covers.1 covers.2
      rw [split,all,List.append_nil] at issued
      exact none asked issued same covered
    · rw [adds.issued] at split
      obtain ⟨rest,old⟩ := split_grown split adds.single all
      obtain ⟨more,grown⟩ := adds.puts i k
      have behindAll : ∀ extra, front = s.puts cluster i k ++ extra → ∃ first ∈ front, first.written = (issue.dest,bytes) := by
        intro extra longer
        obtain ⟨first,there,written⟩ := entered issue (by rw [old]; exact List.mem_append_left _ member) bytes source
        rw [origin,target] at there
        exact ⟨first,by rw [longer]; exact List.mem_append_left _ there,written⟩
      rw [grown] at puts
      rcases List.append_eq_append_iff.mp puts with ⟨extra,longer,_⟩ | ⟨tail,shorter,same⟩
      · exact behindAll extra longer
      · cases tail with
        | nil => exact behindAll [] (by rw [shorter]; simp)
        | cons head tail =>
          obtain ⟨rfl,_⟩ := List.cons.inj same
          exact behind before rest k address old free none i front put tail shorter covers issue member origin target bytes source

theorem Adds.quiet (issued : t.issued = s.issued) (puts : ∀ i k, ∃ more, t.puts cluster i k = s.puts cluster i k ++ more) :
    Adds cluster s t [] :=
  ⟨by rw [issued,List.append_nil],Nat.zero_le _,puts,fun _ member => by cases member⟩

theorem commPut_adds (wired : cluster.WiredUp) (ran : s.commPut cluster me me dest src pe prior = some t) : Adds cluster s t [] :=
  .quiet (commPut_quiet wired ran).1 fun _ _ => ⟨_,puts_commPut wired ran⟩

theorem step_adds (piped : Piped cluster s) (reliable : Reliable cluster s event) (found : PayloadFound event)
    (moved : s.step cluster event = some t) : ∃ new, Adds cluster s t new := by
  have same : ∀ u : System, u.issued = s.issued → u.entered = s.entered → u.applied = s.applied → ∃ new, Adds cluster s u new := by
    intro u issued entered applied
    refine ⟨[],.quiet issued fun i k => ⟨[],?_⟩⟩
    simp only [System.puts,System.updates,System.calls,entered,applied,List.append_nil]
  unfold System.step at moved
  split at moved
  · rename_i inside
    cases event with
    | put me dest src pe prior =>
      simp only [System.move] at moved
      split at moved
      · have puts := fun i k => puts_commPut (i := i) (k := k) piped.wired moved
        refine ⟨_,(commPut_quiet piped.wired moved).1,Nat.le_refl 1,fun i k => ⟨_,puts i k⟩,?_⟩
        intro issue member bytes source
        cases List.mem_singleton.mp member
        cases source
        refine ⟨rfl,⟨me,pe,dest,src.bytes,(s.pes me).calls⟩,?_,rfl⟩
        rw [puts,if_pos ⟨rfl,rfl⟩]
        exact List.mem_append_right _ (List.mem_singleton.mpr rfl)
      · cases moved
    | putNbi me dest size pe =>
      simp only [System.move] at moved
      split at moved
      · cases moved
        refine ⟨_,rfl,Nat.le_refl 1,fun _ _ => ⟨[],(List.append_nil _).symm⟩,?_⟩
        intro issue member bytes source
        cases List.mem_singleton.mp member
        cases source
      · cases moved
    | sync me prior =>
      obtain ⟨⟨pc,effect⟩,_,performed⟩ := Option.bind_eq_some_iff.mp moved
      cases effect with
      | signal pe slot =>
        obtain ⟨issued,_,puts,_⟩ := commPut_adds piped.wired performed
        exact ⟨[],.quiet (issued.trans (List.append_nil _)) puts⟩
      | zero slot =>
        cases performed
        exact ⟨[],.quiet rfl fun _ _ => ⟨_,puts_write rfl _ _⟩⟩
      | _ =>
        cases performed
        exact same _ rfl rfl rfl
    | dequeue me =>
      simp only [System.move] at moved
      split at moved
      · cases moved
        exact same _ rfl rfl rfl
      · cases moved
    | execute me contents prior =>
      obtain ⟨job,busy,ran⟩ := Option.bind_eq_some_iff.mp moved
      rcases execute_cases piped inside busy ran with ⟨_,_,_,put⟩ | ⟨_,_,peers,_,rfl⟩
      · obtain ⟨issued,_,puts,_⟩ := commPut_adds piped.wired put
        exact ⟨[],.quiet (issued.trans (List.append_nil _)) puts⟩
      · exact ⟨[],.quiet rfl fun _ _ => ⟨[],(puts_apply peers _ _).trans (List.append_nil _).symm⟩⟩
    | send me result =>
      have here : me < cluster.n := inside
      obtain ⟨_,_,_,_,_,_,_,rfl⟩ := send_cases piped here reliable moved
      exact same _ rfl rfl rfl
    | receive me index reads =>
      have here : me < cluster.n := inside
      obtain ⟨peer,_,peers,taken⟩ := receive_cases here reliable found moved
      obtain ⟨packets,streams,_,_⟩ := piped.flow peer me peers
      rcases taken packets streams with rfl | ⟨_,_,_,rfl⟩
      · exact same _ rfl rfl rfl
      · exact same _ rfl rfl rfl
  · cases moved

-- The updates of i in k's heap come in the order of the puts: what is put in front of an
-- update's put has been written.
theorem Piped.front (piped : Piped cluster s) {update : Update} (member : update ∈ s.updates i k) (insideI : i < cluster.n)
    (insideK : k < cluster.n) : ∃ front put back, s.puts cluster i k = front ++ put :: back ∧ put.written = update.written ∧
      ∀ first ∈ front, ∃ earlier ∈ s.updates i k, earlier.written = first.written := by
  obtain ⟨before,after,split⟩ := List.append_of_mem member
  by_cases near : cluster.node i = cluster.node k
  · refine ⟨before.map Update.put,update.put,after.map Update.put,?_,rfl,?_⟩
    · unfold System.puts
      rw [if_pos near,split,List.map_append,List.map_cons]
    · intro first there
      obtain ⟨earlier,among,rfl⟩ := List.mem_map.mp there
      exact ⟨earlier,by rw [split]; exact List.mem_append_left _ among,rfl⟩
  · obtain ⟨packets,_,_,ordered⟩ := piped.flow i k ⟨insideI,insideK,near⟩
    rw [split,List.map_append,List.map_cons,List.append_assoc] at ordered
    obtain ⟨front,others,whole,same,rest⟩ := List.map_eq_append_iff.mp ordered
    obtain ⟨put,back,rfl,written,_⟩ := List.map_eq_cons_iff.mp rest
    refine ⟨front,put,back,?_,written,?_⟩
    · unfold System.puts
      rw [if_neg near,whole]
    · intro first there
      have listed : first.written ∈ before.map Update.written := by
        rw [← same]
        exact List.mem_map_of_mem there
      obtain ⟨earlier,among,also⟩ := List.mem_map.mp listed
      exact ⟨earlier,by rw [split]; exact List.mem_append_left _ among,also⟩

-- A byte that changed was written by an update that covers it.
theorem Recorded.changed (recorded : Recorded cluster s) (changed : s.heaps k address ≠ System.start.heaps k address) :
    ∃ update ∈ s.applied, update.heap = k ∧ update.put.Covers address := by
  by_contra none
  refine changed ?_
  rw [recorded.replay k]
  refine ByteMemory.replay_outside ?_
  intro write member
  obtain ⟨update,among,rfl⟩ := List.mem_map.mp member
  obtain ⟨applied,target⟩ := List.mem_filter.mp among
  by_contra inside
  refine none ⟨update,applied,by simpa using target,?_⟩
  simp only [Update.placed,RemotePut.Covers,Update.put] at inside ⊢
  omega

structure Ordered (cluster : Cluster) (s : System) : Prop where
  accountable : Accountable cluster s
  orderly : Orderly cluster s

theorem step_ordered (ordered : Ordered cluster s) (reliable : Reliable cluster s event) (found : PayloadFound event)
    (beside : Beside cluster event) (moved : s.step cluster event = some t) : Ordered cluster t := by
  obtain ⟨⟨signalled,traceable⟩,orderly⟩ := ordered
  have after := step_traceable signalled traceable reliable found beside moved
  obtain ⟨new,adds⟩ := step_adds signalled.toPiped reliable found moved
  exact ⟨⟨step_signalled signalled reliable found beside moved,after⟩,orderly.adds adds after⟩

theorem start_ordered (wired : cluster.WiredUp) : Ordered cluster System.start := by
  refine ⟨⟨(start_completing wired).signalled,start_traceable cluster⟩,?_,?_,?_⟩
  · intro issue member
    cases member
  · intro issue member
    cases member
  · intro before after k address split free none i front put back puts
    simp [System.puts,System.updates,System.calls,System.start] at puts

end OpenShmem
