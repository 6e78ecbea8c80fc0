import Mathlib.Data.List.Nodup
import Mathlib.Algebra.Group.Nat.Defs
import Mathlib.Data.List.Perm.Basic
import Mathlib.Logic.Function.Basic

namespace OpenShmem

-- One row of the arguments of comm_node_map_locality: hosts[i] with pes[i].
structure Host where
  hostname : String
  pes : List Nat
deriving DecidableEq, Repr

inductive PeType where
  | near
  | remote
deriving DecidableEq, Repr

-- struct locality_map; `host` is the place of the host in the array of nodes.
structure Locality where
  type : PeType
  index : Nat
  host : Nat
deriving DecidableEq, Repr

abbrev LocalityMap := Nat → Option Locality

def mapPeers (type : PeType) (host : Nat) : List Nat → Nat → Nat → LocalityMap → LocalityMap × Nat
  | [],_,index,map => (map,index)
  | pe :: rest,j,index,map =>
    let entry : Locality := ⟨type,if type = .near then j else index,host⟩
    mapPeers type host rest (j+1) (if type = .near then index else index+1) (Function.update map pe (some entry))

def mapHosts (hostname : String) : List Host → Nat → Nat → LocalityMap → LocalityMap
  | [],_,_,map => map
  | host :: rest,i,index,map =>
    let type := if hostname = host.hostname then PeType.near else .remote
    let (map,index) := mapPeers type i host.pes 0 index map
    mapHosts hostname rest (i+1) index map

def commNodeMapLocality (hostname : String) (hosts : List Host) : LocalityMap :=
  mapHosts hostname hosts 0 0 fun _ => none

-- The PEs of the other hosts, in the order in which they get their indices.
def remotePeers (hostname : String) (hosts : List Host) : List Nat :=
  (hosts.filter fun host => hostname ≠ host.hostname).flatMap Host.pes

variable {type : PeType} {host i j index pe : Nat} {peers : List Nat} {map : LocalityMap} {hosts : List Host}

theorem mapPeers_index : (mapPeers type host peers j index map).2 =
    if type = .near then index else index + peers.length := by
  induction peers generalizing j index map with
  | nil => simp [mapPeers]
  | cons first rest ih =>
    simp only [mapPeers,ih,List.length_cons]
    by_cases near : type = .near
    · simp [near]
    · simp only [if_neg near]
      omega

theorem mapPeers_other (absent : pe ∉ peers) : (mapPeers type host peers j index map).1 pe = map pe := by
  induction peers generalizing j index map with
  | nil => rfl
  | cons first rest ih =>
    simp only [List.mem_cons,not_or] at absent
    simp only [mapPeers]
    rw [ih absent.2]
    exact Function.update_of_ne absent.1 _ _

theorem mapPeers_mem (once : peers.Nodup) (member : pe ∈ peers) :
    (mapPeers type host peers j index map).1 pe =
      some ⟨type,(if type = .near then j else index) + peers.idxOf pe,host⟩ := by
  induction peers generalizing j index map with
  | nil => cases member
  | cons first rest ih =>
    obtain ⟨notRest,once⟩ := List.nodup_cons.mp once
    simp only [mapPeers]
    by_cases here : pe = first
    · subst pe
      rw [mapPeers_other notRest,Function.update_self,List.idxOf_cons_self]
      rfl
    · have later := List.mem_of_ne_of_mem here member
      rw [ih once later,List.idxOf_cons_ne _ (Ne.symm here)]
      by_cases near : type = .near
      · simp only [if_pos near,Nat.succ_eq_add_one]
        congr 2
        omega
      · simp only [if_neg near,Nat.succ_eq_add_one]
        congr 2
        omega

theorem mapHosts_other (absent : ∀ host ∈ hosts, pe ∉ host.pes) :
    mapHosts hostname hosts i index map pe = map pe := by
  induction hosts generalizing i index map with
  | nil => rfl
  | cons first rest ih =>
    simp only [mapHosts]
    rw [ih fun host member => absent host (List.mem_cons_of_mem _ member)]
    exact mapPeers_other (absent first List.mem_cons_self)

-- The entry of a PE, by the host that lists it.
theorem mapHosts_mem (once : (hosts.flatMap Host.pes).Nodup) (listed : h ∈ hosts) (member : pe ∈ h.pes) :
    mapHosts hostname hosts i index map pe = some (if hostname = h.hostname then
      ⟨.near,h.pes.idxOf pe,i + hosts.idxOf h⟩
      else ⟨.remote,index + (remotePeers hostname hosts).idxOf pe,i + hosts.idxOf h⟩) := by
  induction hosts generalizing i index map with
  | nil => cases listed
  | cons first rest ih =>
    simp only [List.flatMap_cons,List.nodup_append] at once
    obtain ⟨onceFirst,onceRest,apart⟩ := once
    simp only [mapHosts]
    by_cases inFirst : pe ∈ first.pes
    · have notRest : ∀ host ∈ rest, pe ∉ host.pes := by
        intro host there also
        exact apart pe inFirst pe (List.mem_flatMap.mpr ⟨host,there,also⟩) rfl
      have same : h = first := by
        rcases List.mem_cons.mp listed with same | later
        · exact same
        · exact False.elim (notRest h later member)
      subst h
      rw [mapHosts_other notRest,mapPeers_mem onceFirst inFirst,List.idxOf_cons_self]
      by_cases near : hostname = first.hostname
      · simp [near]
      · simp [near,remotePeers,List.idxOf_append_of_mem inFirst]
    · have different : first ≠ h := by
        intro same
        subst same
        exact inFirst member
      have later : h ∈ rest := List.mem_of_ne_of_mem (Ne.symm different) listed
      rw [ih onceRest later,List.idxOf_cons_ne _ different,mapPeers_index]
      by_cases near : hostname = h.hostname
      · simp only [if_pos near,Nat.succ_eq_add_one]
        congr 2
        omega
      · have shifted : (remotePeers hostname (first :: rest)).idxOf pe =
            (if hostname = first.hostname then 0 else first.pes.length) + (remotePeers hostname rest).idxOf pe := by
          by_cases firstNear : hostname = first.hostname
          · simp [remotePeers,firstNear]
          · simp only [remotePeers,List.filter_cons,firstNear,ne_eq,not_false_eq_true,decide_true,if_true,
              List.flatMap_cons,if_false]
            exact List.idxOf_append_of_notMem inFirst
        simp only [if_neg near,shifted,Nat.succ_eq_add_one]
        congr 2
        · by_cases firstNear : hostname = first.hostname
          · simp [firstNear]
          · simp only [firstNear,if_false,reduceCtorEq]
            omega
        · omega

-- The PEs 0..n-1 on their nodes. Each PE gets the hosts from the runtime in some order,
-- with some order of the PEs on each. A PE's number is an int. The ports of the servers are
-- no part of it: PORT_BASE + 2*pe + 1 is taken to be below 2^16.
structure Job where
  n : Nat
  small : n ≤ 2^31
  node : Nat → String
  hosts : Nat → List Host
  listed : ∀ me, ((hosts me).flatMap Host.pes).Perm (List.range n)
  placed : ∀ me, ∀ host ∈ hosts me, ∀ pe ∈ host.pes, node pe = host.hostname

namespace Job
variable {job : Job} {me : Nat}

def localityMap (job : Job) (me : Nat) : LocalityMap := commNodeMapLocality (job.node me) (job.hosts me)

def remotes (job : Job) (me : Nat) : List Nat := remotePeers (job.node me) (job.hosts me)

theorem once (job : Job) (me : Nat) : ((job.hosts me).flatMap Host.pes).Nodup :=
  (job.listed me).nodup_iff.mpr List.nodup_range

theorem remotes_nodup (job : Job) (me : Nat) : (job.remotes me).Nodup := by
  obtain ⟨each,apart⟩ := List.nodup_flatMap.mp (job.once me)
  refine List.nodup_flatMap.mpr ⟨?_,apart.sublist List.filter_sublist⟩
  intro host member
  exact each host (List.mem_filter.mp member).1

theorem mem_remotes : pe ∈ job.remotes me ↔ pe < job.n ∧ job.node me ≠ job.node pe := by
  have range : pe < job.n ↔ ∃ host ∈ job.hosts me, pe ∈ host.pes := by
    rw [← List.mem_range,← (job.listed me).mem_iff,List.mem_flatMap]
  rw [range]
  unfold remotes remotePeers
  simp only [List.mem_flatMap,List.mem_filter,decide_eq_true_eq]
  constructor
  · intro ⟨host,⟨there,other⟩,member⟩
    exact ⟨⟨host,there,member⟩,job.placed me host there pe member ▸ other⟩
  · intro ⟨⟨host,there,member⟩,other⟩
    exact ⟨host,⟨there,job.placed me host there pe member ▸ other⟩,member⟩

theorem map_eq (me : Nat) (inside : pe < job.n) : ∃ entry, job.localityMap me pe = some entry ∧
    (entry.type = .near ↔ job.node me = job.node pe) ∧
    (entry.type = .remote → entry.index = (job.remotes me).idxOf pe) := by
  rw [← List.mem_range,← (job.listed me).mem_iff,List.mem_flatMap] at inside
  obtain ⟨host,there,member⟩ := inside
  have found : job.localityMap me pe = _ := mapHosts_mem (job.once me) there member
  rw [← job.placed me host there pe member] at found
  by_cases near : job.node me = job.node pe
  · rw [if_pos near] at found
    exact ⟨_,found,by simp [near],by simp⟩
  · rw [if_neg near,Nat.zero_add] at found
    exact ⟨_,found,by simp [near],fun _ => rfl⟩

theorem near_index (inside : pe < job.n) (near : job.node me = job.node pe) : ∃ entry, job.localityMap me pe = some entry ∧
    ∃ host ∈ job.hosts me, host.hostname = job.node me ∧ pe ∈ host.pes ∧ entry.index = host.pes.idxOf pe := by
  rw [← List.mem_range,← (job.listed me).mem_iff,List.mem_flatMap] at inside
  obtain ⟨host,there,member⟩ := inside
  have name := job.placed me host there pe member
  have found : job.localityMap me pe = _ := mapHosts_mem (job.once me) there member
  rw [if_pos (near.trans name)] at found
  exact ⟨_,found,host,there,(near.trans name).symm,member,rfl⟩

-- A number that is no PE's has no entry.
theorem map_inside (found : job.localityMap me pe = some entry) : pe < job.n := by
  by_contra outside
  have absent : ∀ host ∈ job.hosts me, pe ∉ host.pes := by
    intro host there member
    have listed := List.mem_flatMap.mpr ⟨host,there,member⟩
    rw [(job.listed me).mem_iff,List.mem_range] at listed
    exact outside listed
  have none : job.localityMap me pe = none := mapHosts_other absent
  rw [none] at found
  cases found

theorem index_eq (inside : pe < job.n) (other : job.node me ≠ job.node pe) :
    ∃ entry, job.localityMap me pe = some entry ∧ entry.type = .remote ∧
      entry.index = (job.remotes me).idxOf pe := by
  obtain ⟨entry,found,near,index⟩ := map_eq me inside
  have remote : entry.type = .remote := by
    cases type : entry.type with
    | near => exact False.elim (other (near.mp type))
    | remote => rfl
  exact ⟨entry,found,remote,index remote⟩

end Job

-- Two PEs on two nodes, and one PE alone.
def twoHosts : Job where
  n := 2
  small := by decide
  node pe := if pe = 0 then "a" else "b"
  hosts _ := [⟨"a",[0]⟩,⟨"b",[1]⟩]
  listed _ := by decide
  placed _ := by decide

def oneHost : Job where
  n := 1
  small := by decide
  node _ := "a"
  hosts _ := [⟨"a",[0]⟩]
  listed _ := by decide
  placed _ := by decide

end OpenShmem
