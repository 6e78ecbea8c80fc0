import OpenShmem.Comm.Placement
import OpenShmem.Library.Fields

namespace OpenShmem
open Fields

-- HOSTNAME_LEN, the terminator included.
def hostnameLen : Nat := 256

-- What gethostname and the PMIx calls of a run answer; none is a status other than
-- PMIX_SUCCESS.
structure Pmix where
  hostname : String
  resolveNodes : Option String
  numNodes : Option Nat
  resolvePeers : String → Option (List Nat)

def comma (x : Char) : Bool := x == ','

-- The loop of rte_hosts. A token behind the last slot, or one that does not fit into its
-- buffer with its terminator, is written out of bounds.
def hostsLoop : Nat → List Char → Option (List String)
  | slots,left =>
    match strtok comma left with
    | none => some []
    | some (token,rest) =>
      match slots with
      | 0 => none
      | slots+1 =>
        if (String.ofList token).utf8ByteSize < hostnameLen then do
          let later ← hostsLoop slots rest
          some (String.ofList token :: later)
        else none

-- rte_hosts. It has a slot for each of rte_n_nodes() nodes; that is -1 on a failure, and
-- malloc has no place for so many. When no hosts are resolved the list is never set, and
-- its caller frees it all the same.
def rteHosts (pmix : Pmix) : Option (List String) := do
  let hoststr ← pmix.resolveNodes
  hostsLoop (pmix.numNodes.getD 0) hoststr.toList

-- rte_local_peers; on a failure the list and its length stay unset, and are read.
def rteLocalPeers (pmix : Pmix) (hostname : String) : Option Host := do
  let pes ← pmix.resolvePeers hostname
  return ⟨hostname,pes⟩

def rteRemotePeers (pmix : Pmix) : Option (List Host) := do
  let hosts ← rteHosts pmix
  hosts.mapM (rteLocalPeers pmix)

-- __shmem_map_locality, on arrays for rte_n_nodes() nodes and n PEs.
def shmemMapLocality (pmix : Pmix) (n : Nat) : Option LocalityMap := do
  let hosts ← rteRemotePeers pmix
  if ∀ host ∈ hosts, ∀ pe ∈ host.pes, pe < n then some (commNodeMapLocality pmix.hostname hosts) else none

-- The rows that the answers stand for.
structure Rows (pmix : Pmix) (n : Nat) (hosts : List Host) : Prop where
  named : ∃ hoststr, pmix.resolveNodes = some hoststr ∧ hosts.map (fun host => host.hostname.toList) = fields comma hoststr.toList
  fit : hosts.length ≤ pmix.numNodes.getD 0
  short : ∀ host ∈ hosts, host.hostname.utf8ByteSize < hostnameLen
  peers : ∀ host ∈ hosts, pmix.resolvePeers host.hostname = some host.pes
  inside : ∀ host ∈ hosts, ∀ pe ∈ host.pes, pe < n

variable {pmix : Pmix} {n slots : Nat} {text : List Char} {names : List String} {hosts : List Host} {map : LocalityMap}

theorem hostsLoop_ended (ended : strtok comma text = none) : hostsLoop slots text = some names ↔ names = [] := by
  unfold hostsLoop
  rw [ended]
  simp [eq_comm]

theorem hostsLoop_over (found : strtok comma text = some hit) : hostsLoop 0 text = none := by
  unfold hostsLoop
  rw [found]

theorem hostsLoop_next (found : strtok comma text = some (token,rest)) : hostsLoop (slots+1) text = some names ↔
    (String.ofList token).utf8ByteSize < hostnameLen ∧ ∃ later, hostsLoop slots rest = some later ∧ names = String.ofList token :: later := by
  conv_lhs => unfold hostsLoop
  rw [found]
  by_cases fits : (String.ofList token).utf8ByteSize < hostnameLen
  · simp only [fits,if_true,true_and,Option.bind_eq_bind,Option.bind_eq_some_iff,Option.some.injEq,eq_comm (a := names)]
  · simp [fits]

-- What the loop lists: the fields, when each has a slot and a buffer that it fits in.
def Lists (slots : Nat) (text : List Char) (names : List String) : Prop :=
  names.map String.toList = fields comma text ∧ names.length ≤ slots ∧ ∀ name ∈ names, name.utf8ByteSize < hostnameLen

theorem lists_ended (ended : strtok comma text = none) : Lists slots text names ↔ names = [] := by
  unfold Lists
  rw [strtok_none ended,List.map_eq_nil_iff]
  constructor
  · exact And.left
  · rintro rfl
    exact ⟨rfl,Nat.zero_le _,by simp⟩

theorem hostsLoop_iff : hostsLoop slots text = some names ↔ Lists slots text names := by
  induction slots generalizing text names with
  | zero =>
    cases found : strtok comma text with
    | none => exact (hostsLoop_ended found).trans (lists_ended found).symm
    | some hit =>
      rw [hostsLoop_over found]
      refine iff_of_false (by simp) fun lists => ?_
      obtain ⟨same,few,_⟩ := lists
      rw [List.eq_nil_of_length_eq_zero (Nat.le_zero.mp few),strtok_some found] at same
      cases same
  | succ slots ih =>
    cases found : strtok comma text with
    | none => exact (hostsLoop_ended found).trans (lists_ended found).symm
    | some hit =>
      obtain ⟨token,rest⟩ := hit
      rw [hostsLoop_next found]
      constructor
      · rintro ⟨fits,later,looped,rfl⟩
        obtain ⟨fields,few,short⟩ := ih.mp looped
        refine ⟨?_,Nat.succ_le_succ few,List.forall_mem_cons.mpr ⟨fits,short⟩⟩
        rw [strtok_some found,List.map_cons,fields,String.toList_ofList]
      · intro ⟨same,few,short⟩
        rw [strtok_some found] at same
        cases names with
        | nil => cases same
        | cons name others =>
          obtain ⟨here,later⟩ := List.cons.inj same
          obtain ⟨fits,behind⟩ := List.forall_mem_cons.mp short
          have back : String.ofList token = name := by rw [← here,String.ofList_toList]
          rw [back]
          exact ⟨fits,others,ih.mpr ⟨later,Nat.le_of_succ_le_succ few,behind⟩,rfl⟩

theorem mapM_rows (hosts : List Host) : names.mapM (rteLocalPeers pmix) = some hosts ↔
    hosts.map Host.hostname = names ∧ ∀ host ∈ hosts, pmix.resolvePeers host.hostname = some host.pes := by
  induction names generalizing hosts with
  | nil =>
    simp only [List.mapM_nil,List.map_eq_nil_iff]
    constructor
    · rintro same
      cases same
      exact ⟨rfl,by simp⟩
    · rintro ⟨rfl,_⟩
      rfl
  | cons name names ih =>
    rw [List.mapM_cons]
    constructor
    · intro ran
      obtain ⟨host,here,ran⟩ := Option.bind_eq_some_iff.mp ran
      obtain ⟨pes,answer,same⟩ := Option.bind_eq_some_iff.mp here
      cases same
      obtain ⟨others,later,same⟩ := Option.bind_eq_some_iff.mp ran
      cases same
      obtain ⟨same,answers⟩ := (ih others).mp later
      exact ⟨by simp [same],List.forall_mem_cons.mpr ⟨answer,answers⟩⟩
    · intro ⟨same,answers⟩
      cases hosts with
      | nil => cases same
      | cons host hosts =>
        obtain ⟨rfl,rest⟩ := List.cons.inj same
        obtain ⟨answer,others⟩ := List.forall_mem_cons.mp answers
        have later := (ih hosts).mpr ⟨rest,others⟩
        simp [rteLocalPeers,answer,later]

theorem shmemMapLocality_iff : shmemMapLocality pmix n = some map ↔
    ∃ hosts, Rows pmix n hosts ∧ map = commNodeMapLocality pmix.hostname hosts := by
  constructor
  · intro ran
    obtain ⟨hosts,peers,ran⟩ := Option.bind_eq_some_iff.mp ran
    obtain ⟨names,listed,resolved⟩ := Option.bind_eq_some_iff.mp peers
    obtain ⟨hoststr,answer,looped⟩ := Option.bind_eq_some_iff.mp listed
    obtain ⟨fields,few,short⟩ := hostsLoop_iff.mp looped
    obtain ⟨rfl,answers⟩ := (mapM_rows hosts).mp resolved
    split at ran
    · rename_i inside
      cases ran
      refine ⟨hosts,⟨⟨hoststr,answer,?_⟩,?_,?_,answers,inside⟩,rfl⟩
      · rw [← fields,List.map_map]
        rfl
      · simpa using few
      · exact fun host member => short _ (List.mem_map_of_mem member)
    · cases ran
  · rintro ⟨hosts,rows,rfl⟩
    obtain ⟨hoststr,answer,fields⟩ := rows.named
    have looped : hostsLoop (pmix.numNodes.getD 0) hoststr.toList = some (hosts.map Host.hostname) := by
      refine hostsLoop_iff.mpr ⟨?_,?_,?_⟩
      · rw [← fields,List.map_map]
        rfl
      · simpa using rows.fit
      · intro name member
        obtain ⟨host,listed,rfl⟩ := List.mem_map.mp member
        exact rows.short host listed
    have resolved : (hosts.map Host.hostname).mapM (rteLocalPeers pmix) = some hosts := (mapM_rows hosts).mpr ⟨rfl,rows.peers⟩
    simp only [shmemMapLocality,rteRemotePeers,rteHosts,answer,looped,resolved,Option.bind_eq_bind,Option.bind_some]
    exact if_pos rows.inside

-- PMIx answers with these rows: their names, none of which a comma splits, joined by commas,
-- the number of nodes, and each one's ranks.
structure Answers (pmix : Pmix) (hosts : List Host) : Prop where
  nodes : pmix.resolveNodes = some (",".intercalate (hosts.map Host.hostname))
  numNodes : pmix.numNodes = some hosts.length
  peers : ∀ host ∈ hosts, pmix.resolvePeers host.hostname = some host.pes
  names : ∀ host ∈ hosts, host.hostname ≠ "" ∧ ',' ∉ host.hostname.toList ∧ host.hostname.utf8ByteSize < hostnameLen

theorem Answers.rows (answers : Answers pmix hosts) (split : (hosts.flatMap Host.pes).Perm (List.range n)) : Rows pmix n hosts := by
  refine ⟨⟨_,answers.nodes,?_⟩,?_,fun host member => (answers.names host member).2.2,answers.peers,?_⟩
  · have clean : ∀ name ∈ hosts.map (fun host => host.hostname.toList), name ≠ [] ∧ ',' ∉ name := by
      intro name member
      obtain ⟨host,listed,rfl⟩ := List.mem_map.mp member
      obtain ⟨some,plain,_⟩ := answers.names host listed
      exact ⟨fun empty => some (String.toList_eq_nil_iff.mp empty),plain⟩
    have joined := fields_join ',' clean
    rw [String.toList_intercalate,List.map_map]
    exact joined.symm
  · rw [answers.numNodes]
    exact Nat.le_refl _
  · intro host listed pe member
    exact List.mem_range.mp (split.mem_iff.mp (List.mem_flatMap.mpr ⟨host,listed,member⟩))

-- __shmem_map_locality is the parse of the host string with the ranks of each field: it is
-- defined just when that parse fits the arrays, and then it is the map of the job.
structure Resolved (pmix : Pmix) (n : Nat) : Prop where
  parses : ∀ map, shmemMapLocality pmix n = some map ↔
    ∃ hosts, Rows pmix n hosts ∧ map = commNodeMapLocality pmix.hostname hosts
  job : ∀ (job : Job) me, job.n = n → pmix.hostname = job.node me → Answers pmix (job.hosts me) →
    shmemMapLocality pmix n = some (job.localityMap me)
  placed : ∀ p : Placement, p.n = n → pmix.hostname = p.hostname → Answers pmix p.hosts →
    shmemMapLocality pmix n = some p.localityMap

theorem locality_resolved (pmix : Pmix) (n : Nat) : Resolved pmix n := by
  refine ⟨fun map => shmemMapLocality_iff,?_,?_⟩
  · rintro job me rfl here answers
    exact shmemMapLocality_iff.mpr ⟨_,answers.rows (job.listed me),by rw [here]; rfl⟩
  · rintro p rfl here answers
    exact shmemMapLocality_iff.mpr ⟨_,answers.rows p.split,by rw [here]; rfl⟩

theorem locality_resolved_scrambled :
    shmemMapLocality ⟨"b",some "c,b,a",some 3,fun name => (Placement.scrambled.hosts.find? (·.hostname = name)).map Host.pes⟩ 5 =
      some Placement.scrambled.localityMap := by
  refine (locality_resolved _ 5).placed Placement.scrambled rfl rfl ⟨?_,rfl,by decide,by decide⟩
  decide

example : hostsLoop 2 ",a,,bc,".toList = some ["a","bc"] := by decide

end OpenShmem
