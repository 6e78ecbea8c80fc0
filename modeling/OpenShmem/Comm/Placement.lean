import OpenShmem.Comm.Locality

namespace OpenShmem

-- What comm_node_map_locality is called with: distinct hosts, the current one among them,
-- and the PEs 0..n-1 split over their peer lists in any order. It compares whole names;
-- those from the runtime are shorter than HOSTNAME_LEN.
structure Placement where
  n : Nat
  hostname : String
  hosts : List Host
  distinct : (hosts.map Host.hostname).Nodup
  current : hostname ∈ hosts.map Host.hostname
  split : (hosts.flatMap Host.pes).Perm (List.range n)

namespace Placement
variable {p : Placement} {type : PeType} {pe : Nat} {h : Host}

def localityMap (p : Placement) : LocalityMap := commNodeMapLocality p.hostname p.hosts

def peers (p : Placement) : PeType → List Nat
  | .near => (p.hosts.filter fun host => p.hostname = host.hostname).flatMap Host.pes
  | .remote => remotePeers p.hostname p.hosts

def nLocal (p : Placement) : Nat := (p.peers .near).length

-- The sizes of the arrays: n_local_pes entries of __shared_memory, and n_pes-n_local_pes
-- sockets and request counters.
def slots (p : Placement) : PeType → Nat
  | .near => p.nLocal
  | .remote => p.n - p.nLocal

structure Bijective (p : Placement) (map : LocalityMap) : Prop where
  own : ∀ pe < p.n, ∃ host ∈ p.hosts, pe ∈ host.pes ∧ ∃ entry, map pe = some entry ∧
    p.hosts[entry.host]? = some host ∧ (entry.type = .near ↔ host.hostname = p.hostname) ∧
    (entry.type = .near → host.pes[entry.index]? = some pe)
  inside : ∀ pe entry, map pe = some entry → entry.index < p.slots entry.type
  apart : ∀ a b one two, map a = some one → map b = some two → one.type = two.type →
    one.index = two.index → a = b
  onto : ∀ type, ∀ k < p.slots type, ∃ pe < p.n, ∃ entry, map pe = some entry ∧ entry.type = type ∧ entry.index = k

theorem once (p : Placement) : (p.hosts.flatMap Host.pes).Nodup := p.split.nodup_iff.mpr List.nodup_range

theorem mem_host (inside : pe < p.n) : ∃ host ∈ p.hosts, pe ∈ host.pes := by
  have listed := p.split.mem_iff.mpr (List.mem_range.mpr inside)
  exact List.mem_flatMap.mp listed

-- The hosts' names are distinct, so the current host is the only one of its name.
theorem near_eq (listed : h ∈ p.hosts) (same : p.hostname = h.hostname) : p.peers .near = h.pes := by
  obtain ⟨before,after,split⟩ := List.append_of_mem listed
  have distinct := p.distinct
  simp only [split,List.map_append,List.map_cons,List.nodup_append,List.nodup_cons] at distinct
  obtain ⟨_,⟨notAfter,_⟩,apart⟩ := distinct
  have none : ∀ host, host ∈ before ∨ host ∈ after → ¬ p.hostname = host.hostname := by
    intro host there equal
    have name : host.hostname = h.hostname := equal.symm.trans same
    rcases there with first | later
    · exact apart _ (List.mem_map_of_mem first) _ List.mem_cons_self name
    · exact notAfter (name ▸ List.mem_map_of_mem later)
  have front : before.filter (fun host => p.hostname = host.hostname) = [] :=
    List.filter_eq_nil_iff.mpr fun host first => by simpa using none host (Or.inl first)
  have back : after.filter (fun host => p.hostname = host.hostname) = [] :=
    List.filter_eq_nil_iff.mpr fun host later => by simpa using none host (Or.inr later)
  have here : decide (p.hostname = h.hostname) = true := decide_eq_true same
  simp only [peers,split,List.filter_append,List.filter_cons,front,back,here,if_true,List.nil_append,
    List.flatMap_cons,List.flatMap_nil,List.append_nil]

theorem peers_perm (p : Placement) : (p.peers .near ++ p.peers .remote).Perm (List.range p.n) := by
  have halves := (List.filter_append_perm (fun host => decide (p.hostname = host.hostname)) p.hosts).flatMap_right Host.pes
  simp only [List.flatMap_append] at halves
  refine List.Perm.trans ?_ (halves.trans p.split)
  simp [peers,remotePeers]

theorem peers_nodup (p : Placement) (type : PeType) : (p.peers type).Nodup := by
  have nodup := p.peers_perm.nodup_iff.mpr List.nodup_range
  rw [List.nodup_append] at nodup
  cases type with
  | near => exact nodup.1
  | remote => exact nodup.2.1

theorem mem_peers_lt (member : pe ∈ p.peers type) : pe < p.n := by
  refine List.mem_range.mp (p.peers_perm.mem_iff.mp ?_)
  cases type with
  | near => exact List.mem_append_left _ member
  | remote => exact List.mem_append_right _ member

theorem length_peers (p : Placement) (type : PeType) : (p.peers type).length = p.slots type := by
  cases type with
  | near => rfl
  | remote =>
    have total := p.peers_perm.length_eq
    rw [List.length_append,List.length_range] at total
    simp only [slots,nLocal]
    omega

-- The entry of a PE is its position among the PEs of its kind.
theorem entry_eq (listed : h ∈ p.hosts) (member : pe ∈ h.pes) : ∃ entry, p.localityMap pe = some entry ∧
    entry.host = p.hosts.idxOf h ∧ (entry.type = .near ↔ h.hostname = p.hostname) ∧
    pe ∈ p.peers entry.type ∧ entry.index = (p.peers entry.type).idxOf pe := by
  have found : p.localityMap pe = _ := mapHosts_mem p.once listed member
  by_cases near : p.hostname = h.hostname
  · rw [if_pos near,Nat.zero_add] at found
    have mine := near_eq listed near
    exact ⟨_,found,rfl,by simp [near],by rw [mine]; exact member,by rw [mine]⟩
  · rw [if_neg near,Nat.zero_add,Nat.zero_add] at found
    refine ⟨_,found,rfl,by simp [Ne.symm near],?_,rfl⟩
    exact List.mem_flatMap.mpr ⟨h,List.mem_filter.mpr ⟨listed,by simpa using near⟩,member⟩

theorem entry_inside (found : p.localityMap pe = some entry) : pe < p.n := by
  by_contra outside
  have absent : ∀ host ∈ p.hosts, pe ∉ host.pes := by
    intro host there member
    have listed := p.split.mem_iff.mp (List.mem_flatMap.mpr ⟨host,there,member⟩)
    exact outside (List.mem_range.mp listed)
  have none : p.localityMap pe = none := mapHosts_other absent
  rw [none] at found
  cases found

theorem entry_index (found : p.localityMap pe = some entry) :
    pe ∈ p.peers entry.type ∧ entry.index = (p.peers entry.type).idxOf pe := by
  obtain ⟨host,there,member⟩ := mem_host (entry_inside found)
  obtain ⟨again,also,_,_,rest⟩ := entry_eq there member
  rw [found] at also
  cases also
  exact rest

-- A PE is among the near ones or among the remote ones, not both.
theorem entry_type (member : pe ∈ p.peers type) (found : p.localityMap pe = some entry) : entry.type = type := by
  have nodup := p.peers_perm.nodup_iff.mpr List.nodup_range
  obtain ⟨_,_,apart⟩ := List.nodup_append.mp nodup
  have mine := (entry_index found).1
  cases kind : entry.type with
  | near =>
    cases type with
    | near => rfl
    | remote => exact False.elim (apart pe (kind ▸ mine) pe member rfl)
  | remote =>
    cases type with
    | near => exact False.elim (apart pe member pe (kind ▸ mine) rfl)
    | remote => rfl

theorem locality_bijective (p : Placement) : p.Bijective p.localityMap := by
  refine ⟨?_,?_,?_,?_⟩
  · intro pe inside
    obtain ⟨host,there,member⟩ := mem_host inside
    obtain ⟨entry,found,place,near,_,index⟩ := entry_eq there member
    refine ⟨host,there,member,entry,found,?_,near,?_⟩
    · rw [place]
      exact List.getElem?_idxOf there
    · intro type
      rw [index,type,near_eq there (near.mp type).symm]
      exact List.getElem?_idxOf member
  · intro pe entry found
    obtain ⟨member,index⟩ := entry_index found
    rw [index,← p.length_peers]
    exact List.idxOf_lt_length_of_mem member
  · intro a b one two first second kind index
    obtain ⟨member,place⟩ := entry_index first
    obtain ⟨_,place'⟩ := entry_index second
    rw [place,place',← kind] at index
    exact (List.idxOf_inj member).mp index
  · intro type k below
    rw [← p.length_peers] at below
    have member := List.getElem_mem below
    have inside := mem_peers_lt member
    obtain ⟨host,there,listed⟩ := mem_host inside
    obtain ⟨entry,found,_,_,_,index⟩ := entry_eq there listed
    have kind := entry_type member found
    refine ⟨_,inside,entry,found,kind,?_⟩
    rw [index,kind]
    exact (p.peers_nodup type).idxOf_getElem k below

-- The current host is not the first, and no host lists its PEs in order.
def scrambled : Placement where
  n := 5
  hostname := "b"
  hosts := [⟨"c",[4,0]⟩,⟨"b",[3,1]⟩,⟨"a",[2]⟩]
  distinct := by decide
  current := by decide
  split := by decide

theorem locality_bijective_scrambled : scrambled.Bijective scrambled.localityMap ∧
    (List.range 5).map scrambled.localityMap = [some ⟨.remote,1,0⟩,some ⟨.near,1,1⟩,some ⟨.remote,2,2⟩,some ⟨.near,0,1⟩,
      some ⟨.remote,0,0⟩] :=
  ⟨locality_bijective scrambled,by decide⟩

end Placement
end OpenShmem
