import OpenShmem.Memory.Coherence

namespace OpenShmem
open Linked

variable {store store' : Store} {map filed blockMap : Hashmap} {first : Option Nat} {front back cells : List Cell}
  {a n : Nat} {x w y z : Extent}

-- A list and the same list with one more block behind `a`, in the stores before and after.
structure Inserted (store store' : Store) (first : Option Nat) (front : List Cell) (a : Nat) (x : Extent) (n : Nat)
    (w : Extent) (back : List Cell) : Prop where
  old : Chain (links store) first (front ++ (a,x) :: back)
  new : Chain (links store') first (front ++ (a,x) :: (n,w) :: back)

namespace Inserted

theorem here (ins : Inserted store store' first front a x n w back) (follows : Follows (front ++ (a,x) :: (n,w) :: back) a b y) :
    b = n ∧ y = w := by
  rw [follows_at ins.new.nodup] at follows
  cases follows
  exact ⟨rfl,rfl⟩

theorem key_here (ins : Inserted store store' first front a x n w back) : implicitKey store' a = some w.ptr :=
  key_eq ins.new ⟨front,x,back,rfl⟩

-- The block behind the new one was behind `a`.
theorem moved (ins : Inserted store store' first front a x n w back) :
    Follows (front ++ (a,x) :: (n,w) :: back) n b y ↔ Follows (front ++ (a,x) :: back) a b y := by
  have once := ins.new.nodup
  have long : front ++ (a,x) :: (n,w) :: back = (front ++ [(a,x)]) ++ (n,w) :: back := by simp
  rw [follows_at ins.old.nodup]
  rw [long] at once ⊢
  rw [follows_at once]

theorem unfiled (ins : Inserted store store' first front a x n w back) (coherent : Coherent map (front ++ (a,x) :: back))
    (member : node ∈ map.buckets i) : node.value ≠ n := by
  intro same
  obtain ⟨b,y,follows,_⟩ := coherent.only i node member
  exact not_mem_removed ins.new.nodup (same ▸ follows.mem.1)

theorem untallied (ins : Inserted store store' first front a x n w back) (coherent : Coherent map (front ++ (a,x) :: back)) (i : Nat) :
    map.tally i n = 0 := by
  refine Nat.eq_zero_of_not_pos fun positive => ?_
  obtain ⟨node,member,same⟩ := tally_pos.mp positive
  exact ins.unfiled coherent member same

theorem apart (ins : Inserted store store' first front a x n w back) : a ≠ n := by
  rintro rfl
  exact not_mem_removed ins.new.nodup (by simp)

theorem follows_iff (ins : Inserted store store' first front a x n w back) (notHere : v ≠ a) (notNew : v ≠ n) :
    Follows (front ++ (a,x) :: (n,w) :: back) v b y ↔ Follows (front ++ (a,x) :: back) v b y :=
  follows_other ins.new.nodup notHere notNew

theorem same_key (ins : Inserted store store' first front a x n w back) (coherent : Coherent map (front ++ (a,x) :: back))
    (member : node ∈ map.buckets i) (notHere : node.value ≠ a) :
    implicitKey store' node.value = implicitKey store node.value := by
  obtain ⟨b,y,follows,_⟩ := coherent.only i node member
  rw [key_eq ins.old follows]
  exact key_eq ins.new ((ins.follows_iff notHere (ins.unfiled coherent member)).mpr follows)

theorem keyed (ins : Inserted store store' first front a x n w back) (coherent : Coherent map (front ++ (a,x) :: back))
    (member : node ∈ map.buckets i) : ∃ found, implicitKey store' node.value = some found := by
  by_cases here : node.value = a
  · exact ⟨w.ptr,by rw [here]; exact ins.key_here⟩
  · rw [ins.same_key coherent member here]
    exact coherent.key ins.old member

-- A node that lost its value to another block is missing afterwards.
theorem lost (ins : Inserted store store' first front a x n w back) (coherent : Coherent map (front ++ (a,x) :: back))
    (member : node ∈ map.buckets i) (notHere : node.value ≠ a) (gone : blockMap.tally i node.value = 0)
    (size : blockMap.nBuckets = map.nBuckets) : ¬ Coherent blockMap (front ++ (a,x) :: (n,w) :: back) := by
  intro final
  obtain ⟨b,y,follows,place⟩ := coherent.only i node member
  have one := final.once _ b y ((ins.follows_iff notHere (ins.unfiled coherent member)).mpr follows)
  rw [size,place,gone] at one
  cases one

theorem get_none_iff (ins : Inserted store store' first front a x n w back) (coherent : Coherent map (front ++ (a,x) :: back))
    (key : Nat) : hashmapGet store map key = some none ↔ ∀ node ∈ getNode map key, implicitKey store node.value ≠ some key :=
  hashmapGet_none_iff fun _ member => coherent.key ins.old member

-- Behind the last block: one new node, unless a block is filed at the new address.
theorem append (ins : Inserted store store' first front a x n w []) (coherent : Coherent map (front ++ [(a,x)])) :
    ∃ blockMap, hashmapSet store' map w.ptr a = some blockMap ∧
      (Coherent blockMap (front ++ [(a,x),(n,w)]) ↔ hashmapGet store map w.ptr = some none) := by
  have last : ∀ b y, ¬ Follows (front ++ [(a,x)]) a b y := by
    intro b y follows
    rw [follows_at ins.old.nodup] at follows
    cases follows
  have notHere : ∀ i, ∀ node ∈ map.buckets i, node.value ≠ a := by
    intro i node member same
    obtain ⟨b,y,follows,_⟩ := coherent.only i node member
    exact last b y (same ▸ follows)
  have keys := ins.get_none_iff coherent w.ptr
  rcases hashmapSet_spec (fun node member => ins.keyed coherent member) a with
    ⟨passed,set⟩ | ⟨before,node,after,split,passed,here,set⟩
  · refine ⟨_,set,fun _ => keys.mpr ?_,fun _ => ⟨?_,?_⟩⟩
    · intro node member same
      obtain ⟨found,keyed,different⟩ := passed node member
      rw [ins.same_key coherent member (notHere _ node member),same] at keyed
      exact different (Option.some.inj keyed)
    · intro v b y follows
      rw [show getNode map w.ptr = map.buckets _ from rfl,tally_front,Hashmap.put_nBuckets]
      by_cases here : v = a
      · subst v
        obtain ⟨rfl,rfl⟩ := ins.here follows
        have none : map.tally (hashFunc y.ptr map.nBuckets) a = 0 := coherent.tally_zero fun b y follows => absurd follows (last b y)
        simp [none]
      · have notNew : v ≠ n := by
          rintro rfl
          have none := ins.moved.mp follows
          exact last b y none
        simp [here,coherent.once v b y ((ins.follows_iff here notNew).mp follows)]
    · intro i node member
      by_cases here : node.value = a
      · refine ⟨n,w,here ▸ ⟨front,x,[],rfl⟩,?_⟩
        by_cases place : i = hashFunc w.ptr map.nBuckets
        · exact place.symm
        · rw [Hashmap.put_other _ place] at member
          exact absurd here (notHere i node member)
      · have old : node ∈ map.buckets i := by
          by_cases place : i = hashFunc w.ptr map.nBuckets
          · subst i
            rw [Hashmap.put_same] at member
            rcases List.mem_cons.mp member with rfl | old
            · exact absurd rfl here
            · exact old
          · rwa [Hashmap.put_other _ place] at member
        obtain ⟨b,y,follows,place⟩ := coherent.only i node old
        exact ⟨b,y,(ins.follows_iff here (ins.unfiled coherent old)).mpr follows,place⟩
  · have member : node ∈ getNode map w.ptr := by rw [split]; simp
    have other := notHere _ node member
    refine ⟨_,set,fun final => False.elim ?_,fun none => ?_⟩
    · exact absurd final (ins.lost coherent member other (tally_gone (tally_one coherent member) split other) rfl)
    · rw [ins.same_key coherent member other] at here
      exact absurd here (keys.mp none node member)

-- Before a block `b`: the first hashmap_set is done and gave `filed`. No node of `filed`
-- is keyed by the new address but that of `a`, or those of empty blocks there.
structure Refiled (store' : Store) (map filed : Hashmap) (n : Nat) (z : Extent) : Prop where
  size : filed.nBuckets = map.nBuckets
  mem : ∀ i, ∀ node ∈ filed.buckets i, node.value = n ∨ node ∈ map.buckets i
  key : implicitKey store' n = some z.ptr

theorem Refiled.keyed (refiled : Refiled store' map filed n z) (ins : Inserted store store' first front a x n w back)
    (coherent : Coherent map (front ++ (a,x) :: back)) (member : node ∈ filed.buckets i) :
    ∃ found, implicitKey store' node.value = some found := by
  rcases refiled.mem i node member with new | old
  · exact ⟨z.ptr,by rw [new]; exact refiled.key⟩
  · exact ins.keyed coherent old

-- What hashmap_set finds at the new address is not the new block's own node.
theorem Refiled.found (refiled : Refiled store' map filed n z) (beyond : w.ptr ≠ z.ptr) (member : node ∈ filed.buckets i)
    (here : implicitKey store' node.value = some w.ptr) : node ∈ map.buckets i := by
  rcases refiled.mem i node member with new | old
  · rw [new,refiled.key] at here
    exact absurd (Option.some.inj here).symm beyond
  · exact old

-- The node of `a` is in the bucket of the key, and not behind a node of that key.
def Leads (store : Store) (map : Hashmap) (key a : Nat) : Prop :=
  ∃ front node back, getNode map key = front ++ node :: back ∧ node.value = a ∧
    ∀ other ∈ front, implicitKey store other.value ≠ some key

-- The map of the second hashmap_set is coherent, and leads from the address `key` to the new block.
def Files (store' : Store) (blockMap : Hashmap) (cells : List Cell) (n key : Nat) : Prop :=
  Coherent blockMap cells ∧ hashmapGet store' blockMap key = some (some n)

theorem front_refiled (ins : Inserted store store' first front a x n w ((b,z) :: back)) (k : Nat) :
    Refiled store' map (map.put (hashFunc k map.nBuckets) (⟨n,k⟩ :: getNode map k)) n z := by
  refine ⟨rfl,?_,key_eq ins.new (ins.moved.mpr ⟨front,x,back,rfl⟩)⟩
  intro i node member
  exact (mem_front member).imp_left fun both => by rw [both.2]

theorem front_kept (member : node ∈ map.buckets i) :
    node ∈ (map.put j (⟨n,k⟩ :: map.buckets j)).buckets i := by
  by_cases bucket : i = j
  · subst i
    rw [Hashmap.put_same]
    exact List.mem_cons_of_mem _ member
  · rwa [Hashmap.put_other _ bucket]

-- A node of `a` lies in the bucket of the block behind it.
theorem placed (ins : Inserted store store' first front a x n w ((b,z) :: back))
    (coherent : Coherent map (front ++ (a,x) :: (b,z) :: back)) (member : node ∈ map.buckets i) (same : node.value = a) :
    hashFunc z.ptr map.nBuckets = i := by
  obtain ⟨c,u,follows,place⟩ := coherent.only i node member
  rw [same] at follows
  rw [(Follows.unique ins.old ⟨front,x,back,rfl⟩ follows).2]
  exact place

-- Where the new address falls into another bucket, the node of `a` is left in its old one.
theorem left_behind (ins : Inserted store store' first front a x n w ((b,z) :: back))
    (coherent : Coherent map (front ++ (a,x) :: (b,z) :: back)) (size : filed.nBuckets = map.nBuckets)
    (kept : ∀ i, ∀ node ∈ map.buckets i, node ∈ filed.buckets i) (passed : Passable store' w.ptr (getNode filed w.ptr)) :
    ¬ Coherent (filed.put (hashFunc w.ptr filed.nBuckets) (⟨a,w.ptr⟩ :: getNode filed w.ptr))
      (front ++ (a,x) :: (n,w) :: (b,z) :: back) ∧ ¬ Leads store map w.ptr a := by
  obtain ⟨node,member,same⟩ := tally_pos.mp (by rw [coherent.once a b z ⟨front,x,back,rfl⟩]; exact Nat.one_pos)
  have apart : hashFunc z.ptr map.nBuckets ≠ hashFunc w.ptr map.nBuckets := by
    intro equal
    have there : node ∈ getNode filed w.ptr := kept _ node (by rw [size,← equal]; exact member)
    obtain ⟨found,keyed,different⟩ := passed node there
    rw [same,ins.key_here] at keyed
    exact different (Option.some.inj keyed)
  constructor
  · intro final
    have still : node ∈ (filed.put (hashFunc w.ptr filed.nBuckets) (⟨a,w.ptr⟩ :: getNode filed w.ptr)).buckets
        (hashFunc z.ptr map.nBuckets) := by
      rw [size,Hashmap.put_other _ apart]
      exact kept _ node member
    obtain ⟨c,u,follows,place⟩ := final.only _ node still
    rw [same] at follows
    obtain ⟨_,rfl⟩ := ins.here follows
    rw [Hashmap.put_nBuckets,size] at place
    exact apart place.symm
  · intro ⟨before,other,after,split,value,_⟩
    have listed : other ∈ map.buckets (hashFunc w.ptr map.nBuckets) := by
      rw [show map.buckets _ = _ from split]
      simp
    exact apart (ins.placed coherent listed value)

theorem front_getNode (map : Hashmap) (n k key index : Nat) : ∃ pre, getNode (map.put index (⟨n,k⟩ :: map.buckets index)) key = pre ++ getNode map key ∧
    ∀ node ∈ pre, node = ⟨n,k⟩ := by
  by_cases bucket : hashFunc key map.nBuckets = index
  · refine ⟨[⟨n,k⟩],?_,by simp⟩
    simp [getNode,bucket]
  · refine ⟨[],?_,by simp⟩
    simp [getNode,bucket]

-- Another block starts at the new address, and its node comes before that of `a`.
theorem not_leads (ins : Inserted store store' first front a x n w back) (coherent : Coherent map (front ++ (a,x) :: back))
    {pre before after : List HashmapNode} (same : getNode filed w.ptr = pre ++ getNode map w.ptr)
    (new : ∀ node ∈ pre, node.value = n) (split : getNode filed w.ptr = before ++ node :: after)
    (passed : Passable store' w.ptr before) (old : node ∈ getNode map w.ptr) (other : node.value ≠ a)
    (here : implicitKey store' node.value = some w.ptr) : ¬ Leads store map w.ptr a := by
  intro ⟨behind,mine,rest,split',value,unkeyed⟩
  have notFirst : mine ∉ before := by
    intro member
    obtain ⟨found,keyed,different⟩ := passed mine member
    rw [value,ins.key_here] at keyed
    exact different (Option.some.inj keyed)
  have apart : node ≠ mine := by
    rintro rfl
    exact other value
  have notBehind : node ∉ pre ++ behind := by
    intro member
    rcases List.mem_append.mp member with first | later
    · exact ins.unfiled coherent old (new node first)
    · exact unkeyed node later ((ins.same_key coherent old other).symm.trans here)
  rw [same,split',← List.append_assoc] at split
  rcases List.append_eq_append_iff.mp split with ⟨between,one,two⟩ | ⟨between,one,two⟩
  · cases between with
    | nil => exact apart (List.cons.inj two).1.symm
    | cons first between =>
      obtain ⟨rfl,_⟩ := List.cons.inj two
      exact notFirst (by rw [one]; simp)
  · cases between with
    | nil => exact apart (List.cons.inj two).1
    | cons first between =>
      obtain ⟨rfl,_⟩ := List.cons.inj two
      exact notBehind (by rw [one]; simp)

-- The new block's node is in front of the bucket of `b`, and `a` has kept its own one.
theorem front_files (ins : Inserted store store' first front a x n w ((b,z) :: back))
    (coherent : Coherent map (front ++ (a,x) :: (b,z) :: back)) (k : Nat)
    (shared : hashFunc z.ptr map.nBuckets = hashFunc w.ptr map.nBuckets) :
    Files store' (map.put (hashFunc k map.nBuckets) (⟨n,k⟩ :: getNode map k)) (front ++ (a,x) :: (n,w) :: (b,z) :: back) n z.ptr ↔
      hashFunc k map.nBuckets = hashFunc z.ptr map.nBuckets := by
  have behind : Follows (front ++ (a,x) :: (b,z) :: back) a b z := ⟨front,x,back,rfl⟩
  have ahead : Follows (front ++ (a,x) :: (n,w) :: (b,z) :: back) n b z := ins.moved.mpr behind
  have unfiled := ins.untallied coherent
  have tallied : ∀ i v, (map.put (hashFunc k map.nBuckets) (⟨n,k⟩ :: getNode map k)).tally i v =
      map.tally i v + if i = hashFunc k map.nBuckets ∧ v = n then 1 else 0 := fun i v => tally_front ⟨n,k⟩
  have different := ins.apart
  constructor
  · intro ⟨final,_⟩
    have one := final.once n b z ahead
    rw [tallied,Hashmap.put_nBuckets,unfiled] at one
    by_contra apart
    simp [Ne.symm apart] at one
  · intro bucket
    refine ⟨coherent_of_tally ?_ ?_,?_⟩
    · intro v c u follows
      rw [tallied,Hashmap.put_nBuckets]
      by_cases here : v = a
      · subst v
        obtain ⟨rfl,rfl⟩ := ins.here follows
        rw [← shared,coherent.once a b z behind]
        simp [different]
      by_cases new : v = n
      · subst v
        rw [(Follows.unique ins.old behind (ins.moved.mp follows)).2.symm,unfiled]
        simp [bucket]
      · rw [coherent.once v c u ((ins.follows_iff here new).mp follows)]
        simp [new]
    · intro i v positive
      rw [tallied] at positive
      by_cases new : v = n
      · subst v
        rw [unfiled] at positive
        by_cases place : i = hashFunc k map.nBuckets
        · exact ⟨b,z,ahead,by rw [Hashmap.put_nBuckets,place,bucket]⟩
        · simp [place] at positive
      · simp only [new,and_false,if_false,Nat.add_zero] at positive
        obtain ⟨node,member,rfl⟩ := tally_pos.mp positive
        by_cases here : node.value = a
        · refine ⟨n,w,here ▸ ⟨front,x,_,rfl⟩,?_⟩
          rw [Hashmap.put_nBuckets,← shared]
          exact ins.placed coherent member here
        · obtain ⟨c,u,follows,place⟩ := coherent.only i node member
          exact ⟨c,u,(ins.follows_iff here new).mpr follows,place⟩
    · have key := key_eq ins.new ahead
      simp [hashmapGet,getNode,← bucket,getLoop,key]

-- Where the second hashmap_set stops at the node of `a`, that node leads in the old map too.
theorem leads (ins : Inserted store store' first front a x n w back) (coherent : Coherent map (front ++ (a,x) :: back))
    {pre before after : List HashmapNode} (same : getNode filed w.ptr = pre ++ getNode map w.ptr)
    (new : ∀ node ∈ pre, node.value = n) (split : getNode filed w.ptr = before ++ node :: after)
    (passed : Passable store' w.ptr before) (old : node ∈ getNode map w.ptr) (here : node.value = a) :
    Leads store map w.ptr a := by
  have unkeyed : ∀ other ∈ before, other ∈ getNode map w.ptr → implicitKey store other.value ≠ some w.ptr := by
    intro other member listed equal
    obtain ⟨found,keyed,different⟩ := passed other member
    by_cases mine : other.value = a
    · rw [mine,ins.key_here] at keyed
      exact different (Option.some.inj keyed)
    · rw [ins.same_key coherent listed mine,equal] at keyed
      exact different (Option.some.inj keyed)
  rw [same] at split
  rcases List.append_eq_append_iff.mp split with ⟨between,one,two⟩ | ⟨between,one,two⟩
  · refine ⟨between,node,after,two,here,fun other member => unkeyed other ?_ ?_⟩
    · rw [one]
      exact List.mem_append_right _ member
    · rw [two]
      exact List.mem_append_left _ member
  · cases between with
    | nil => exact ⟨[],node,after,two.symm,here,by simp⟩
    | cons first between =>
      obtain ⟨rfl,_⟩ := List.cons.inj two
      exact absurd (new node (by rw [one]; simp)) (ins.unfiled coherent old)

-- No block starts at the descriptor `k` of the block behind: the new node is filed under `k`.
theorem miss (ins : Inserted store store' first front a x n w ((b,z) :: back))
    (coherent : Coherent map (front ++ (a,x) :: (b,z) :: back)) (beyond : w.ptr ≠ z.ptr) (k : Nat) :
    ∃ blockMap, hashmapSet store' (map.put (hashFunc k map.nBuckets) (⟨n,k⟩ :: getNode map k)) w.ptr a = some blockMap ∧
      (Files store' blockMap (front ++ (a,x) :: (n,w) :: (b,z) :: back) n z.ptr ↔
        hashFunc k map.nBuckets = hashFunc z.ptr map.nBuckets ∧ Leads store map w.ptr a) := by
  have refiled : Refiled store' map (map.put (hashFunc k map.nBuckets) (⟨n,k⟩ :: getNode map k)) n z := ins.front_refiled k
  have second : (Passable store' w.ptr (getNode (map.put (hashFunc k map.nBuckets) (⟨n,k⟩ :: getNode map k)) w.ptr) ∧ _) ∨ _ :=
    hashmapSet_spec (fun _ member => refiled.keyed ins coherent member) a
  rcases second with ⟨passed,set⟩ | ⟨before,node,after,split,passed,here,set⟩
  · obtain ⟨lost,unled⟩ := ins.left_behind coherent refiled.size (fun _ _ member => front_kept member) passed
    exact ⟨_,set,fun files => absurd files.1 lost,fun both => absurd both.2 unled⟩
  · have listed : node ∈ getNode (map.put (hashFunc k map.nBuckets) (⟨n,k⟩ :: getNode map k)) w.ptr := by
      rw [split]
      simp
    have old : node ∈ getNode map w.ptr := refiled.found beyond listed here
    obtain ⟨pre,same,new⟩ := front_getNode map n k w.ptr (hashFunc k map.nBuckets)
    have value : ∀ node ∈ pre, node.value = n := fun node member => by rw [new node member]
    by_cases mine : node.value = a
    · have unchanged : {node with value := a} = node := by rw [← mine]
      have still : (map.put (hashFunc k map.nBuckets) (⟨n,k⟩ :: getNode map k)).put (hashFunc w.ptr map.nBuckets)
          (getNode (map.put (hashFunc k map.nBuckets) (⟨n,k⟩ :: getNode map k)) w.ptr) =
            map.put (hashFunc k map.nBuckets) (⟨n,k⟩ :: getNode map k) := by
        simp only [Hashmap.put,getNode,Function.update_eq_self]
      rw [unchanged,← split,Hashmap.put_nBuckets,still] at set
      have leads := ins.leads coherent same value split passed old mine
      have files := ins.front_files coherent k (ins.placed coherent old mine)
      exact ⟨_,set,files.trans ⟨fun bucket => ⟨bucket,leads⟩,And.left⟩⟩
    · have one : (map.put (hashFunc k map.nBuckets) (⟨n,k⟩ :: getNode map k)).tally (hashFunc w.ptr map.nBuckets) node.value = 1 := by
        rw [show getNode map k = map.buckets _ from rfl,tally_front,tally_one coherent old]
        simp [ins.unfiled coherent old]
      have lost := ins.lost coherent old mine (tally_gone one split mine) rfl
      have unled := ins.not_leads coherent same value split passed old mine here
      exact ⟨_,set,fun files => absurd files.1 lost,fun both => absurd both.2 unled⟩

-- A node in the bucket of the descriptor `k` was met first, and gave way to the new block.
theorem hit_refiled (ins : Inserted store store' first front a x n w ((b,z) :: back)) {before after : List HashmapNode}
    (split : getNode map k = before ++ node :: after) :
    Refiled store' map (map.put (hashFunc k map.nBuckets) (before ++ {node with value := n} :: after)) n z := by
  refine ⟨rfl,?_,key_eq ins.new (ins.moved.mpr ⟨front,x,back,rfl⟩)⟩
  intro i other member
  exact (mem_replace split member).imp_left fun both => by rw [both.2]

-- If it was another block's node, this block is not recorded any more.
theorem hit_other (ins : Inserted store store' first front a x n w ((b,z) :: back))
    (coherent : Coherent map (front ++ (a,x) :: (b,z) :: back)) {before after : List HashmapNode}
    (split : getNode map k = before ++ node :: after) (other : node.value ≠ a) :
    ∃ blockMap, hashmapSet store' (map.put (hashFunc k map.nBuckets) (before ++ {node with value := n} :: after)) w.ptr a = some blockMap ∧
      ¬ Coherent blockMap (front ++ (a,x) :: (n,w) :: (b,z) :: back) := by
  have old : node ∈ getNode map k := by rw [split]; simp
  have refiled := ins.hit_refiled split
  have gone := tally_gone (tally_one coherent old) split (ins.unfiled coherent old)
  have second : (Passable store' w.ptr (getNode (map.put (hashFunc k map.nBuckets) (before ++ {node with value := n} :: after)) w.ptr) ∧ _) ∨ _ :=
    hashmapSet_spec (fun _ member => refiled.keyed ins coherent member) a
  rcases second with ⟨_,set⟩ | ⟨_,_,_,split',_,_,set⟩
  · refine ⟨_,set,ins.lost coherent old other ?_ rfl⟩
    rw [show getNode (map.put _ _) w.ptr = Hashmap.buckets _ _ from rfl,tally_front,gone]
    simp [other]
  · refine ⟨_,set,ins.lost coherent old other ?_ rfl⟩
    have tallied := tally_replace split' a (i := hashFunc k map.nBuckets) (v := node.value)
    rw [gone] at tallied
    simp only [other,and_false,if_false] at tallied
    omega

-- What is filed when the node of `a` gave way to the new block.
theorem retaken_tally (ins : Inserted store store' first front a x n w ((b,z) :: back))
    (coherent : Coherent map (front ++ (a,x) :: (b,z) :: back)) {before after : List HashmapNode}
    (split : getNode map z.ptr = before ++ node :: after) (mine : node.value = a)
    (made : filed = map.put (hashFunc z.ptr map.nBuckets) (before ++ {node with value := n} :: after)) :
    (∀ i, filed.tally i a = 0) ∧ (∀ i, filed.tally i n = if i = hashFunc z.ptr map.nBuckets then 1 else 0) ∧
      ∀ i v, v ≠ a → v ≠ n → filed.tally i v = map.tally i v := by
  have behind : Follows (front ++ (a,x) :: (b,z) :: back) a b z := ⟨front,x,back,rfl⟩
  have different := ins.apart
  have tallied : ∀ i v, filed.tally i v + (if i = hashFunc z.ptr map.nBuckets ∧ v = a then 1 else 0) =
      map.tally i v + if i = hashFunc z.ptr map.nBuckets ∧ v = n then 1 else 0 := by
    intro i v
    rw [made,← mine]
    exact tally_replace split n
  refine ⟨?_,?_,?_⟩
  · intro i
    have total := tallied i a
    by_cases bucket : i = hashFunc z.ptr map.nBuckets
    · rw [bucket,coherent.once a b z behind] at total
      simp only [and_self,if_true,different,and_false,if_false] at total
      rw [bucket]
      omega
    · have none : map.tally i a = 0 := coherent.tally_zero fun c u follows place =>
        bucket (by rw [← place,(Follows.unique ins.old behind follows).2])
      simp only [bucket,false_and,if_false,none] at total
      omega
  · intro i
    have total := tallied i n
    rw [ins.untallied coherent] at total
    simpa only [Ne.symm different,and_false,if_false,and_true,Nat.add_zero,Nat.zero_add] using total
  · intro i v notHere notNew
    have total := tallied i v
    simpa only [notHere,notNew,and_false,if_false,Nat.add_zero] using total

-- With `a` filed anew in front, every block is recorded once.
theorem retaken_coherent (ins : Inserted store store' first front a x n w ((b,z) :: back))
    (coherent : Coherent map (front ++ (a,x) :: (b,z) :: back)) (size : filed.nBuckets = map.nBuckets)
    (cleared : ∀ i, filed.tally i a = 0) (taken : ∀ i, filed.tally i n = if i = hashFunc z.ptr map.nBuckets then 1 else 0)
    (others : ∀ i v, v ≠ a → v ≠ n → filed.tally i v = map.tally i v) :
    Coherent (filed.put (hashFunc w.ptr filed.nBuckets) (⟨a,w.ptr⟩ :: getNode filed w.ptr))
      (front ++ (a,x) :: (n,w) :: (b,z) :: back) := by
  have behind : Follows (front ++ (a,x) :: (b,z) :: back) a b z := ⟨front,x,back,rfl⟩
  have ahead : Follows (front ++ (a,x) :: (n,w) :: (b,z) :: back) n b z := ins.moved.mpr behind
  have different := ins.apart
  refine coherent_of_tally ?_ ?_
  · intro v c u follows
    rw [show getNode filed w.ptr = filed.buckets _ from rfl,tally_front,Hashmap.put_nBuckets,size]
    by_cases here : v = a
    · subst v
      obtain ⟨_,rfl⟩ := ins.here follows
      simp [cleared]
    by_cases new : v = n
    · subst v
      rw [(Follows.unique ins.old behind (ins.moved.mp follows)).2.symm,taken]
      simp [Ne.symm different]
    · rw [others _ _ here new,coherent.once v c u ((ins.follows_iff here new).mp follows)]
      simp [here]
  · intro i v positive
    rw [show getNode filed w.ptr = filed.buckets _ from rfl,tally_front,size] at positive
    rw [Hashmap.put_nBuckets,size]
    by_cases here : v = a
    · subst v
      rw [cleared] at positive
      by_cases place : i = hashFunc w.ptr map.nBuckets
      · exact ⟨n,w,⟨front,x,_,rfl⟩,place.symm⟩
      · simp [place] at positive
    simp only [here,and_false,if_false,Nat.add_zero] at positive
    by_cases new : v = n
    · subst v
      rw [taken] at positive
      by_cases place : i = hashFunc z.ptr map.nBuckets
      · exact ⟨b,z,ahead,place.symm⟩
      · simp [place] at positive
    · rw [others _ _ here new] at positive
      obtain ⟨other,member,rfl⟩ := tally_pos.mp positive
      obtain ⟨c,u,follows,place⟩ := coherent.only i other member
      exact ⟨c,u,(ins.follows_iff here new).mpr follows,place⟩

-- And the address of the block behind leads to the new one: nothing before its node does.
theorem retaken_get (ins : Inserted store store' first front a x n w ((b,z) :: back))
    (coherent : Coherent map (front ++ (a,x) :: (b,z) :: back)) (beyond : w.ptr ≠ z.ptr) {before after : List HashmapNode}
    (split : getNode map z.ptr = before ++ node :: after)
    (made : filed = map.put (hashFunc z.ptr map.nBuckets) (before ++ {node with value := n} :: after))
    (cleared : ∀ i, filed.tally i a = 0) (passed : ∀ other ∈ before, implicitKey store other.value ≠ some z.ptr) :
    hashmapGet store' (filed.put (hashFunc w.ptr filed.nBuckets) (⟨a,w.ptr⟩ :: getNode filed w.ptr)) z.ptr = some (some n) := by
  have bucket : getNode filed z.ptr = before ++ {node with value := n} :: after := by
    rw [made]
    simp [getNode]
  have key := key_eq ins.new (ins.moved.mpr ⟨front,x,back,rfl⟩)
  have skipped : Passable store' z.ptr before := by
    intro other member
    have old : other ∈ getNode map z.ptr := by
      rw [split]
      exact List.mem_append_left _ member
    have notHere : other.value ≠ a := by
      intro same
      have listed : other ∈ getNode filed z.ptr := by
        rw [bucket]
        exact List.mem_append_left _ member
      have positive := tally_pos.mpr ⟨other,listed,same⟩
      rw [cleared] at positive
      cases positive
    obtain ⟨found,keyed⟩ := coherent.key ins.old old
    rw [← ins.same_key coherent old notHere] at keyed
    refine ⟨found,keyed,?_⟩
    rintro rfl
    rw [ins.same_key coherent old notHere] at keyed
    exact passed other member keyed
  obtain ⟨pre,same,new⟩ := front_getNode filed a w.ptr z.ptr (hashFunc w.ptr filed.nBuckets)
  have front : Passable store' z.ptr pre := by
    intro other member
    rw [new other member]
    exact ⟨w.ptr,ins.key_here,Ne.symm beyond⟩
  unfold hashmapGet
  rw [show getNode filed w.ptr = filed.buckets _ from rfl,same,front.get,bucket,skipped.get]
  simp [getLoop,key]

-- If it was the node of `a`, it now records the new block, and `a` is filed anew.
theorem hit_here (ins : Inserted store store' first front a x n w ((b,z) :: back))
    (coherent : Coherent map (front ++ (a,x) :: (b,z) :: back)) (beyond : w.ptr ≠ z.ptr) {before after : List HashmapNode}
    (split : getNode map z.ptr = before ++ node :: after) (mine : node.value = a)
    (passed : ∀ other ∈ before, implicitKey store other.value ≠ some z.ptr) :
    ∃ blockMap, hashmapSet store' (map.put (hashFunc z.ptr map.nBuckets) (before ++ {node with value := n} :: after)) w.ptr a = some blockMap ∧
      (Files store' blockMap (front ++ (a,x) :: (n,w) :: (b,z) :: back) n z.ptr ↔ hashmapGet store map w.ptr = some none) := by
  have behind : Follows (front ++ (a,x) :: (b,z) :: back) a b z := ⟨front,x,back,rfl⟩
  have refiled := ins.hit_refiled split
  have keys := ins.get_none_iff coherent w.ptr
  obtain ⟨filed,made⟩ : ∃ filed, filed = map.put (hashFunc z.ptr map.nBuckets) (before ++ {node with value := n} :: after) := ⟨_,rfl⟩
  rw [← made] at refiled ⊢
  obtain ⟨cleared,taken,others⟩ := ins.retaken_tally coherent split mine made
  have second : (Passable store' w.ptr (getNode filed w.ptr) ∧ _) ∨ _ :=
    hashmapSet_spec (fun _ member => refiled.keyed ins coherent member) a
  rcases second with ⟨clear,set⟩ | ⟨front',found,back',split',_,here,set⟩
  · refine ⟨_,set,fun _ => keys.mpr ?_,fun _ => ?_⟩
    · intro other member same
      by_cases here : other.value = a
      · rw [here,key_eq ins.old behind] at same
        exact beyond (Option.some.inj same).symm
      · have listed : 0 < filed.tally (hashFunc w.ptr map.nBuckets) other.value := by
          rw [others _ _ here (ins.unfiled coherent member)]
          exact tally_pos.mpr ⟨other,member,rfl⟩
        obtain ⟨again,there,value⟩ := tally_pos.mp listed
        rw [← refiled.size] at there
        obtain ⟨found,keyed,apart⟩ := clear again there
        rw [value,ins.same_key coherent member here,same] at keyed
        exact apart (Option.some.inj keyed)
    · exact ⟨ins.retaken_coherent coherent refiled.size cleared taken others,
        ins.retaken_get coherent beyond split made cleared passed⟩
  · have listed : found ∈ getNode filed w.ptr := by rw [split']; simp
    have old := refiled.found beyond listed here
    have other : found.value ≠ a := by
      intro same
      have positive := tally_pos.mpr ⟨found,listed,same⟩
      rw [cleared] at positive
      cases positive
    have one : filed.tally (hashFunc w.ptr filed.nBuckets) found.value = 1 := by
      rw [others _ _ other (ins.unfiled coherent old)]
      exact tally_one coherent old
    have lost := ins.lost coherent old other (tally_gone one split' other) refiled.size
    refine ⟨_,set,fun files => absurd files.1 lost,fun none => ?_⟩
    rw [ins.same_key coherent old other] at here
    rw [refiled.size] at old
    exact absurd here (keys.mp none found old)

end Inserted

-- Behind `a`, with the block at `key` described at `k` as the next one: the new address
-- `start`, the next block's own and `k` share a bucket, in which the node of `a` is met
-- first; or the next block lies at its own descriptor and no block is filed at `start`.
def FiledBefore (store : Store) (map : Hashmap) (k a start key : Nat) : Prop :=
  (hashmapGet store map k = some none ∧ hashFunc k map.nBuckets = hashFunc key map.nBuckets ∧ Inserted.Leads store map start a) ∨
  (k = key ∧ hashmapGet store map key = some (some a) ∧ hashmapGet store map start = some none)

theorem Inserted.insert (ins : Inserted store store' first front a x n w ((b,z) :: back))
    (allocated : Chain (links middle) first (front ++ (a,x) :: (b,z) :: back))
    (coherent : Coherent map (front ++ (a,x) :: (b,z) :: back)) (beyond : w.ptr ≠ z.ptr) (k : Nat) :
    ∃ filed blockMap, hashmapSet middle map k n = some filed ∧ hashmapSet store' filed w.ptr a = some blockMap ∧
      (Inserted.Files store' blockMap (front ++ (a,x) :: (n,w) :: (b,z) :: back) n z.ptr ↔ FiledBefore store map k a w.ptr z.ptr) := by
  have keys := ins.get_none_iff coherent k
  have same : ∀ i, ∀ node ∈ map.buckets i, implicitKey middle node.value = implicitKey store node.value := by
    intro i node member
    obtain ⟨c,u,follows,_⟩ := coherent.only i node member
    rw [key_eq allocated follows,key_eq ins.old follows]
  rcases hashmapSet_spec (fun _ member => coherent.key allocated member) n with
    ⟨passed,set⟩ | ⟨before,node,after,split,passed,here,set⟩
  · have none : hashmapGet store map k = some none := by
      refine keys.mpr fun node member equal => ?_
      obtain ⟨found,keyed,different⟩ := passed node member
      rw [same _ node member,equal] at keyed
      exact different (Option.some.inj keyed)
    obtain ⟨blockMap,second,files⟩ := ins.miss coherent beyond k
    refine ⟨_,blockMap,set,second,files.trans ⟨fun both => Or.inl ⟨none,both⟩,?_⟩⟩
    intro filed
    rcases filed with ⟨_,both⟩ | ⟨rfl,got,_⟩
    · exact both
    · rw [none] at got
      cases got
  · have member : node ∈ getNode map k := by rw [split]; simp
    have keyed : implicitKey store node.value = some k := (same _ node member).symm.trans here
    have got : hashmapGet store map k = some (some node.value) := by
      have passed : Passable store k before := by
        intro other listed
        obtain ⟨found,keyed,different⟩ := passed other listed
        rw [same _ other (by rw [show map.buckets _ = _ from split]; exact List.mem_append_left _ listed)] at keyed
        exact ⟨found,keyed,different⟩
      unfold hashmapGet
      rw [split,passed.get]
      simp [getLoop,keyed]
    by_cases mine : node.value = a
    · have own : k = z.ptr := by
        rw [mine,key_eq ins.old ⟨front,x,back,rfl⟩] at keyed
        exact (Option.some.inj keyed).symm
      subst own
      have skipped : ∀ other ∈ before, implicitKey store other.value ≠ some z.ptr := by
        intro other listed equal
        obtain ⟨found,keyed,different⟩ := passed other listed
        rw [same _ other (by rw [show map.buckets _ = _ from split]; exact List.mem_append_left _ listed),equal] at keyed
        exact different (Option.some.inj keyed)
      obtain ⟨blockMap,second,files⟩ := ins.hit_here coherent beyond split mine skipped
      refine ⟨_,blockMap,set,second,files.trans ⟨fun none => Or.inr ⟨rfl,mine ▸ got,none⟩,?_⟩⟩
      intro filed
      rcases filed with ⟨none,_⟩ | ⟨_,_,none⟩
      · rw [got] at none
        cases none
      · exact none
    · obtain ⟨blockMap,second,lost⟩ := ins.hit_other coherent split mine
      refine ⟨_,blockMap,set,second,fun files => absurd files.1 lost,?_⟩
      intro filed
      rcases filed with ⟨none,_⟩ | ⟨rfl,also,_⟩
      · rw [got] at none
        cases none
      · rw [got] at also
        exact absurd (Option.some.inj (Option.some.inj also)) mine

-- What heap_malloc leaves behind when it succeeds: the map is coherent with the list, and
-- the address of the block behind the new one, if there is one, leads to the new block.
def MallocCoherent (libc : Libc) (made : Nat) (store : Store) (heap : Heap) (bytes : Nat) : Prop :=
  ∀ store' heap' p, heapMalloc libc made store heap bytes = some (store',heap',some p) →
    ∃ cells, Chain (links store') (some heap'.tail) cells ∧ Coherent heap'.blockMap cells ∧
      ∀ b y, Follows cells made b y → hashmapGet store' heap'.blockMap y.ptr = some (some made)

-- The condition on the block that next-fit chooses, by what comes behind it on the list.
def FiledBehind (libc : Libc) (store : Store) (map : Hashmap) (a : Nat) (x : Extent) : List Cell → Prop
  | [] => hashmapGet store map (x.ptr + x.size) = some none
  | (b,y) :: _ => FiledBefore store map (libc.place b) a (x.ptr + x.size) y.ptr

def Fileable (libc : Libc) (store : Store) (heap : Heap) (cells : List Cell) (bytes : Nat) : Prop :=
  ∀ before y after front a x back, cells = before ++ (heap.head,y) :: after → cells = front ++ (a,x) :: back →
    firstFit bytes (searchOrder heap before (heap.head,y) after) = some a → FiledBehind libc store heap.blockMap a x back

theorem fileable_iff (once : (addresses cells).Nodup) (split : cells = before ++ (heap.head,y) :: after)
    (chosen : firstFit bytes (searchOrder heap before (heap.head,y) after) = some a) (here : cells = front ++ (a,x) :: back) :
    Fileable libc store heap cells bytes ↔ FiledBehind libc store heap.blockMap a x back := by
  constructor
  · intro fileable
    exact fileable before y after front a x back split here chosen
  · intro filed before' y' after' front' a' x' back' split' here' chosen'
    obtain ⟨rfl,rfl,rfl⟩ := split_unique (split ▸ once) (split.symm.trans split')
    cases Option.some.inj (chosen.symm.trans chosen')
    obtain ⟨rfl,rfl,rfl⟩ := split_unique (here ▸ once) (here.symm.trans here')
    exact filed

-- A successful heap_malloc yields a coherent heap, under exactly this condition.
theorem heapMalloc_coherent_iff (libc : Libc) (wf : WellFormed store heap cells) (known : ∀ a ∈ addresses cells, a < made)
    (coherent : Coherent heap.blockMap cells) (positive : 0 < bytes) :
    MallocCoherent libc made store heap bytes ↔ Fileable libc store heap cells bytes := by
  have fresh : made ∉ addresses cells := fun member => Nat.lt_irrefl _ (known made member)
  have allocated := wf.allocate libc bytes fresh
  obtain ⟨before,y,after,split⟩ := mem_split wf.cursor
  have search := wf.search_eq libc known bytes split
  cases chosen : firstFit bytes (searchOrder heap before (heap.head,y) after) with
  | none =>
    rw [chosen] at search
    refine ⟨fun _ before' y' after' front a x back split' _ chosen' => ?_,fun _ store' heap' p returned => ?_⟩
    · obtain ⟨rfl,rfl,rfl⟩ := split_unique (split ▸ wf.chain.nodup) (split.symm.trans split')
      rw [chosen] at chosen'
      cases chosen'
    · rw [heapMalloc_full search] at returned
      cases returned
  | some a =>
    rw [chosen] at search
    obtain ⟨front,x,back,here,room⟩ := findBlock_sound allocated allocated.cursor search
    rw [fileable_iff wf.chain.nodup split chosen here]
    subst here
    have stored := allocated.block_at
    have inserted := allocated.insert heap.blockMap room fresh stored
    have ins : Inserted store _ (some heap.tail) front a x made ⟨x.ptr + x.size,bytes⟩ back := ⟨wf.chain,inserted.chain⟩
    -- The result of the call, once both updates of the map are known.
    have result : ∀ filed blockMap, updateNext libc (allocate libc store made bytes) heap.blockMap
        ⟨x.ptr,x.size,back.head?.map Prod.fst⟩ made = some filed →
        hashmapSet (insertBlock (allocate libc store made bytes) a ⟨x.ptr,x.size,back.head?.map Prod.fst⟩ made bytes)
          filed (x.ptr + x.size) a = some blockMap →
        (MallocCoherent libc made store heap bytes ↔
          Coherent blockMap (front ++ (a,x) :: (made,⟨x.ptr + x.size,bytes⟩) :: back) ∧
            ∀ b y, back.head? = some (b,y) → hashmapGet (insertBlock (allocate libc store made bytes) a
              ⟨x.ptr,x.size,back.head?.map Prod.fst⟩ made bytes) blockMap y.ptr = some (some made)) := by
      intro filed blockMap update set
      have returned := heapMalloc_placed search stored update set
      constructor
      · intro malloced
        obtain ⟨rest,chain,final,leads⟩ := malloced _ _ _ returned
        have same := chain.unique inserted.chain
        subst same
        refine ⟨final,fun b y next => leads b y (ins.moved.mpr ?_)⟩
        exact (follows_at wf.chain.nodup).mpr next
      · intro ⟨final,leads⟩ store' heap' p also
        rw [returned] at also
        cases also
        refine ⟨_,inserted.chain,final,fun b y follows => leads b y ?_⟩
        exact (follows_at wf.chain.nodup).mp (ins.moved.mp follows)
    cases back with
    | nil =>
      obtain ⟨blockMap,set,final⟩ := ins.append coherent
      rw [result heap.blockMap blockMap rfl set,final]
      simp [FiledBehind]
    | cons cell back =>
      obtain ⟨b,z⟩ := cell
      have beyond : x.ptr + x.size ≠ z.ptr := by
        simp only [HasRoom,gapEnd] at room
        omega
      obtain ⟨filed,blockMap,set,second,files⟩ := ins.insert allocated.chain coherent beyond (libc.place b)
      rw [result filed blockMap set second]
      simp only [FiledBehind,← files,Inserted.Files,List.head?_cons,Option.some.injEq,Prod.mk.injEq]
      refine and_congr_right fun _ => ⟨fun all => all b z ⟨rfl,rfl⟩,?_⟩
      intro leads c u same
      obtain ⟨rfl,rfl⟩ := same
      exact leads

-- The new block, the block behind it and the latter's descriptor fall into one bucket.
theorem heapMalloc_coherent_before :
    MallocCoherent ⟨fun n => 65444 + 32 * n,fun _ => ⟨7,7,none⟩⟩ 2 (oneBlock 5119) (oneBlockHeap 5119 2048) 8 := by
  refine (heapMalloc_coherent_iff _ (oneBlock_wf ?_ ?_ ?_) ?_ oneBlock_coherent (by decide)).mpr ?_
  · decide
  · decide
  · decide
  · decide
  · refine (fileable_iff (by decide) (List.nil_append _).symm rfl (List.nil_append _).symm).mpr (Or.inl ⟨rfl,rfl,?_⟩)
    exact ⟨[],⟨0,5119⟩,[],rfl,rfl,by simp⟩

-- Elsewhere the new block is filed under the descriptor, and not found at the address.
theorem next_block_not_refiled : ¬ ∀ libc made store heap cells bytes, WellFormed store heap cells →
    (∀ a ∈ addresses cells, a < made) → Coherent heap.blockMap cells → 0 < bytes →
    MallocCoherent libc made store heap bytes := by
  intro claim
  let libc : Libc := ⟨fun n => 65536 + 32 * n,fun _ => ⟨7,7,none⟩⟩
  have wf : WellFormed (oneBlock 4136) (oneBlockHeap 4136 64) [(0,⟨4096,0⟩),(1,⟨4136,8⟩)] :=
    oneBlock_wf (by decide) (by decide) (by decide)
  have search : findBlock (allocate libc (oneBlock 4136) 2 8) (oneBlockHeap 4136 64) 8 2 0 = some (some 0) := rfl
  have unfiled : setLoop (allocate libc (oneBlock 4136) 2 8) 65568 2 (getNode (oneBlockHeap 4136 64).blockMap 65568) = some none := rfl
  have filed := hashmapSet_eq unfiled
  have clear : setLoop (insertBlock (allocate libc (oneBlock 4136) 2 8) 0 ⟨4096,0,some 1⟩ 2 8) 4096 0
      (getNode ((oneBlockHeap 4136 64).blockMap.put 96 [⟨2,65568⟩]) 4096) = some none := rfl
  have returned := heapMalloc_placed search rfl filed (hashmapSet_eq clear)
  obtain ⟨cells,chain,_,leads⟩ := claim libc 2 _ _ _ 8 wf (by decide) oneBlock_coherent (by decide) _ _ _ returned
  have listed : cells = [(0,⟨4096,0⟩),(2,⟨4096,8⟩),(1,⟨4136,8⟩)] := chain.unique (.cons rfl (.cons rfl (.cons rfl .nil)))
  have found : some none = some (some 2) := leads 1 ⟨4136,8⟩ ⟨[(0,⟨4096,0⟩)],⟨4096,8⟩,[],listed⟩
  cases found

end OpenShmem
