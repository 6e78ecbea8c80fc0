import OpenShmem.Memory.Twin

namespace OpenShmem
open Relational Linked

-- A collective operation. A free names the block by its offset, as the PEs do for each other.
inductive Collective where
  | malloc (bytes : Nat)
  | free (offset : Nat)
deriving DecidableEq, Repr

def Collective.on (base : Nat) : Collective → Call
  | .malloc bytes => .malloc bytes
  | .free offset => .free (base + offset)

def Session.offsets (s : Session) : List (Option Nat) := s.results.map (Option.map (heapOffset s.heap))

-- No bucket walk of the call stops at a misfiled node, and the walk under a descriptor's
-- place finds nothing.
def Unmixed (libc : Libc) (s : Session) : Call → Prop
  | .free ptr => RemoveClear s.store s.heap.ptr s.heap.size ptr (getNode s.heap.blockMap ptr)
  | .malloc bytes => ∀ found,
      findBlock (allocate libc s.store s.made bytes) s.heap bytes s.made s.heap.head = some found →
      ∀ head, found = some head → ∀ block, allocate libc s.store s.made bytes head = some block →
      (∀ next, block.next = some next →
        Passable (allocate libc s.store s.made bytes) (libc.place next) (getNode s.heap.blockMap (libc.place next))) ∧
      ∀ filed, updateNext libc (allocate libc s.store s.made bytes) s.heap.blockMap block s.made = some filed →
        SetClear (insertBlock (allocate libc s.store s.made bytes) head block s.made bytes)
          s.heap.ptr s.heap.size (blockEnd block) (getNode filed (blockEnd block))

instance : (s : Session) → (call : Call) → Decidable (Unmixed libc s call)
  | s,.free ptr => inferInstanceAs (Decidable (RemoveClear s.store _ _ ptr _))
  | s,.malloc bytes => inferInstanceAs (Decidable (∀ found,
      findBlock (allocate libc s.store s.made bytes) s.heap bytes s.made s.heap.head = some found →
      ∀ head, found = some head → ∀ block, allocate libc s.store s.made bytes head = some block →
      (∀ next, block.next = some next →
        Passable (allocate libc s.store s.made bytes) (libc.place next) (getNode s.heap.blockMap (libc.place next))) ∧
      ∀ filed, updateNext libc (allocate libc s.store s.made bytes) s.heap.blockMap block s.made = some filed →
        SetClear (insertBlock (allocate libc s.store s.made bytes) head block s.made bytes)
          s.heap.ptr s.heap.size (blockEnd block) (getNode filed (blockEnd block))))

-- libc does not place a descriptor in the region, nor right at its end.
def PlacesOutside (libc : Libc) (base size : Nat) : Prop :=
  ∀ n, libc.place n < base ∨ base + size < libc.place n

variable {base other size offset : Nat} {kept : Nat → Prop} {store twin : Store} {libc libc' : Libc}
  {map map' filed filed' : Hashmap} {s t : Session}

theorem getNode_put : getNode (map.put (hashFunc key map.nBuckets) chain) key' =
    if hashFunc key' map.nBuckets = hashFunc key map.nBuckets then chain else getNode map key' := by
  unfold getNode
  rw [Hashmap.put_nBuckets]
  by_cases same : hashFunc key' map.nBuckets = hashFunc key map.nBuckets
  · rw [if_pos same,same,Hashmap.put_same]
  · rw [if_neg same,Hashmap.put_other _ same]

-- Which addresses of a region share a bucket does not depend on its base.
theorem hashFunc_base (base other : Nat) : hashFunc (base + one) n = hashFunc (base + two) n ↔
    hashFunc (other + one) n = hashFunc (other + two) n := by
  unfold hashFunc
  constructor
  · exact fun same => Nat.ModEq.add_left other (Nat.ModEq.add_left_cancel' base same)
  · exact fun same => Nat.ModEq.add_left base (Nat.ModEq.add_left_cancel' other same)

theorem MapTwin.put (maps : MapTwin base other size kept map map')
    (nodes : List.Forall₂ (NodeTwin kept) (regular base size chain) (regular other size chain')) :
    MapTwin base other size kept (map.put (hashFunc (base + offset) map.nBuckets) chain)
      (map'.put (hashFunc (other + offset) map'.nBuckets) chain') := by
  refine ⟨maps.nBuckets,?_⟩
  intro two
  rw [getNode_put,getNode_put,← maps.nBuckets]
  by_cases same : hashFunc (base + two) map.nBuckets = hashFunc (base + offset) map.nBuckets
  · rw [if_pos same,if_pos ((hashFunc_base base other).mp same)]
    exact nodes
  · rw [if_neg same,if_neg fun there => same ((hashFunc_base base other).mpr there)]
    exact maps.chains two

theorem hashmapSet_twin (stores : StoreTwin base other kept store twin)
    (maps : MapTwin base other size kept map map') (named : kept value) (inside : offset ≤ size)
    (clear : SetClear store base size (base + offset) (getNode map (base + offset)))
    (clear' : SetClear twin other size (other + offset) (getNode map' (other + offset))) :
    Option.Rel (MapTwin base other size kept) (hashmapSet store map (base + offset) value)
      (hashmapSet twin map' (other + offset) value) := by
  have loops := setLoop_twin stores ⟨offset,rfl,rfl⟩ named (maps.chains offset)
  rw [setLoop_regular clear,setLoop_regular clear'] at loops
  have filedHere : ∀ start, ¬ Misfiled start size ⟨value,start + offset⟩ := by
    intro start
    simp only [Misfiled]
    omega
  cases here : setLoop store (base + offset) value (getNode map (base + offset)) with
  | none =>
    cases there : setLoop twin (other + offset) value (getNode map' (other + offset)) with
    | none =>
      unfold getNode at here there
      simp only [hashmapSet,here,there,Option.bind_eq_bind,Option.bind_none]
      exact .none
    | some updated => rw [here,there] at loops; cases loops
  | some updated =>
    cases there : setLoop twin (other + offset) value (getNode map' (other + offset)) with
    | none => rw [here,there] at loops; cases loops
    | some updated' =>
      rw [hashmapSet_eq here,hashmapSet_eq there]
      rw [here,there] at loops
      cases loops with
      | some results =>
        refine .some (maps.put ?_)
        cases updated with
        | none =>
          cases updated' with
          | none =>
            have nodes := maps.chains offset
            simp only [Option.getD_none,regular,List.filter_cons,filedHere,not_false_eq_true,decide_true,if_true]
            exact .cons ⟨rfl,named⟩ nodes
          | some tail => cases results
        | some chain =>
          cases updated' with
          | none => cases results
          | some chain' =>
            cases results with
            | some nodes => exact nodes

theorem hashmapRemove_twin (stores : StoreTwin base other kept store twin)
    (maps : MapTwin base other size kept map map')
    (clear : RemoveClear store base size (base + offset) (getNode map (base + offset)))
    (clear' : RemoveClear twin other size (other + offset) (getNode map' (other + offset))) :
    Option.Rel (fun one two => one.1 = two.1 ∧ (∀ v, one.1 = some v → kept v) ∧
        MapTwin base other size kept one.2 two.2)
      (hashmapRemove store map (base + offset)) (hashmapRemove twin map' (other + offset)) := by
  have loops := removeLoop_twin stores ⟨offset,rfl,rfl⟩ (maps.chains offset)
  rw [removeLoop_regular clear,removeLoop_regular clear'] at loops
  cases here : removeLoop store (base + offset) (getNode map (base + offset)) with
  | none =>
    cases there : removeLoop twin (other + offset) (getNode map' (other + offset)) with
    | none =>
      unfold getNode at here there
      simp only [hashmapRemove,here,there,Option.bind_eq_bind,Option.bind_none]
      exact .none
    | some removed => rw [here,there] at loops; cases loops
  | some removed =>
    cases there : removeLoop twin (other + offset) (getNode map' (other + offset)) with
    | none => rw [here,there] at loops; cases loops
    | some removed' =>
      rw [here,there] at loops
      cases loops with
      | some results =>
        cases removed with
        | none =>
          cases removed' with
          | none =>
            rw [hashmapRemove_absent here,hashmapRemove_absent there]
            exact .some ⟨rfl,by simp,maps⟩
          | some hit => cases results
        | some hit =>
          cases removed' with
          | none => cases results
          | some hit' =>
            cases results with
            | some hits =>
              rw [hashmapRemove_hit here,hashmapRemove_hit there]
              refine .some ⟨congrArg some hits.1,?_,maps.put hits.2.2⟩
              rintro v same
              cases same
              exact hits.2.1

-- Filing a block under the place of a descriptor leaves the regular nodes as they are.
theorem updateNext_regular (new : Nat) (places : PlacesOutside libc base size)
    (linked : ∀ next, block.next = some next → Passable store (libc.place next) (getNode map (libc.place next))) :
    ∃ filed, updateNext libc store map block new = some filed ∧ filed.nBuckets = map.nBuckets ∧
      ∀ key, regular base size (getNode filed key) = regular base size (getNode map key) := by
  obtain ⟨filed,update,nBuckets,buckets⟩ := updateNext_passable new linked
  refine ⟨filed,update,nBuckets,?_⟩
  intro key
  unfold getNode
  rw [nBuckets]
  rcases buckets (hashFunc key map.nBuckets) with same | ⟨next,_,front⟩
  · rw [same]
  · have misfiled : Misfiled base size ⟨new,libc.place next⟩ := places next
    rw [front]
    simp [regular,misfiled]

theorem updateNext_twin (maps : MapTwin base other size kept map map') (places : PlacesOutside libc base size)
    (places' : PlacesOutside libc' other size)
    (linked : ∀ next, one.next = some next → Passable store (libc.place next) (getNode map (libc.place next)))
    (linked' : ∀ next, two.next = some next → Passable twin (libc'.place next) (getNode map' (libc'.place next))) :
    Option.Rel (MapTwin base other size kept) (updateNext libc store map one new)
      (updateNext libc' twin map' two new) := by
  obtain ⟨filed,update,nBuckets,chains⟩ := updateNext_regular new places linked
  obtain ⟨filed',update',nBuckets',chains'⟩ := updateNext_regular new places' linked'
  rw [update,update']
  refine .some ⟨by rw [nBuckets,nBuckets',maps.nBuckets],?_⟩
  intro offset
  rw [chains,chains']
  exact maps.chains offset

theorem insertBlock_twin (head new bytes : Nat) (stores : StoreTwin base other kept store twin) (blocks : BlockTwin base other kept one two) :
    StoreTwin base other (fun n => kept n ∨ n = new) (insertBlock store head one new bytes)
      (insertBlock twin head two new bytes) := by
  intro n named
  have wider : ∀ n, kept n → kept n ∨ n = new := fun _ => Or.inl
  unfold insertBlock
  by_cases onHead : n = head
  · subst n
    simp only [Store.write_same]
    exact .some ⟨blocks.ptr,blocks.size,rfl,by rintro n same; cases same; exact Or.inr rfl⟩
  · simp only [Store.write_other _ onHead]
    by_cases onNew : n = new
    · subst n
      simp only [Store.write_same]
      exact .some ⟨blocks.blockEnd,rfl,blocks.next,fun n linked => wider n (blocks.named n linked)⟩
    · simp only [Store.write_other _ onNew]
      exact rel_imp (stores n (named.resolve_right onNew)) fun _ _ _ _ blocks => blocks.mono wider

theorem unlink_twin (stores : StoreTwin base other kept store twin) (blocks : BlockTwin base other kept one two)
    (unlinked : BlockTwin base other kept next next') :
    StoreTwin base other kept ((store.write before {one with next := next.next}).release freed)
      ((twin.write before {two with next := next'.next}).release freed) := by
  intro n named
  by_cases gone : n = freed
  · subst n
    simp only [Store.release_same]
    exact .none
  · simp only [Store.release_other _ gone]
    by_cases here : n = before
    · subst n
      simp only [Store.write_same]
      exact .some ⟨blocks.ptr,blocks.size,unlinked.next,unlinked.named⟩
    · simp only [Store.write_other _ here]
      exact stores n named

-- The two PEs' heaps, with every descriptor of one standing for the same one of the other.
structure HeapTwin (base other size : Nat) (kept : Nat → Prop) (store twin : Store) (heap heap' : Heap) : Prop where
  here : heap.ptr = base ∧ heap.size = size
  there : heap'.ptr = other ∧ heap'.size = size
  stores : StoreTwin base other kept store twin
  maps : MapTwin base other size kept heap.blockMap heap'.blockMap
  head : heap.head = heap'.head
  tail : heap.tail = heap'.tail
  headKept : kept heap.head
  tailKept : kept heap.tail

theorem HeapTwin.free {heap heap' : Heap} (twins : HeapTwin base other size kept store twin heap heap')
    (clear : RemoveClear store base size (base + offset) (getNode heap.blockMap (base + offset)))
    (clear' : RemoveClear twin other size (other + offset) (getNode heap'.blockMap (other + offset))) :
    Option.Rel (fun one two => HeapTwin base other size kept one.1 two.1 one.2 two.2)
      (heapFree store heap (base + offset)) (heapFree twin heap' (other + offset)) := by
  refine rel_bind (hashmapRemove_twin twins.stores twins.maps clear clear') ?_
  rintro ⟨found,blockMap⟩ ⟨_,blockMap'⟩ _ _ ⟨rfl,named,maps⟩
  cases found with
  | none => exact .some twins
  | some before =>
    refine rel_bind (twins.stores before (named before rfl)) ?_
    intro one two _ _ blocks
    simp only [Option.bind_eq_bind,← blocks.next]
    cases linked : one.next with
    | none => exact .none
    | some freed =>
      simp only [Option.bind_some]
      refine rel_bind (twins.stores freed (blocks.named freed linked)) ?_
      intro next next' _ _ unlinked
      refine .some ⟨twins.here,twins.there,unlink_twin twins.stores blocks unlinked,maps,?_,twins.tail,?_,twins.tailKept⟩
      · simp only [unlinked.next,twins.tail]
      · simp only
        cases behind : next.next with
        | none => exact twins.tailKept
        | some n => exact unlinked.named n behind

theorem HeapTwin.malloc (twins : HeapTwin base other size kept s.store t.store s.heap t.heap)
    (layout : Layout s cells) (made : s.made = t.made) (bound : ∀ n, kept n → n < s.made)
    (places : PlacesOutside libc base size) (places' : PlacesOutside libc' other size)
    (clear : Unmixed libc s (.malloc bytes)) (clear' : Unmixed libc' t (.malloc bytes)) :
    Option.Rel (fun one two => ∃ more : Nat → Prop, (∀ n, more n → n < s.made + 1) ∧
        HeapTwin base other size more one.1 two.1 one.2.1 two.2.1 ∧
        Option.Rel (AddrTwin base other) one.2.2 two.2.2)
      (heapMalloc libc s.made s.store s.heap bytes) (heapMalloc libc' t.made t.store t.heap bytes) := by
  obtain ⟨⟨rfl,rfl⟩,⟨rfl,sizes⟩,stores,maps,heads,tails,headKept,tailKept⟩ := twins
  unfold Unmixed at clear clear'
  unfold heapMalloc
  rw [← made,← heads] at clear' ⊢
  have allocated : StoreTwin s.heap.ptr t.heap.ptr kept (allocate libc s.store s.made bytes)
      (allocate libc' t.store s.made bytes) := by
    intro n named
    have old : n ≠ s.made := Nat.ne_of_lt (bound n named)
    rw [allocate_other old,allocate_other old]
    exact stores n named
  have wf := layout.wf.allocate libc bytes layout.unlisted
  refine rel_bind (findBlock_twin sizes.symm heads tails tailKept allocated headKept) ?_
  rintro found _ searched searched' ⟨rfl,foundKept⟩
  cases found with
  | none =>
    refine .some ⟨kept,fun n named => Nat.lt_succ_of_lt (bound n named),?_,.none⟩
    exact ⟨⟨rfl,rfl⟩,⟨rfl,sizes⟩,allocated,maps,heads,tails,headKept,tailKept⟩
  | some head =>
    have named := foundKept head rfl
    refine rel_bind (allocated head named) ?_
    intro one two stored stored' blocks
    obtain ⟨linked,walk⟩ := clear _ searched head rfl one stored
    obtain ⟨linked',walk'⟩ := clear' _ searched' head rfl two stored'
    refine rel_bind (updateNext_twin maps places places' linked linked') ?_
    intro filed filed' update update' filedTwin
    -- The new block starts where the one in front of it ends, inside the region.
    obtain ⟨offset,key,key'⟩ := blocks.blockEnd
    have inside : offset ≤ s.heap.size := by
      obtain ⟨before,x,after,rfl,room⟩ := findBlock_sound wf wf.cursor searched
      obtain ⟨low,_⟩ := wf.gap_order
      have located := wf.block_at
      rw [stored] at located
      have stop := congrArg blockEnd (Option.some.inj located)
      have limit := wf.laid.inside (head,x) (by simp)
      simp only [blockEnd,cellStop,heapEnd] at stop limit key
      omega
    have inserted := insertBlock_twin head s.made bytes allocated blocks
    have wider : ∀ n, kept n → kept n ∨ n = s.made := fun _ => Or.inl
    have clearHere := walk filed update
    have clearThere := walk' filed' update'
    rw [key] at clearHere ⊢
    rw [key',sizes] at clearThere
    rw [key']
    refine rel_bind (hashmapSet_twin inserted (filedTwin.mono wider) (wider head named) inside clearHere clearThere) ?_
    intro last last' _ _ lasts
    refine .some ⟨fun n => kept n ∨ n = s.made,?_,?_,.some ⟨offset,rfl,rfl⟩⟩
    · rintro n (old | rfl)
      · exact Nat.lt_succ_of_lt (bound n old)
      · exact Nat.lt_succ_self _
    · exact ⟨⟨rfl,rfl⟩,⟨rfl,sizes⟩,inserted,lasts,rfl,tails,Or.inr rfl,Or.inl tailKept⟩

structure Twins (region region' : Region) (s t : Session) : Prop where
  made : s.made = t.made
  layout : ∃ cells, Layout s cells
  heaps : ∃ kept : Nat → Prop, (∀ n, kept n → n < s.made) ∧
    HeapTwin region.base region'.base region.size kept s.store t.store s.heap t.heap
  offsets : s.offsets = t.offsets

theorem start_twins (region region' : Region) (sizes : region.size = region'.size)
    (clean : (libc.prior 0).next = none) (clean' : (libc'.prior 0).next = none) :
    Twins region region' (Session.start libc region) (Session.start libc' region') := by
  refine ⟨rfl,⟨_,start_layout region clean⟩,⟨fun n => n = 0,?_,?_⟩,rfl⟩
  · rintro n rfl
    exact Nat.one_pos
  · refine ⟨⟨rfl,rfl⟩,⟨rfl,sizes.symm⟩,?_,⟨rfl,fun _ => .nil⟩,rfl,rfl,rfl,rfl⟩
    rintro n rfl
    simp only [Session.start,heapInit,Store.write_same]
    exact .some ⟨⟨0,rfl,rfl⟩,rfl,by simp [clean,clean'],by simp [clean]⟩

theorem heapOffset_congr {heap heap' : Heap} (same : heap.ptr = heap'.ptr) : heapOffset heap = heapOffset heap' := by
  unfold heapOffset
  rw [same]

theorem heapOffset_twin {heap heap' : Heap} (results : Option.Rel (AddrTwin heap.ptr heap'.ptr) result result') :
    result.map (heapOffset heap) = result'.map (heapOffset heap') := by
  cases results with
  | none => rfl
  | some addresses =>
    obtain ⟨offset,rfl,rfl⟩ := addresses
    simp only [Option.map_some,heapOffset,Option.some.injEq]
    refine congrArg sizeT ?_
    omega

-- One collective operation, called on both PEs.
theorem call_twins {region region' : Region} (twins : Twins region region' s t)
    (places : PlacesOutside libc region.base region.size) (places' : PlacesOutside libc' region'.base region.size)
    (op : Collective) (clear : Unmixed libc s (op.on region.base)) (clear' : Unmixed libc' t (op.on region'.base)) :
    Option.Rel (Twins region region') (s.call libc (op.on region.base)) (t.call libc' (op.on region'.base)) := by
  obtain ⟨kept,bound,heaps⟩ := twins.heaps
  obtain ⟨cells,layout⟩ := twins.layout
  have moved : ∀ u, s.call libc (op.on region.base) = some u → ∃ cells, Layout u cells :=
    fun u called => call_layout twins.layout called
  have before := twins.offsets
  unfold Session.offsets at before
  cases op with
  | free offset =>
    unfold Collective.on Unmixed at clear clear'
    rw [heaps.here.1,heaps.here.2] at clear
    rw [heaps.there.1,heaps.there.2] at clear'
    refine rel_bind (heaps.free clear clear') ?_
    rintro ⟨store,heap⟩ ⟨twin,heap'⟩ freed _ after
    refine .some ⟨twins.made,moved _ ?_,⟨kept,bound,after⟩,?_⟩
    · simp only [Collective.on,Session.call,freed]; rfl
    · rw [heapOffset_congr (heaps.here.1.trans after.here.1.symm),
        heapOffset_congr (heaps.there.1.trans after.there.1.symm)] at before
      exact before
  | malloc bytes =>
    refine rel_bind (heaps.malloc layout twins.made bound places places' clear clear') ?_
    rintro ⟨store,heap,result⟩ ⟨twin,heap',result'⟩ malloced _ ⟨more,wider,after,results⟩
    refine .some ⟨congrArg (· + 1) twins.made,moved _ ?_,⟨more,wider,after⟩,?_⟩
    · simp only [Collective.on,Session.call,malloced]; rfl
    · rw [heapOffset_congr (heaps.here.1.trans after.here.1.symm),
        heapOffset_congr (heaps.there.1.trans after.there.1.symm)] at before
      have here : heap.ptr = region.base := after.here.1
      have there : heap'.ptr = region'.base := after.there.1
      rw [← here,← there] at results
      unfold Session.offsets
      simp only [List.map_append,List.map_cons,List.map_nil,before,heapOffset_twin results]

-- Every run of collective operations goes through on both PEs, where it gives the same
-- offsets.
theorem offsets_agree (libc libc' : Libc) (region region' : Region) (sizes : region.size = region'.size)
    (clean : (libc.prior 0).next = none) (clean' : (libc'.prior 0).next = none)
    (places : PlacesOutside libc region.base region.size) (places' : PlacesOutside libc' region'.base region'.size)
    (ops : List Collective)
    (meets : (sessions libc).Meets (fun s call => Unmixed libc s call ∧ Definite libc s call) (Session.start libc region)
      (ops.map (Collective.on region.base)))
    (meets' : (sessions libc').Meets (Unmixed libc') (Session.start libc' region')
      (ops.map (Collective.on region'.base))) :
    ∃ s t, (sessions libc).run (Session.start libc region) (ops.map (Collective.on region.base)) = some s ∧
      (sessions libc').run (Session.start libc' region') (ops.map (Collective.on region'.base)) = some t ∧
      s.offsets = t.offsets := by
  have pairs : List.Forall₂ (fun one two => ∃ op : Collective, one = op.on region.base ∧ two = op.on region'.base)
      (ops.map (Collective.on region.base)) (ops.map (Collective.on region'.base)) := by
    rw [List.forall₂_map_left_iff,List.forall₂_map_right_iff]
    exact List.forall₂_same.mpr fun op _ => ⟨op,rfl,rfl⟩
  have steps : ∀ s t one two, Twins region region' s t →
      (∃ op : Collective, one = op.on region.base ∧ two = op.on region'.base) →
      Unmixed libc s one ∧ Definite libc s one → Unmixed libc' t two →
      Option.Rel (Twins region region') ((sessions libc).step s one) ((sessions libc').step t two) := by
    intro s t one two twins pair here there
    obtain ⟨op,rfl,rfl⟩ := pair
    exact call_twins twins places (sizes ▸ places') op here.1 there
  have runs := run_lockstep steps pairs (start_twins region region' sizes clean clean') meets meets'
  -- the first run goes through, and takes the other one with it
  have moves : ∀ s call, (∃ cells, Layout s cells) → Unmixed libc s call ∧ Definite libc s call →
      ∃ t, (sessions libc).step s call = some t ∧ ∃ cells, Layout t cells := by
    intro s call ⟨cells,layout⟩ met
    obtain ⟨t,called⟩ := call_moves layout met.2
    exact ⟨t,called,call_layout ⟨cells,layout⟩ called⟩
  obtain ⟨s,ran,_⟩ := Guarded.Machine.run_total moves ⟨_,start_layout region clean⟩ meets
  rw [ran] at runs
  obtain ⟨t,ran',twins⟩ := rel_some runs
  exact ⟨s,t,ran,ran',twins.offsets⟩

-- Two PEs whose descriptors lie elsewhere, one of them taking a freed place again.
theorem offsets_agree_reuse :
    ∃ s t, (sessions ⟨fun n => 65536 + 32 * (if n = 3 then 1 else n),fun _ => ⟨7,7,none⟩⟩).run
      (Session.start ⟨fun n => 65536 + 32 * (if n = 3 then 1 else n),fun _ => ⟨7,7,none⟩⟩ ⟨4096,64,by decide⟩)
      ([.malloc 8,.malloc 8,.free 0,.malloc 40,.malloc 4].map (Collective.on 4096)) = some s ∧
    (sessions ⟨fun n => 98304 + 48 * n,fun _ => ⟨0,1,none⟩⟩).run
      (Session.start ⟨fun n => 98304 + 48 * n,fun _ => ⟨0,1,none⟩⟩ ⟨8192,64,by decide⟩)
      ([.malloc 8,.malloc 8,.free 0,.malloc 40,.malloc 4].map (Collective.on 8192)) = some t ∧ s.offsets = t.offsets := by
  refine offsets_agree _ _ ⟨4096,64,by decide⟩ ⟨8192,64,by decide⟩ rfl rfl rfl ?_ ?_ _ (by decide +kernel) (by decide +kernel)
  · intro n
    exact Or.inr (Nat.lt_of_lt_of_le (by decide) (Nat.le_add_right 65536 _))
  · intro n
    exact Or.inr (Nat.lt_of_lt_of_le (by decide) (Nat.le_add_right 98304 _))

-- The descriptor of the second block lies in the bucket of offset 5 on one PE only. The
-- free of the block at offset 5 finds the block in front of that descriptor's one there,
-- and makes room on that PE which the other one does not have.
theorem placed_descriptor_frees :
    ¬ ∀ (libc libc' : Libc) (region region' : Region) (ops : List Collective) (s t : Session),
      region.size = region'.size → (libc.prior 0).next = none → (libc'.prior 0).next = none →
      PlacesOutside libc region.base region.size → PlacesOutside libc' region'.base region'.size →
      (sessions libc).Meets Allowed (Session.start libc region) (ops.map (Collective.on region.base)) →
      (sessions libc').Meets Allowed (Session.start libc' region') (ops.map (Collective.on region'.base)) →
      (sessions libc).run (Session.start libc region) (ops.map (Collective.on region.base)) = some s →
      (sessions libc').run (Session.start libc' region') (ops.map (Collective.on region'.base)) = some t →
      s.offsets = t.offsets := by
  intro claim
  let libc : Libc := ⟨fun n => if n = 2 then 107424 else 100000 + 32 * n,fun _ => ⟨0,0,none⟩⟩
  let libc' : Libc := ⟨fun n => 100000 + 32 * n,fun _ => ⟨0,0,none⟩⟩
  let ops : List Collective := [.malloc 10,.malloc 10,.free 0,.malloc 5,.malloc 4,.free 5,.malloc 11]
  have one : ((sessions libc).run (Session.start libc ⟨4096,20,by decide⟩)
      (ops.map (Collective.on 4096))).map Session.offsets = some [some 0,some 10,some 0,some 5,some 9] := by
    decide +kernel
  have two : ((sessions libc').run (Session.start libc' ⟨8192,20,by decide⟩)
      (ops.map (Collective.on 8192))).map Session.offsets = some [some 0,some 10,some 0,some 5,none] := by
    decide +kernel
  obtain ⟨s,ran,offsets⟩ := Option.map_eq_some_iff.mp one
  obtain ⟨t,ran',offsets'⟩ := Option.map_eq_some_iff.mp two
  have places : PlacesOutside libc 4096 20 := by
    intro n
    refine Or.inr ?_
    simp only [libc]
    split <;> omega
  have places' : PlacesOutside libc' 8192 20 := by
    intro n
    refine Or.inr ?_
    simp only [libc']
    omega
  have allowed : (sessions libc).Meets Allowed (Session.start libc ⟨4096,20,by decide⟩)
      (ops.map (Collective.on 4096)) := by decide +kernel
  have allowed' : (sessions libc').Meets Allowed (Session.start libc' ⟨8192,20,by decide⟩)
      (ops.map (Collective.on 8192)) := by decide +kernel
  have same := claim libc libc' ⟨4096,20,by decide⟩ ⟨8192,20,by decide⟩ ops s t rfl rfl rfl places places'
    allowed allowed' ran ran'
  rw [offsets,offsets'] at same
  exact absurd same (by decide)

end OpenShmem
