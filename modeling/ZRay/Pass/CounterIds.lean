import Mathlib.Data.List.Nodup
import Mathlib.Data.List.Perm.Subperm
import Mathlib.Data.List.Range
import ZRay.Pass.PostDomSets
import ZRay.Worklist

/-!
# Counter ids of a module

`runOnModule` numbers the counters: `RegionCounterEventTotal` within a region, `IndirectFunctionCounterOffset` within
a function clone, starting at `RegionCounterEventMax`, the largest number of ids used so far.  Clones are found while
counters are inserted and are instrumented from a worklist.  The width of a region's row, `CountArraySize`, is fixed
at the end.  The invariant (`IdsBelow`) is that the ids given out so far are below `RegionCounterEventMax` and clash
only between the own counters of different regions.

Which counters a region or a clone gets is `InstrumentPragmaRegion`'s business; here it is a parameter, so that the
numbering is proved for any number of counters of any kind.
-/

namespace ZRay.Pass

variable {α β : Type*}

/-- `PragmaRegion`: a region of a function, or the body of a clone. -/
structure PragmaRegion (α β : Type*) where
  pragmaRegionID : Nat
  groupID : Nat
  F : α
  bbList : List β

/-- The id fields of `ProfileData`, with the function name written after it. -/
structure ProfileRecord (α : Type*) where
  postDomSetID : Nat
  pragmaRegionID : Nat
  groupNumber : Nat
  isIndirect : Bool
  functionName : α
  deriving DecidableEq, Repr

/-- A module as the pass finds it: the regions `PRList`, which `runOnFunction` numbers by position, the defined
functions that the calls of a block name, the body of the clone of a function, and the counters
`InstrumentPragmaRegion` inserts for a region.  `functions` holds every name that is called. -/
structure ModuleCode (α β : Type*) where
  prList : List (PragmaRegion α β)
  prList_id : prList.map PragmaRegion.pragmaRegionID = List.range prList.length
  calls : β → List α
  functions : List α
  calls_mem : ∀ block, ∀ f ∈ calls block, f ∈ functions
  cloneName : α → α
  cloneBlocks : α → List β
  counters : PragmaRegion α β → List (Counter β)

/-- The members of `ZRayPass` the numbering depends on. -/
structure ModuleState (α : Type*) where
  globalCounterEventTotal : Nat := 0
  regionCounterEventTotal : Nat := 0
  regionCounterEventMax : Nat := 0
  indirectFunctionCounterOffset : Nat := 0
  cloneFunctionMap : List (α × Nat) := []
  clonedFunctionNames : List α := []
  pendingFunctionClones : List α := []
  pragmaRegionLog : List (ProfileRecord α) := []

section

variable [DecidableEq α]

/-- `processFunctionClone`: a function neither cloned before nor itself a clone is cloned and put on the worklist. -/
def processFunctionClone (m : ModuleCode α β) (f : α) (pragmaRegionID : Nat) (s : ModuleState α) : ModuleState α :=
  if f ∈ s.cloneFunctionMap.map Prod.fst then s
  else if f ∈ s.clonedFunctionNames then s
  else
    { s with
      cloneFunctionMap := s.cloneFunctionMap ++ [(f, pragmaRegionID)]
      clonedFunctionNames := s.clonedFunctionNames ++ [m.cloneName f]
      pendingFunctionClones := s.pendingFunctionClones ++ [f] }

/-- `processCallInst`, for a call of a defined function. -/
def processCallInst (opts : PassOptions) (m : ModuleCode α β) (pragmaRegionID : Nat) (s : ModuleState α) (f : α) :
    ModuleState α :=
  if opts.applyFunctionCloning then processFunctionClone m f pragmaRegionID s else s

/-- The calls of a list of blocks, in order. -/
def processCalls (opts : PassOptions) (m : ModuleCode α β) (pragmaRegionID : Nat) (blocks : List β)
    (s : ModuleState α) : ModuleState α :=
  (blocks.flatMap m.calls).foldl (processCallInst opts m pragmaRegionID) s

/-- The profile of the next counter, which takes the current id. -/
def newProfile (PR : PragmaRegion α β) (isIndirect : Bool) (s : ModuleState α) : ProfileRecord α where
  postDomSetID := if isIndirect then s.indirectFunctionCounterOffset else s.regionCounterEventTotal
  pragmaRegionID := PR.pragmaRegionID
  groupNumber := PR.groupID
  isIndirect := isIndirect
  functionName := PR.F

/-- One counter: `recordTagBlocks` processes the calls of its blocks, and its record is written by `insertCustomEvent`
or `insertDynamicLoopEvent`, which move the counts alike. -/
def emitCounter (opts : PassOptions) (m : ModuleCode α β) (PR : PragmaRegion α β) (isIndirect : Bool)
    (s : ModuleState α) (counter : Counter β) : ModuleState α :=
  let profile := newProfile PR isIndirect s
  let s := processCalls opts m PR.pragmaRegionID counter.blocks s
  { s with
    pragmaRegionLog := s.pragmaRegionLog ++ [profile]
    globalCounterEventTotal := s.globalCounterEventTotal + 1
    regionCounterEventTotal := s.regionCounterEventTotal + 1
    indirectFunctionCounterOffset :=
      if isIndirect then s.indirectFunctionCounterOffset + 1 else s.indirectFunctionCounterOffset }

/-- The numbering in `InstrumentPragmaRegion`. -/
def numberPragmaRegion (opts : PassOptions) (m : ModuleCode α β) (PR : PragmaRegion α β) (isIndirect : Bool)
    (s : ModuleState α) : ModuleState α :=
  if PR.bbList.isEmpty then s
  else
    let s := (m.counters PR).foldl (emitCounter opts m PR isIndirect) { s with regionCounterEventTotal := 0 }
    if !isIndirect && s.regionCounterEventMax < s.regionCounterEventTotal then
      { s with regionCounterEventMax := s.regionCounterEventTotal }
    else s

/-- The state in which the worklist loop starts. -/
def regionsNumbered (opts : PassOptions) (m : ModuleCode α β) : ModuleState α :=
  m.prList.foldl (fun s PR => numberPragmaRegion opts m PR false s)
    (m.prList.foldl (fun s PR => processCalls opts m PR.pragmaRegionID PR.bbList s) {})

/-- The worklist loop's state: the pass and the local `maxIndirect`. -/
structure CloneLoop (α : Type*) where
  pass : ModuleState α
  maxIndirect : Nat := 0

/-- The region made of the clone of a function: it belongs to the region that asked for the clone first. -/
def clonePR (m : ModuleCode α β) (key : α) (s : ModuleState α) : PragmaRegion α β where
  pragmaRegionID := (s.cloneFunctionMap.lookup key).getD 0
  groupID := 0
  F := m.cloneName key
  bbList := m.cloneBlocks key

/-- One pending clone. -/
def instrumentClone (opts : PassOptions) (m : ModuleCode α β) (l : CloneLoop α) (key : α) : CloneLoop α :=
  let s := { l.pass with indirectFunctionCounterOffset := l.pass.regionCounterEventMax }
  let s := numberPragmaRegion opts m (clonePR m key s) true s
  let s := { s with pendingFunctionClones := s.pendingFunctionClones.erase key }
  if l.maxIndirect < s.indirectFunctionCounterOffset then
    { pass :=
        if s.regionCounterEventMax < s.indirectFunctionCounterOffset then
          { s with regionCounterEventMax := s.indirectFunctionCounterOffset }
        else s
      maxIndirect := s.indirectFunctionCounterOffset }
  else { l with pass := s }

/-- `while (!PendingFunctionClones.empty())`, for at most `fuel` rounds; `none` when clones are left. -/
def instrumentClones (opts : PassOptions) (m : ModuleCode α β) : Nat → CloneLoop α → Option (CloneLoop α)
  | 0, l => if l.pass.pendingFunctionClones.isEmpty then some l else none
  | fuel + 1, l =>
    if l.pass.pendingFunctionClones.isEmpty then some l
    else instrumentClones opts m fuel (l.pass.pendingFunctionClones.foldl (instrumentClone opts m) l)

/-- `PendingFunctionClones` and the body of the loop over it. -/
def numberingWorklist (opts : PassOptions) (m : ModuleCode α β) : Worklist (CloneLoop α) α where
  pending l := l.pass.pendingFunctionClones
  visit := instrumentClone opts m

/-- What `runOnModule` leaves: the records, `ROI_Count` and `CountArraySize`. -/
structure ModuleResult (α : Type*) where
  log : List (ProfileRecord α)
  roiCount : Nat
  countArraySize : Nat

/-- `runOnModule` from the recorded regions on. -/
def runOnModule (opts : PassOptions) (m : ModuleCode α β) : Option (ModuleResult α) :=
  let s := m.prList.foldl (fun s PR => processCalls opts m PR.pragmaRegionID PR.bbList s) {}
  let s := m.prList.foldl (fun s PR => numberPragmaRegion opts m PR false s) s
  let l := if opts.applyFunctionCloning then instrumentClones opts m m.functions.length ⟨s, 0⟩ else some ⟨s, 0⟩
  l.map fun l =>
    { log := l.pass.pragmaRegionLog
      roiCount := m.prList.length
      countArraySize :=
        if l.pass.regionCounterEventMax < l.maxIndirect then l.maxIndirect else l.pass.regionCounterEventMax }

end

/-! ### Calls -/

/-- The worklist after the clones `done`: the cloned functions are functions of the module, none was cloned twice, and
the ones not done are pending. -/
structure CloneTable (m : ModuleCode α β) (done : List α) (s : ModuleState α) : Prop where
  keys_mem : ∀ f ∈ s.cloneFunctionMap.map Prod.fst, f ∈ m.functions
  keys_nodup : (s.cloneFunctionMap.map Prod.fst).Nodup
  keys_eq : s.cloneFunctionMap.map Prod.fst = done ++ s.pendingFunctionClones

/-- `s'` differs from `s` by functions put on the worklist only. -/
structure CallsProcessed (m : ModuleCode α β) (s s' : ModuleState α) : Prop where
  total_eq : s'.regionCounterEventTotal = s.regionCounterEventTotal
  max_eq : s'.regionCounterEventMax = s.regionCounterEventMax
  offset_eq : s'.indirectFunctionCounterOffset = s.indirectFunctionCounterOffset
  log_eq : s'.pragmaRegionLog = s.pragmaRegionLog
  pending : ∃ found, s'.pendingFunctionClones = s.pendingFunctionClones ++ found
  table : ∀ done, CloneTable m done s → CloneTable m done s'

namespace CallsProcessed

variable {m : ModuleCode α β} {s s' s'' : ModuleState α}

theorem refl (s : ModuleState α) : CallsProcessed m s s :=
  ⟨rfl, rfl, rfl, rfl, ⟨[], by simp⟩, fun _ h => h⟩

theorem trans (h : CallsProcessed m s s') (h' : CallsProcessed m s' s'') : CallsProcessed m s s'' where
  total_eq := h'.total_eq.trans h.total_eq
  max_eq := h'.max_eq.trans h.max_eq
  offset_eq := h'.offset_eq.trans h.offset_eq
  log_eq := h'.log_eq.trans h.log_eq
  pending := by
    obtain ⟨found, hf⟩ := h.pending
    obtain ⟨found', hf'⟩ := h'.pending
    exact ⟨found ++ found', by rw [hf', hf, List.append_assoc]⟩
  table := fun done ht => h'.table done (h.table done ht)

variable [DecidableEq α]

theorem processFunctionClone {f : α} (hf : f ∈ m.functions) (r : Nat) (s : ModuleState α) :
    CallsProcessed m s (ZRay.Pass.processFunctionClone m f r s) := by
  unfold ZRay.Pass.processFunctionClone
  split
  · exact .refl s
  · rename_i hnew
    split
    · exact .refl s
    · refine ⟨rfl, rfl, rfl, rfl, ⟨[f], rfl⟩, fun done ht => ⟨?_, ?_, ?_⟩⟩
      · intro g hg
        simp only [List.map_append, List.map_cons, List.map_nil, List.mem_append, List.mem_singleton] at hg
        rcases hg with hg | rfl
        · exact ht.keys_mem g hg
        · exact hf
      · simp only [List.map_append, List.map_cons, List.map_nil]
        refine List.Nodup.append ht.keys_nodup (List.nodup_singleton f) ?_
        intro g hg hgf
        exact hnew (List.mem_singleton.mp hgf ▸ hg)
      · simp only [List.map_append, List.map_cons, List.map_nil]
        rw [ht.keys_eq, List.append_assoc]

theorem processCalls (opts : PassOptions) (r : Nat) (blocks : List β) (s : ModuleState α) :
    CallsProcessed m s (ZRay.Pass.processCalls opts m r blocks s) := by
  have hfold : ∀ (fs : List α), (∀ f ∈ fs, f ∈ m.functions) → ∀ s,
      CallsProcessed m s (fs.foldl (ZRay.Pass.processCallInst opts m r) s) := by
    intro fs hfs
    induction fs with
    | nil => exact fun s => .refl s
    | cons f fs ih =>
      intro s
      refine .trans ?_ (ih (fun g hg => hfs g (List.mem_cons_of_mem f hg)) _)
      unfold ZRay.Pass.processCallInst
      split
      · exact .processFunctionClone (hfs f (by simp)) r s
      · exact .refl s
  refine hfold _ (fun f hf => ?_) s
  obtain ⟨block, -, hcall⟩ := List.mem_flatMap.mp hf
  exact m.calls_mem block f hcall

end CallsProcessed

/-! ### Counters of one region or clone -/

/-- The counters of a region or clone were inserted: their records carry consecutive ids from the count in use. -/
structure CountersEmitted (m : ModuleCode α β) (PR : PragmaRegion α β) (isIndirect : Bool) (n : Nat)
    (s s' : ModuleState α) : Prop where
  records : ∃ recs, s'.pragmaRegionLog = s.pragmaRegionLog ++ recs ∧
    recs.map ProfileRecord.postDomSetID =
      List.range' (if isIndirect then s.indirectFunctionCounterOffset else s.regionCounterEventTotal) n ∧
    ∀ p ∈ recs, p.pragmaRegionID = PR.pragmaRegionID ∧ p.isIndirect = isIndirect
  total_eq : s'.regionCounterEventTotal = s.regionCounterEventTotal + n
  max_eq : s'.regionCounterEventMax = s.regionCounterEventMax
  offset_eq : s'.indirectFunctionCounterOffset = s.indirectFunctionCounterOffset + if isIndirect then n else 0
  pending : ∃ found, s'.pendingFunctionClones = s.pendingFunctionClones ++ found
  table : ∀ done, CloneTable m done s → CloneTable m done s'

section

variable [DecidableEq α]

theorem countersEmitted_foldl (opts : PassOptions) (m : ModuleCode α β) (PR : PragmaRegion α β) (isIndirect : Bool)
    (counters : List (Counter β)) (s : ModuleState α) :
    CountersEmitted m PR isIndirect counters.length s (counters.foldl (emitCounter opts m PR isIndirect) s) := by
  induction counters generalizing s with
  | nil => exact ⟨⟨[], by simp⟩, rfl, rfl, by simp, ⟨[], by simp⟩, fun _ h => h⟩
  | cons c cs ih =>
    have hcalls := CallsProcessed.processCalls (m := m) opts PR.pragmaRegionID c.blocks s
    obtain ⟨found, hfound⟩ := hcalls.pending
    have hrest := ih (emitCounter opts m PR isIndirect s c)
    obtain ⟨recs, hlog, hids, hrecs⟩ := hrest.records
    obtain ⟨found', hfound'⟩ := hrest.pending
    refine ⟨⟨newProfile PR isIndirect s :: recs, ?_, ?_, ?_⟩, ?_, ?_, ?_, ⟨found ++ found', ?_⟩, ?_⟩
    · rw [List.foldl_cons, hlog]
      simp only [emitCounter, hcalls.log_eq, List.append_assoc, List.singleton_append]
    · rw [List.map_cons, hids, List.length_cons, List.range'_succ]
      cases isIndirect <;> simp [newProfile, emitCounter, hcalls.offset_eq, hcalls.total_eq]
    · intro p hp
      rcases List.mem_cons.mp hp with rfl | hp
      · exact ⟨rfl, rfl⟩
      · exact hrecs p hp
    · rw [List.foldl_cons, hrest.total_eq, List.length_cons]
      simp only [emitCounter, hcalls.total_eq]
      omega
    · rw [List.foldl_cons, hrest.max_eq]
      exact hcalls.max_eq
    · rw [List.foldl_cons, hrest.offset_eq, List.length_cons]
      cases isIndirect <;> simp [emitCounter, hcalls.offset_eq]
      omega
    · rw [List.foldl_cons, hfound']
      simp only [emitCounter, hfound, List.append_assoc]
    · intro done ht
      rw [List.foldl_cons]
      have htable := hcalls.table done ht
      exact hrest.table done ⟨htable.keys_mem, htable.keys_nodup, htable.keys_eq⟩

/-! ### The invariant -/

omit [DecidableEq α]

/-- Two records that are read for one region, or of which one belongs to a clone. -/
def ReadTogether (p q : ProfileRecord α) : Prop :=
  p.isIndirect = true ∨ q.isIndirect = true ∨ p.pragmaRegionID = q.pragmaRegionID

/-- The ids given out are below `RegionCounterEventMax`, and records read together have different ids. -/
structure IdsBelow (s : ModuleState α) : Prop where
  lt_max : ∀ p ∈ s.pragmaRegionLog, p.postDomSetID < s.regionCounterEventMax
  distinct : s.pragmaRegionLog.Pairwise fun p q => ReadTogether p q → p.postDomSetID ≠ q.postDomSetID

/-- Records with consecutive ids have different ids. -/
private theorem pairwise_ids_of_range' {recs : List (ProfileRecord α)} {a n : Nat}
    (h : recs.map ProfileRecord.postDomSetID = List.range' a n) :
    recs.Pairwise fun p q => ReadTogether p q → p.postDomSetID ≠ q.postDomSetID := by
  have hnodup : (recs.map ProfileRecord.postDomSetID).Nodup := h ▸ List.nodup_range'
  refine (List.pairwise_map.mp hnodup).imp ?_
  intro p q hne _
  exact hne

private theorem mem_ids_range' {recs : List (ProfileRecord α)} {a n : Nat}
    (h : recs.map ProfileRecord.postDomSetID = List.range' a n) {p : ProfileRecord α} (hp : p ∈ recs) :
    a ≤ p.postDomSetID ∧ p.postDomSetID < a + n := by
  have hmem : p.postDomSetID ∈ List.range' a n := h ▸ List.mem_map_of_mem hp
  exact List.mem_range'_1.mp hmem

/-- A batch of records with consecutive ids joins the log: its ids stay below the new bound, and it meets no earlier
record with which it is read, unless its ids start at the old bound. -/
theorem IdsBelow.append {s s' : ModuleState α} (h : IdsBelow s) {recs : List (ProfileRecord α)} {a n : Nat}
    (hlog : s'.pragmaRegionLog = s.pragmaRegionLog ++ recs)
    (hids : recs.map ProfileRecord.postDomSetID = List.range' a n)
    (hle : s.regionCounterEventMax ≤ s'.regionCounterEventMax) (hmax : a + n ≤ s'.regionCounterEventMax)
    (hcross : a = s.regionCounterEventMax ∨ ∀ p ∈ s.pragmaRegionLog, ∀ q ∈ recs, ¬ ReadTogether p q) :
      IdsBelow s' where
  lt_max := by
    intro p hp
    rw [hlog] at hp
    rcases List.mem_append.mp hp with hp | hp
    · exact lt_of_lt_of_le (h.lt_max p hp) hle
    · exact lt_of_lt_of_le (mem_ids_range' hids hp).2 hmax
  distinct := by
    rw [hlog]
    refine List.pairwise_append.mpr ⟨h.distinct, pairwise_ids_of_range' hids, fun p hp q hq hread => ?_⟩
    rcases hcross with rfl | hcross
    · have hlt := h.lt_max p hp
      have hge := (mem_ids_range' hids hq).1
      omega
    · exact absurd hread (hcross p hp q hq)

variable [DecidableEq α]

/-- The own counters of a region: ids from 0, and the maximum is raised when there are more of them than before. -/
theorem IdsBelow.numberPragmaRegion (opts : PassOptions) (m : ModuleCode α β) (PR : PragmaRegion α β)
    {s : ModuleState α} (h : IdsBelow s)
    (hnew : ∀ p ∈ s.pragmaRegionLog, p.isIndirect = false ∧ p.pragmaRegionID ≠ PR.pragmaRegionID) :
    IdsBelow (ZRay.Pass.numberPragmaRegion opts m PR false s) ∧
      ∀ p ∈ (ZRay.Pass.numberPragmaRegion opts m PR false s).pragmaRegionLog,
        p ∈ s.pragmaRegionLog ∨ p.isIndirect = false ∧ p.pragmaRegionID = PR.pragmaRegionID := by
  unfold ZRay.Pass.numberPragmaRegion
  split
  · exact ⟨h, fun p hp => .inl hp⟩
  · have hemit := countersEmitted_foldl opts m PR false (m.counters PR) { s with regionCounterEventTotal := 0 }
    dsimp only
    generalize
      (m.counters PR).foldl (emitCounter opts m PR false) { s with regionCounterEventTotal := 0 } = s' at hemit ⊢
    obtain ⟨recs, hlog, hids, hrecs⟩ := hemit.records
    have htotal := hemit.total_eq
    have hmax := hemit.max_eq
    simp only [Bool.false_eq_true, if_false] at hlog hids htotal hmax
    have hcross : ∀ p ∈ s.pragmaRegionLog, ∀ q ∈ recs, ¬ ReadTogether p q := by
      intro p hp q hq hread
      obtain ⟨hdirect, hregion⟩ := hnew p hp
      obtain ⟨hqregion, hqdirect⟩ := hrecs q hq
      rcases hread with hp | hq | heq
      · simp [hdirect] at hp
      · simp [hqdirect] at hq
      · exact hregion (heq.trans hqregion)
    have hmem : ∀ p ∈ s'.pragmaRegionLog,
        p ∈ s.pragmaRegionLog ∨ p.isIndirect = false ∧ p.pragmaRegionID = PR.pragmaRegionID := by
      intro p hp
      rw [hlog] at hp
      rcases List.mem_append.mp hp with hp | hp
      · exact .inl hp
      · exact .inr ⟨(hrecs p hp).2, (hrecs p hp).1⟩
    by_cases hraise : s'.regionCounterEventMax < s'.regionCounterEventTotal
    · simp only [hraise, decide_true, Bool.not_false, Bool.and_self, if_true]
      refine ⟨h.append hlog hids ?_ ?_ (.inr hcross), hmem⟩ <;> dsimp only <;> omega
    · simp only [hraise, decide_false, Bool.not_false, Bool.and_false, Bool.false_eq_true, if_false]
      refine ⟨h.append hlog hids ?_ ?_ (.inr hcross), hmem⟩ <;> omega

/-- The calls found while a region or clone is instrumented go to the end of the worklist. -/
theorem numberPragmaRegion_pending (opts : PassOptions) (m : ModuleCode α β) (PR : PragmaRegion α β)
    (isIndirect : Bool) (s : ModuleState α) :
    (∃ found, (numberPragmaRegion opts m PR isIndirect s).pendingFunctionClones = s.pendingFunctionClones ++ found) ∧
      ∀ done, CloneTable m done s → CloneTable m done (numberPragmaRegion opts m PR isIndirect s) := by
  unfold numberPragmaRegion
  split
  · exact ⟨⟨[], by simp⟩, fun _ h => h⟩
  · have hemit := countersEmitted_foldl opts m PR isIndirect (m.counters PR) { s with regionCounterEventTotal := 0 }
    have htable : ∀ done, CloneTable m done s → CloneTable m done { s with regionCounterEventTotal := 0 } :=
      fun done h => ⟨h.keys_mem, h.keys_nodup, h.keys_eq⟩
    dsimp only
    split
    · refine ⟨hemit.pending, fun done h => ?_⟩
      have h' := hemit.table done (htable done h)
      exact ⟨h'.keys_mem, h'.keys_nodup, h'.keys_eq⟩
    · exact ⟨hemit.pending, fun done h => hemit.table done (htable done h)⟩

/-- The counters of a clone: ids from `IndirectFunctionCounterOffset`, which moves past them. -/
theorem numberPragmaRegion_clone (opts : PassOptions) (m : ModuleCode α β) (PR : PragmaRegion α β)
    (s : ModuleState α) :
    ∃ n recs, (numberPragmaRegion opts m PR true s).pragmaRegionLog = s.pragmaRegionLog ++ recs ∧
      recs.map ProfileRecord.postDomSetID = List.range' s.indirectFunctionCounterOffset n ∧
      (numberPragmaRegion opts m PR true s).indirectFunctionCounterOffset = s.indirectFunctionCounterOffset + n ∧
      (numberPragmaRegion opts m PR true s).regionCounterEventMax = s.regionCounterEventMax := by
  unfold numberPragmaRegion
  split
  · exact ⟨0, [], by simp⟩
  · have hemit := countersEmitted_foldl opts m PR true (m.counters PR) { s with regionCounterEventTotal := 0 }
    obtain ⟨recs, hlog, hids, -⟩ := hemit.records
    exact ⟨(m.counters PR).length, recs, hlog, by simpa using hids, by simpa using hemit.offset_eq, hemit.max_eq⟩

/-- One clone: its ids start at the old maximum, and the maximum is raised past them. -/
theorem IdsBelow.instrumentClone (opts : PassOptions) (m : ModuleCode α β) (key : α) {l : CloneLoop α}
    (h : IdsBelow l.pass) (hle : l.maxIndirect ≤ l.pass.regionCounterEventMax) :
    IdsBelow (ZRay.Pass.instrumentClone opts m l key).pass ∧
      (ZRay.Pass.instrumentClone opts m l key).maxIndirect ≤
        (ZRay.Pass.instrumentClone opts m l key).pass.regionCounterEventMax := by
  unfold ZRay.Pass.instrumentClone
  dsimp only
  generalize hstart : { l.pass with indirectFunctionCounterOffset := l.pass.regionCounterEventMax } = s0
  obtain ⟨n, recs, hlog, hids, hoffset, hmax⟩ := numberPragmaRegion_clone opts m (clonePR m key s0) s0
  subst hstart
  dsimp only at hlog hids hoffset hmax
  generalize ZRay.Pass.numberPragmaRegion opts m _ true _ = s at hlog hoffset hmax ⊢
  split
  · split
    · refine ⟨h.append hlog hids ?_ ?_ (.inl rfl), ?_⟩ <;> dsimp only <;> omega
    · refine ⟨h.append hlog hids ?_ ?_ (.inl rfl), ?_⟩ <;> dsimp only <;> omega
  · -- the offset has not moved: the clone has no counter
    refine ⟨h.append hlog hids ?_ ?_ (.inl rfl), ?_⟩ <;> dsimp only <;> omega

/-- One clone leaves the worklist's head and adds the functions found to its end. -/
theorem instrumentClone_pending (opts : PassOptions) (m : ModuleCode α β) {key : α} {rest done : List α}
    {l : CloneLoop α} (hpending : l.pass.pendingFunctionClones = key :: rest) (htable : CloneTable m done l.pass) :
    (∃ found, (instrumentClone opts m l key).pass.pendingFunctionClones = rest ++ found) ∧
      CloneTable m (done ++ [key]) (instrumentClone opts m l key).pass := by
  unfold instrumentClone
  dsimp only
  generalize hstart : { l.pass with indirectFunctionCounterOffset := l.pass.regionCounterEventMax } = s0
  obtain ⟨⟨found, hfound⟩, hkeep⟩ := numberPragmaRegion_pending opts m (clonePR m key s0) true s0
  have htable' : CloneTable m done (numberPragmaRegion opts m (clonePR m key s0) true s0) := by
    subst hstart
    exact hkeep done ⟨htable.keys_mem, htable.keys_nodup, htable.keys_eq⟩
  have hpending0 : s0.pendingFunctionClones = key :: rest := hstart ▸ hpending
  rw [hpending0] at hfound
  generalize numberPragmaRegion opts m (clonePR m key s0) true s0 = s at hfound htable' ⊢
  have herase : s.pendingFunctionClones.erase key = rest ++ found := by
    rw [hfound, List.cons_append, List.erase_cons_head]
  have hkeys : s.cloneFunctionMap.map Prod.fst = (done ++ [key]) ++ (rest ++ found) := by
    rw [htable'.keys_eq, hfound, List.append_assoc, List.singleton_append, List.cons_append]
  split
  · split
    · exact ⟨⟨found, herase⟩, ⟨htable'.keys_mem, htable'.keys_nodup, by dsimp only; rw [herase, hkeys]⟩⟩
    · exact ⟨⟨found, herase⟩, ⟨htable'.keys_mem, htable'.keys_nodup, by dsimp only; rw [herase, hkeys]⟩⟩
  · exact ⟨⟨found, herase⟩, ⟨htable'.keys_mem, htable'.keys_nodup, by dsimp only; rw [herase, hkeys]⟩⟩

/-! ### The worklist -/

theorem instrumentClones_eq_drain (opts : PassOptions) (m : ModuleCode α β) (fuel : Nat) (l : CloneLoop α) :
    instrumentClones opts m fuel l = (numberingWorklist opts m).drain fuel l := by
  induction fuel generalizing l with
  | zero => rfl
  | succ fuel ih =>
    unfold instrumentClones Worklist.drain
    rw [ih]
    rfl

/-- The state of the worklist loop after the clones `done`. -/
structure CloneLoopInv (m : ModuleCode α β) (done : List α) (l : CloneLoop α) : Prop where
  ids : IdsBelow l.pass
  maxIndirect_le : l.maxIndirect ≤ l.pass.regionCounterEventMax
  table : CloneTable m done l.pass

/-- The worklist empties: a round does at least one clone, and there are only so many functions. -/
theorem sound_numberingWorklist (opts : PassOptions) (m : ModuleCode α β) :
    (numberingWorklist opts m).Sound m.functions (CloneLoopInv m) where
  nodup h := h.table.keys_eq ▸ h.table.keys_nodup
  mem h := h.table.keys_eq ▸ h.table.keys_mem
  visit := by
    intro done l key rest h hpending
    obtain ⟨hfound, htable⟩ := instrumentClone_pending opts m hpending h.table
    obtain ⟨hids, hle⟩ := h.ids.instrumentClone opts m key h.maxIndirect_le
    exact ⟨⟨hids, hle, htable⟩, hfound⟩

/-! ### The module -/

/-- The first loop over the regions clones functions only. -/
private theorem callsProcessed_prList (opts : PassOptions) (m : ModuleCode α β) (prs : List (PragmaRegion α β))
    (s : ModuleState α) :
    CallsProcessed m s (prs.foldl (fun s PR => processCalls opts m PR.pragmaRegionID PR.bbList s) s) := by
  induction prs generalizing s with
  | nil => exact .refl s
  | cons PR prs ih => exact (CallsProcessed.processCalls opts _ _ s).trans (ih _)

/-- The second loop over the regions: regions with different ids, none of which has a counter yet. -/
private theorem idsBelow_prList (opts : PassOptions) (m : ModuleCode α β) (prs : List (PragmaRegion α β))
    (s : ModuleState α) (h : IdsBelow s) (hnodup : (prs.map PragmaRegion.pragmaRegionID).Nodup)
    (hnew : ∀ p ∈ s.pragmaRegionLog, p.isIndirect = false ∧ ∀ PR ∈ prs, p.pragmaRegionID ≠ PR.pragmaRegionID) :
    IdsBelow (prs.foldl (fun s PR => numberPragmaRegion opts m PR false s) s) ∧
      ∀ done, CloneTable m done s →
        CloneTable m done (prs.foldl (fun s PR => numberPragmaRegion opts m PR false s) s) := by
  induction prs generalizing s with
  | nil => exact ⟨h, fun _ ht => ht⟩
  | cons PR prs ih =>
    rw [List.map_cons, List.nodup_cons] at hnodup
    obtain ⟨hPR, hnodup⟩ := hnodup
    obtain ⟨hids, hlog⟩ := h.numberPragmaRegion opts m PR fun p hp => ⟨(hnew p hp).1, (hnew p hp).2 PR (by simp)⟩
    have hrest := ih (numberPragmaRegion opts m PR false s) hids hnodup fun p hp => by
      rcases hlog p hp with hold | ⟨hdirect, hregion⟩
      · exact ⟨(hnew p hold).1, fun PR' hPR' => (hnew p hold).2 PR' (List.mem_cons_of_mem PR hPR')⟩
      · refine ⟨hdirect, fun PR' hPR' heq => hPR ?_⟩
        rw [← hregion, heq]
        exact List.mem_map_of_mem hPR'
    exact ⟨hrest.1, fun done ht => hrest.2 done ((numberPragmaRegion_pending opts m PR false s).2 done ht)⟩

omit [DecidableEq α] in
private theorem idsBelow_empty : IdsBelow ({} : ModuleState α) :=
  ⟨fun _ hp => absurd hp List.not_mem_nil, List.Pairwise.nil⟩

omit [DecidableEq α] in
private theorem cloneTable_empty (m : ModuleCode α β) : CloneTable m [] ({} : ModuleState α) :=
  ⟨fun _ hf => absurd hf List.not_mem_nil, List.nodup_nil, rfl⟩

theorem cloneLoopInv_regionsNumbered (opts : PassOptions) (m : ModuleCode α β) :
    CloneLoopInv m [] ⟨regionsNumbered opts m, 0⟩ := by
  have hcalls := callsProcessed_prList opts m m.prList {}
  have hregions := idsBelow_prList opts m m.prList
    (m.prList.foldl (fun s PR => processCalls opts m PR.pragmaRegionID PR.bbList s) {})
    ⟨by rw [hcalls.log_eq, hcalls.max_eq]; exact idsBelow_empty.lt_max, by
      rw [hcalls.log_eq]; exact idsBelow_empty.distinct⟩
    (m.prList_id ▸ List.nodup_range) (by rw [hcalls.log_eq]; simp)
  obtain ⟨hids, htable⟩ := hregions
  exact ⟨hids, Nat.zero_le _, htable [] (hcalls.table [] (cloneTable_empty m))⟩

theorem runOnModule_eq (opts : PassOptions) (m : ModuleCode α β) :
    runOnModule opts m = (if opts.applyFunctionCloning then
        (numberingWorklist opts m).drain m.functions.length ⟨regionsNumbered opts m, 0⟩
      else some ⟨regionsNumbered opts m, 0⟩).map fun l => ⟨l.pass.pragmaRegionLog, m.prList.length,
        if l.pass.regionCounterEventMax < l.maxIndirect then l.maxIndirect else l.pass.regionCounterEventMax⟩ := by
  rw [← instrumentClones_eq_drain]
  rfl

/-- `runOnModule` ends, with the invariant. -/
theorem exists_runOnModule (opts : PassOptions) (m : ModuleCode α β) :
    ∃ s : ModuleState α, runOnModule opts m = some ⟨s.pragmaRegionLog, m.prList.length, s.regionCounterEventMax⟩ ∧
      IdsBelow s := by
  have hstart := cloneLoopInv_regionsNumbered opts m
  rw [runOnModule_eq]
  by_cases hopt : opts.applyFunctionCloning = true
  · obtain ⟨l, done, hrun, -, hinv⟩ :=
      (sound_numberingWorklist opts m).drain m.functions.length hstart (Nat.le_add_right _ _)
    have hmax : ¬ l.pass.regionCounterEventMax < l.maxIndirect := Nat.not_lt.mpr hinv.maxIndirect_le
    exact ⟨l.pass, by simp [hopt, hrun, hmax], hinv.ids⟩
  · exact ⟨regionsNumbered opts m, by simp [hopt], hstart.ids⟩

omit [DecidableEq α]

/-- What the numbering promises the runtime, whose rows are `countArraySize` wide: the own counters of a region have
distinct ids; the ids of clones clash with no others; every id is inside the row of every region; and the records read
for one region are read from distinct cells. -/
structure CounterIdsAllocated (r : ModuleResult α) : Prop where
  region_nodup : ∀ id, ((r.log.filter fun p => !p.isIndirect && p.pragmaRegionID == id).map
    ProfileRecord.postDomSetID).Nodup
  clone_disjoint : r.log.Pairwise fun p q =>
    p.isIndirect = true ∨ q.isIndirect = true → p.postDomSetID ≠ q.postDomSetID
  lt_countArraySize : ∀ p ∈ r.log, p.postDomSetID < r.countArraySize
  cell_lt : ∀ p ∈ r.log, ∀ id < r.roiCount,
    p.postDomSetID + id * r.countArraySize < r.countArraySize * r.roiCount
  cells_nodup : ∀ id, ((r.log.filter fun p => p.isIndirect || p.pragmaRegionID == id).map
    fun p => p.postDomSetID + id * r.countArraySize).Nodup

/-- A cell inside the row of a region lies inside the arrays. -/
private theorem cell_lt_of_lt {i id size count : Nat} (hi : i < size) (hid : id < count) :
    i + id * size < size * count := by
  have hrow : size * (id + 1) ≤ size * count := Nat.mul_le_mul_left size hid
  rw [Nat.mul_add, Nat.mul_one, Nat.mul_comm size id] at hrow
  omega

variable [DecidableEq α]

/-- For every module, cloning on or off, the pass ends and allocates the counter ids well. -/
theorem counterIds_allocated (opts : PassOptions) (m : ModuleCode α β) :
    ∃ r, runOnModule opts m = some r ∧ r.roiCount = m.prList.length ∧ CounterIdsAllocated r := by
  obtain ⟨s, hrun, hids⟩ := exists_runOnModule opts m
  refine ⟨_, hrun, rfl, ?_, ?_, hids.lt_max, ?_, ?_⟩
  · intro id
    refine List.pairwise_map.mpr ((List.Pairwise.and_mem.mp (hids.distinct.filter _)).imp ?_)
    rintro p q ⟨hp, hq, hne⟩
    simp only [List.mem_filter, Bool.and_eq_true, beq_iff_eq] at hp hq
    exact hne (.inr (.inr (hp.2.2.trans hq.2.2.symm)))
  · refine hids.distinct.imp ?_
    rintro p q hne (hp | hq)
    · exact hne (.inl hp)
    · exact hne (.inr (.inl hq))
  · intro p hp id hid
    exact cell_lt_of_lt (hids.lt_max p hp) hid
  · intro id
    refine List.pairwise_map.mpr ((List.Pairwise.and_mem.mp (hids.distinct.filter _)).imp ?_)
    rintro p q ⟨hp, hq, hne⟩ heq
    simp only [List.mem_filter, Bool.or_eq_true, beq_iff_eq] at hp hq
    have hread : ReadTogether p q := by
      rcases hp.2 with hp | hp
      · exact .inl hp
      · rcases hq.2 with hq | hq
        · exact .inr (.inl hq)
        · exact .inr (.inr (hp.trans hq.symm))
    exact hne hread (Nat.add_right_cancel heq)

end

end ZRay.Pass
