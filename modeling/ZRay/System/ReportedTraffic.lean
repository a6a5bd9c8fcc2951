import ZRay.Pass.RegionRecords
import ZRay.Runtime.InnermostRow

/-!
# What is reported of a region

The pass, a thread and `zray_finalize` together, with every optimisation on.  While a region is the innermost open
one, a thread runs the region's function and the clones it calls, each any number of times and one inside the other.
The increments land in the region's row, whose columns belong to the counters; the records name the columns.  So the
region's total is the sum over the runs of what the executed blocks contribute (`total_eq_executed`).  The pieces are
tied together by `credited_eq_sum`, which is about the thread, `sum_amount_increments`, about one run, and
`sum_recordCounters_run`, about one region's records.
-/

namespace ZRay

open Pass FlowGraph ByteStream

/-! ### Sums of sums -/

theorem sum_map_flatMap {ι γ M : Type*} [AddMonoid M] (l : List ι) (f : ι → List γ) (n : γ → M) :
    ((l.flatMap f).map n).sum = (l.map fun i => ((f i).map n).sum).sum := by
  rw [List.map_flatMap, List.flatMap_def, List.sum_flatten, List.map_map]
  rfl

theorem sum_map_comm {ι γ M : Type*} [AddCommMonoid M] (l : List ι) (l' : List γ) (n : ι → γ → M) :
    (l.map fun i => (l'.map fun j => n i j).sum).sum = (l'.map fun j => (l.map fun i => n i j).sum).sum := by
  induction l with
  | nil => simp
  | cons i l ih =>
    simp only [List.map_cons, List.sum_cons, ih]
    exact List.sum_map_add.symm

/-! ### The increments made in a region -/

/-- The increments a thread makes with region `r` innermost. -/
def incrementsIn (r : Nat) : List Nat → List RuntimeCall → List Increment
  | _, [] => []
  | stk, .startTimingEvent q _ :: es => incrementsIn r (q :: stk) es
  | stk, .endTimingEvent _ _ :: es => incrementsIn r stk.tail es
  | stk, .increment i :: es => (if stk.head? = some r then [i] else []) ++ incrementsIn r stk es

/-- The increments of the counters; the others are for memory intrinsics of run-time size. -/
def Increment.countsBlocks : Increment → Bool
  | .counterArray _ _ => true
  | .counterArraySF _ _ _ => true
  | _ => false

theorem credited_eq_sum (r k : Nat) (stk : List Nat) (es : List RuntimeCall) :
    credited r k stk es =
      (((incrementsIn r stk es).filter Increment.countsBlocks).map (Increment.amount k)).sum := by
  induction es generalizing stk with
  | nil => rfl
  | cons e es ih =>
    cases e with
    | startTimingEvent q now => exact ih (q :: stk)
    | endTimingEvent q now => exact ih stk.tail
    | increment i =>
      rw [credited, incrementsIn, ih, List.filter_append, List.map_append, List.sum_append]
      congr 1
      by_cases hr : stk.head? = some r
      · cases i <;> simp [hr, List.filter, Increment.countsBlocks, Increment.amount]
      · simp [hr]

/-! ### The code that is counted -/

/-- A region of a function, or the clone of a function that a region calls: its control flow, the analyses, the blocks
as they are before they are recorded, and the numbers of its counters. -/
structure CountedCode (β ν : Type*) where
  graph : FlowGraph β
  fn : FunctionAnalysis β
  bbList : List β
  code : β → List (Instruction ν)
  stackAddressList : ν → Bool
  tripCount : β → List β → Nat
  counters : List (Counter β)
  ids : RegionIds
  firstID : Nat
  total : Nat

namespace CountedCode

variable {β ν : Type*} [DecidableEq β]

/-- The increment of a counter on the edge into a loop. -/
def onEdge (C : CountedCode β ν) (prev : Option β) (x : β) (rest : List β) (c : Counter β × Nat) : List Increment :=
  match c.1 with
  | .postDomSet _ => []
  | .scaleFactorSet header _ =>
    if C.fn.enters header prev x then [.counterArray C.ids.pragmaRegionID.toNat c.2] else []
  | .dynamicLoop header _ =>
    if C.fn.enters header prev x then
      [.counterArraySF C.ids.pragmaRegionID.toNat c.2 (C.tripCount header (x :: rest))]
    else []

/-- The increment of a counter in front of a block. -/
def inBlock (C : CountedCode β ν) (x : β) (c : Counter β × Nat) : List Increment :=
  match c.1 with
  | .postDomSet blocks => if blocks.head? = some x then [.counterArray C.ids.pragmaRegionID.toNat c.2] else []
  | _ => []

/-- The increments of a run: at every step those on the edge, and then those of the block, the last one inserted
first. -/
def increments (C : CountedCode β ν) : Option β → List β → List Increment
  | _, [] => []
  | prev, x :: w =>
    (C.counters.zipIdx C.firstID).flatMap (C.onEdge prev x w) ++
      ((C.counters.zipIdx C.firstID).reverse.flatMap (C.inBlock x) ++ C.increments (some x) w)

/-- What a run adds to the column `k`. -/
def columnValue (C : CountedCode β ν) (w : List β) (k : Nat) : Nat :=
  ((C.counters.zipIdx C.firstID).map fun c =>
    if c.2 = k then c.1.value C.fn C.tripCount none w else 0).sum

/-- The profiles the pass writes for the counters. -/
def profiles [Inhabited ν] (C : CountedCode β ν) (nameOf : Operand ν → List Char) : List ProfileData :=
  recordCounters nameOf C.stackAddressList C.ids C.total C.firstID C.code C.counters

/-- The columns of the counters. -/
def columns (C : CountedCode β ν) : List Nat := List.range' C.firstID C.counters.length

variable {C : CountedCode β ν}

private theorem amount_onEdge_inBlock (k : Nat) (prev : Option β) (x : β) (rest : List β) (c : Counter β × Nat) :
    ((C.onEdge prev x rest c).map (Increment.amount k)).sum + ((C.inBlock x c).map (Increment.amount k)).sum =
      if c.2 = k then c.1.added C.fn C.tripCount prev x rest else 0 := by
  obtain ⟨counter, j⟩ := c
  cases counter with
  | postDomSet blocks =>
    simp only [onEdge, inBlock, Counter.added]
    by_cases hx : blocks.head? = some x
    · simp [hx, Increment.amount]
    · simp [hx]
  | scaleFactorSet header pairs =>
    simp only [onEdge, inBlock, Counter.added]
    cases C.fn.enters header prev x <;> simp [Increment.amount]
  | dynamicLoop header blocks =>
    simp only [onEdge, inBlock, Counter.added]
    cases C.fn.enters header prev x <;> simp [Increment.amount]

/-- The increments of a run add up to the values of the counters, column by column. -/
theorem sum_amount_increments (k : Nat) (prev : Option β) (w : List β) :
    ((C.increments prev w).map (Increment.amount k)).sum = ((C.counters.zipIdx C.firstID).map fun c =>
      if c.2 = k then c.1.value C.fn C.tripCount prev w else 0).sum := by
  induction w generalizing prev with
  | nil =>
    symm
    refine List.sum_eq_zero fun n hn => ?_
    obtain ⟨c, -, rfl⟩ := List.mem_map.mp hn
    simp [Counter.value]
  | cons x w ih =>
    have hperm : ((C.counters.zipIdx C.firstID).reverse.flatMap (C.inBlock x)).Perm
        ((C.counters.zipIdx C.firstID).flatMap (C.inBlock x)) := (List.reverse_perm _).flatMap_right _
    have hstep : ((C.counters.zipIdx C.firstID).map fun c =>
        if c.2 = k then c.1.value C.fn C.tripCount prev (x :: w) else 0).sum =
        ((C.counters.zipIdx C.firstID).map fun c =>
          ((C.onEdge prev x w c).map (Increment.amount k)).sum +
            ((C.inBlock x c).map (Increment.amount k)).sum).sum +
          ((C.counters.zipIdx C.firstID).map fun c =>
            if c.2 = k then c.1.value C.fn C.tripCount (some x) w else 0).sum := by
      rw [← List.sum_map_add]
      refine congrArg List.sum (List.map_congr_left fun c _ => ?_)
      rw [amount_onEdge_inBlock]
      by_cases hk : c.2 = k
      · simp [hk, Counter.value]
      · simp [hk]
    rw [increments, List.map_append, List.sum_append, List.map_append, List.sum_append, ih, (hperm.map _).sum_eq,
      sum_map_flatMap, sum_map_flatMap, hstep, List.sum_map_add, Nat.add_assoc]

theorem columnValue_of_mem (w : List β) {c : Counter β × Nat} (hc : c ∈ C.counters.zipIdx C.firstID) :
    C.columnValue w c.2 = c.1.value C.fn C.tripCount none w := by
  unfold columnValue
  generalize C.counters = counters at hc
  generalize C.firstID = n at hc
  induction counters generalizing n with
  | nil => simp at hc
  | cons a counters ih =>
    rw [List.zipIdx_cons, List.mem_cons] at hc
    rw [List.zipIdx_cons, List.map_cons, List.sum_cons]
    rcases hc with rfl | hc
    · have hrest : ((counters.zipIdx (n + 1)).map fun c =>
          if c.2 = n then c.1.value C.fn C.tripCount none w else 0).sum = 0 := by
        refine List.sum_eq_zero fun m hm => ?_
        obtain ⟨c, hc, rfl⟩ := List.mem_map.mp hm
        have hle := List.le_snd_of_mem_zipIdx hc
        rw [if_neg (by omega)]
      rw [hrest, if_pos rfl, Nat.add_zero]
    · have hle := List.le_snd_of_mem_zipIdx hc
      rw [if_neg (show ¬ n = c.2 by omega), Nat.zero_add]
      exact ih (n + 1) hc

theorem columnValue_of_not_mem (w : List β) {k : Nat} (hk : k ∉ C.columns) : C.columnValue w k = 0 := by
  refine List.sum_eq_zero fun n hn => ?_
  obtain ⟨c, hc, rfl⟩ := List.mem_map.mp hn
  have hle := List.le_snd_of_mem_zipIdx hc
  have hlt := List.snd_lt_of_mem_zipIdx hc
  rw [if_neg]
  rintro rfl
  exact hk (List.mem_range'_1.mpr ⟨hle, by omega⟩)

end CountedCode

section

variable {β ν : Type*} [DecidableEq β]

/-- What the pass and the analyses say of the code: the counters are those of the region, no loop lost its trip count,
and the optimisations are sound for the function. -/
structure CountedCode.Instrumented (opts : PassOptions) (C : CountedCode β ν) : Prop where
  wellFormed : LoopsWellFormed C.fn.loopInfo
  natural : ∀ L ∈ C.fn.loopInfo.nodes, C.graph.NaturalLoop L.header L.blocks
  exact : ExactCounts C.graph C.fn
  nodup : C.bbList.Nodup
  counters_eq : InstrumentPragmaRegion opts C.fn C.bbList = some C.counters
  kept : opts.applyLoopHoisting = true → ∀ d ∈ (regionLoopTree C.fn C.bbList).nodes, d.scaleFactor = 0 →
    ¬ TripCountLost C.fn C.bbList d
  shared : CountsShared C.graph C.fn (regionLoopTree C.fn C.bbList) C.counters

/-- A complete run that keeps what scalar evolution promises. -/
structure CountedCode.IsRun (C : CountedCode β ν) (w : List β) : Prop where
  complete : C.graph.Complete w
  trips : TripsExact C.fn (regionLoopTree C.fn C.bbList) C.tripCount w

/-- Are the records of the code read in the row of region `r`?  Those of a clone are, in every row. -/
def CountedCode.readIn (activeGroupNumber : UInt64) (r : Nat) (C : CountedCode β ν) : Bool :=
  C.ids.isIndirect ||
    !(activeGroupNumber != 0 && C.ids.groupID != activeGroupNumber) && C.ids.pragmaRegionID.toNat == r

/-- The region has a record of its own. -/
def Populated (activeGroupNumber : UInt64) (cs : List (CountedCode β ν)) (r : Nat) : Prop :=
  ∃ C ∈ cs, C.ids.isIndirect = false ∧ C.readIn activeGroupNumber r = true ∧ C.counters ≠ []

/-- The module: its rows are wide enough, an `int` counts the cells of its `n` rows, and no two codes share a
column of a row. -/
structure Laid (activeGroupNumber : UInt64) (opts : PassOptions) (cfg : RuntimeConfig) (n : Nat)
    (cs : List (CountedCode β ν)) : Prop where
  instrumented : ∀ C ∈ cs, C.Instrumented opts
  columns_lt : ∀ C ∈ cs, ∀ k ∈ C.columns, k < cfg.counterDimension
  fits : cfg.counterDimension * n ≤ 2 ^ 31
  disjoint : cs.Pairwise fun C D => ∀ r, C.readIn activeGroupNumber r = true → D.readIn activeGroupNumber r = true →
    C.columns.Disjoint D.columns

/-- The row of region `r` holds what the runs made in it add to the columns. -/
structure HoldsRuns (cfg : RuntimeConfig) (m : RuntimeArrays) (r : Nat) (runs : List (CountedCode β ν × List β)) :
    Prop where
  counterDimension : m.counterDimension.toNat = cfg.counterDimension
  row : ∀ k < cfg.counterDimension, m.counterArray ((k + cfg.counterDimension * r : Nat) : Int) =
    UInt64.ofNat (runs.map fun x => x.1.columnValue x.2 k).sum

end

/-- The arrays of a thread as `zray_finalize` finds them. -/
def ThreadState.runtimeArrays (cfg : RuntimeConfig) (s : ThreadState) : RuntimeArrays where
  counterDimension := UInt64.ofNat cfg.counterDimension
  counterArray := fun i => UInt64.ofNat (s.counterArray i.toNat)
  loadRuntimeArray := fun i => UInt64.ofNat (s.loadRuntimeArray i.toNat)
  storeRuntimeArray := fun i => UInt64.ofNat (s.storeRuntimeArray i.toNat)

theorem runtimeArrays_counterArray (cfg : RuntimeConfig) (s : ThreadState) (k r : Nat) :
    (s.runtimeArrays cfg).counterArray ((k + cfg.counterDimension * r : Nat) : Int) =
      UInt64.ofNat (s.counterArray (k + r * cfg.counterDimension)) := by
  show UInt64.ofNat (s.counterArray _) = _
  rw [Int.toNat_natCast, Nat.mul_comm cfg.counterDimension]

/-! ### Profiles -/

section profiles

variable {β ν : Type*} [DecidableEq β] [Inhabited ν] {nameOf : Operand ν → List Char}

/-- A profile of the region carries its ids, and the next number. -/
theorem mem_recordCounters {stackAddressList : ν → Bool} {ids : RegionIds} {total id : Nat}
    {code : β → List (Instruction ν)} {counters : List (Counter β)} {p : ProfileData}
    (hp : p ∈ recordCounters nameOf stackAddressList ids total id code counters) :
    p.pragmaRegionID = ids.pragmaRegionID ∧ p.groupNumber = ids.groupID ∧ p.isIndirect = ids.isIndirect ∧
      ∃ k ∈ List.range' id counters.length, p.postDomSetID = UInt64.ofNat k := by
  induction counters generalizing total id code with
  | nil => simp [recordCounters] at hp
  | cons c counters ih =>
    rw [recordCounters, List.mem_cons] at hp
    rcases hp with rfl | hp
    · have hids := ids_recordPairs nameOf stackAddressList total c.pairs
        ⟨code, clearedProfile ids.pragmaRegionID ids.groupID (UInt64.ofNat id) ids.isIndirect ids.enableMIRPass⟩
      have hid := congrArg (fun i => i.1) hids
      have hregion := congrArg (fun i => i.2.1) hids
      have hgroup := congrArg (fun i => i.2.2.1) hids
      have hindirect := congrArg (fun i => i.2.2.2.1) hids
      refine ⟨hregion, hgroup, hindirect, id, ?_, hid⟩
      simp
    · obtain ⟨hregion, hgroup, hindirect, k, hk, hid⟩ := ih hp
      refine ⟨hregion, hgroup, hindirect, k, ?_, hid⟩
      rw [List.mem_range'_1] at hk ⊢
      simp only [List.length_cons]
      omega

theorem length_recordCounters (stackAddressList : ν → Bool) (ids : RegionIds) (total id : Nat)
    (code : β → List (Instruction ν)) (counters : List (Counter β)) :
    (recordCounters nameOf stackAddressList ids total id code counters).length = counters.length := by
  induction counters generalizing total id code with
  | nil => rfl
  | cons c counters ih => rw [recordCounters, List.length_cons, ih, List.length_cons]

/-- The profile is read in the row of region `r`. -/
def readProfile (activeGroupNumber : UInt64) (r : Nat) (p : ProfileData) : Bool :=
  p.isIndirect || groupSelected activeGroupNumber p && p.pragmaRegionID.toNat == r

theorem readProfile_of_mem {C : CountedCode β ν} {p : ProfileData} (hp : p ∈ C.profiles nameOf)
    (activeGroupNumber : UInt64) (r : Nat) : readProfile activeGroupNumber r p = C.readIn activeGroupNumber r := by
  obtain ⟨hregion, hgroup, hindirect, -⟩ := mem_recordCounters hp
  rw [readProfile, groupSelected, CountedCode.readIn, hregion, hgroup, hindirect]

end profiles

/-! ### One row of the counters -/

section row

variable {β ν : Type*} [DecidableEq β]

/-- The row of a region holds what the runs in it add to its columns. -/
theorem row_of_runs {cfg : RuntimeConfig} (hperiod : cfg.samplingPeriod = 1) {es : List RuntimeCall} {stk : List Nat}
    (hes : FreshRun [] es stk) (hsets : ∀ e ∈ es, e.SetBelow cfg.counterDimension) {r : Nat}
    {runs : List (CountedCode β ν × List β)}
    (hmade : ((incrementsIn r [] es).filter Increment.countsBlocks).Perm
      (runs.flatMap fun x => x.1.increments none x.2)) {k : Nat} (hk : k < cfg.counterDimension) :
    (run cfg .initial es).counterArray (k + r * cfg.counterDimension) =
      (runs.map fun x => x.1.columnValue x.2 k).sum := by
  rw [counterArray_of_freshRun hperiod hes hsets hk, credited_eq_sum, (hmade.map _).sum_eq, sum_map_flatMap]
  refine congrArg List.sum (List.map_congr_left fun x _ => ?_)
  rw [CountedCode.sum_amount_increments]
  rfl

end row

/-! ### The total of a region -/

section total

variable {β ν : Type*} [DecidableEq β] [Inhabited ν] {nameOf : Operand ν → List Char} {activeGroupNumber : UInt64}
  {opts : PassOptions} {cfg : RuntimeConfig} {n : Nat} {cs : List (CountedCode β ν)}

omit [Inhabited ν] in
/-- The direct records of a region and the indirect ones are those that are read in its row. -/
theorem directTotal_add_indirectTotal (m : RuntimeArrays) (es : List LogEntry) (r : UInt64) (f : SummedField) :
    directTotal (groupSelected activeGroupNumber) m es r f + indirectTotal m es r f =
      (((es.map fun e => e.inProfile).filter (readProfile activeGroupNumber r.toNat)).map fun p =>
        m.recordTotal f p r).sum := by
  unfold directTotal indirectTotal
  induction es with
  | nil => rfl
  | cons e es ih =>
    rw [List.map_cons, List.filter_cons, List.filter_cons, List.filter_cons, readProfile, LogEntry.directOf,
      LogEntry.direct]
    by_cases hindirect : e.inProfile.isIndirect = true
    · simp only [hindirect, Bool.not_true, Bool.false_and, Bool.false_eq_true, if_false, Bool.true_or, if_true,
        List.map_cons, List.sum_cons]
      rw [← ih, add_left_comm]
    · by_cases hdirect : (groupSelected activeGroupNumber e.inProfile &&
          e.inProfile.pragmaRegionID.toNat == r.toNat) = true
      · simp only [hindirect, Bool.not_false, Bool.true_and, hdirect, Bool.or_true, Bool.false_eq_true, if_false,
          if_true, List.map_cons, List.sum_cons]
        rw [← ih, add_assoc]
      · simp only [hindirect, Bool.not_false, Bool.true_and, hdirect, Bool.or_false, Bool.false_eq_true, if_false]
        exact ih

omit [Inhabited ν] in
/-- The columns of the codes have cells that an `int` counts. -/
theorem Laid.column_lt (h : Laid activeGroupNumber opts cfg n cs) {C : CountedCode β ν} (hC : C ∈ cs) {k : Nat}
    (hk : k ∈ C.columns) {r : Nat} (hr : r < n) :
    k < cfg.counterDimension ∧ k + cfg.counterDimension * r < 2 ^ 31 ∧ cfg.counterDimension < 2 ^ 64 := by
  have hlt := h.columns_lt C hC k hk
  have hrow : cfg.counterDimension * (r + 1) ≤ cfg.counterDimension * n := Nat.mul_le_mul_left _ hr
  have hone : cfg.counterDimension ≤ cfg.counterDimension * (r + 1) := Nat.le_mul_of_pos_right _ (Nat.succ_pos r)
  have hfits := h.fits
  rw [Nat.mul_succ] at hrow hone
  omega

/-- The records of one code times what the runs add to its columns. -/
theorem sum_profiles (h : Laid activeGroupNumber opts cfg n cs) {m : RuntimeArrays}
    {runs : List (CountedCode β ν × List β)} {r : UInt64} (hr : r.toNat < n) (hm : HoldsRuns cfg m r.toNat runs)
    {f : SummedField} (hf : f ≠ .intrinsicLoad ∧ f ≠ .intrinsicStore) {C : CountedCode β ν} (hC : C ∈ cs) :
    ((C.profiles nameOf).map fun p => m.recordTotal f p r).sum =
      (runs.map fun x => ((C.profiles nameOf).map fun p =>
        p.get f * UInt64.ofNat (x.1.columnValue x.2 p.postDomSetID.toNat)).sum).sum := by
  rw [sum_map_comm]
  refine congrArg List.sum (List.map_congr_left fun p hp => ?_)
  obtain ⟨-, -, -, k, hk, hid⟩ := mem_recordCounters hp
  obtain ⟨hlt, hcell, hdim⟩ := h.column_lt hC hk hr
  have hidNat : p.postDomSetID.toNat = k := by
    rw [hid, UInt64.toNat_ofNat', Nat.mod_eq_of_lt (by omega)]
  have hruntime : ∀ i, m.runtimeCell f i = 0 := by
    intro i
    obtain ⟨hload, hstore⟩ := hf
    cases f <;> first | rfl | exact absurd rfl hload | exact absurd rfl hstore
  have hvalue : m.counterArray (m.cell p.postDomSetID r) =
      UInt64.ofNat (runs.map fun x => x.1.columnValue x.2 k).sum := by
    rw [← hm.row k hlt, RuntimeArrays.cell, hidNat, hm.counterDimension]
  rw [RuntimeArrays.recordTotal, hruntime, hvalue, UInt64.add_zero, ofNat_sum, ← List.sum_map_mul_left, hidNat]

/-- A run of a code: the records of the other codes have nothing in the columns it adds to. -/
theorem sum_codes (h : Laid activeGroupNumber opts cfg n cs) {r : UInt64} (hr : r.toNat < n) {f : SummedField}
    {D : CountedCode β ν} (hD : D ∈ cs) (hread : D.readIn activeGroupNumber r.toNat = true) {w : List β}
    (hw : D.IsRun w) :
    (cs.map fun C => if C.readIn activeGroupNumber r.toNat then ((C.profiles nameOf).map fun p =>
        p.get f * UInt64.ofNat (D.columnValue w p.postDomSetID.toNat)).sum else 0).sum =
      executedTotal nameOf D.stackAddressList D.code D.bbList f w := by
  obtain ⟨u, v, hcs⟩ := List.append_of_mem hD
  have hdisj := h.disjoint
  rw [hcs, List.pairwise_append, List.pairwise_cons] at hdisj
  obtain ⟨-, ⟨hafter, -⟩, hbefore⟩ := hdisj
  -- another code has other columns
  have hother : ∀ C ∈ cs, (∀ q, C.readIn activeGroupNumber q = true → D.readIn activeGroupNumber q = true →
      C.columns.Disjoint D.columns) → (if C.readIn activeGroupNumber r.toNat then ((C.profiles nameOf).map fun p =>
        p.get f * UInt64.ofNat (D.columnValue w p.postDomSetID.toNat)).sum else 0) = 0 := by
    intro C hC hdisjoint
    split
    · rename_i hreadC
      refine List.sum_eq_zero fun x hx => ?_
      obtain ⟨p, hp, rfl⟩ := List.mem_map.mp hx
      obtain ⟨-, -, -, k, hk, hid⟩ := mem_recordCounters hp
      obtain ⟨-, hcell, -⟩ := h.column_lt hC hk hr
      have hidNat : p.postDomSetID.toNat = k := by
        rw [hid, UInt64.toNat_ofNat', Nat.mod_eq_of_lt (by omega)]
      rw [hidNat, CountedCode.columnValue_of_not_mem w fun hkD => hdisjoint r.toNat hreadC hread hk hkD]
      exact UInt64.mul_zero
    · rfl
  have hu : ∀ C ∈ u, (if C.readIn activeGroupNumber r.toNat then ((C.profiles nameOf).map fun p =>
      p.get f * UInt64.ofNat (D.columnValue w p.postDomSetID.toNat)).sum else 0) = 0 :=
    fun C hC => hother C (hcs ▸ List.mem_append_left _ hC) (hbefore C hC D List.mem_cons_self)
  have hv : ∀ C ∈ v, (if C.readIn activeGroupNumber r.toNat then ((C.profiles nameOf).map fun p =>
      p.get f * UInt64.ofNat (D.columnValue w p.postDomSetID.toNat)).sum else 0) = 0 :=
    fun C hC => hother C (hcs ▸ List.mem_append_right u (List.mem_cons_of_mem D hC)) fun q hqC hqD =>
      (hafter C hC q hqD hqC).symm
  rw [hcs, List.map_append, List.sum_append, List.map_cons, List.sum_cons, List.map_congr_left hu,
    List.map_congr_left hv, if_pos hread]
  obtain ⟨hwf, hnatural, hexact, hnodup, hcounters, hkept, hshared⟩ := h.instrumented D hD
  have hown := sum_recordCounters_run nameOf D.stackAddressList hwf hnatural hexact hnodup hcounters hkept hshared
    hw.complete hw.trips D.ids (fun k => UInt64.ofNat (D.columnValue w k.toNat)) D.firstID (fun c hc => by
      have hk : c.2 ∈ D.columns :=
        List.mem_range'_1.mpr ⟨List.le_snd_of_mem_zipIdx hc, by have := List.snd_lt_of_mem_zipIdx hc; omega⟩
      obtain ⟨-, hcell, -⟩ := h.column_lt hD hk hr
      rw [UInt64.toNat_ofNat', Nat.mod_eq_of_lt (by omega), CountedCode.columnValue_of_mem w hc]) D.total D.code f
  have hzero : ∀ l : List (CountedCode β ν), (l.map fun _ => (0 : UInt64)).sum = 0 := by
    intro l
    simp
  rw [hzero, hzero, UInt64.zero_add, UInt64.add_zero]
  exact hown

/-- A region with a code of its own has a record that passes the filter. -/
theorem populated_of_codes {r : Nat} (hpopulated : Populated activeGroupNumber cs r)
    {entries : List LogEntry} (hentries : entries.map (·.inProfile) = cs.flatMap (·.profiles nameOf)) :
    populated (groupSelected activeGroupNumber) entries r = true := by
  obtain ⟨C, hC, hdirect, hread, hcounters⟩ := hpopulated
  have hlength : (C.profiles nameOf).length = C.counters.length := length_recordCounters _ _ _ _ _ _
  obtain ⟨p, hp⟩ : ∃ p, p ∈ C.profiles nameOf := by
    apply List.exists_mem_of_length_pos
    rw [hlength]
    exact List.length_pos_iff.mpr hcounters
  have hmem : p ∈ entries.map (·.inProfile) := by
    rw [hentries]
    exact List.mem_flatMap.mpr ⟨C, hC, hp⟩
  obtain ⟨e, he, rfl⟩ := List.mem_map.mp hmem
  obtain ⟨-, -, hindirect, -⟩ := mem_recordCounters hp
  have hreadp := readProfile_of_mem hp activeGroupNumber r
  rw [hread, readProfile, hindirect, hdirect, Bool.false_or] at hreadp
  refine List.any_eq_true.mpr ⟨e, he, ?_⟩
  simp only [LogEntry.directOf, LogEntry.direct, hindirect, hdirect, Bool.not_false, Bool.true_and]
  exact hreadp

/-- The records that are read in the row of a region, times what its runs add to their counters. -/
theorem directTotal_add_indirectTotal_eq_executed (h : Laid activeGroupNumber opts cfg n cs) {m : RuntimeArrays}
    {runs : List (CountedCode β ν × List β)} {r : UInt64} (hr : r.toNat < n) (hm : HoldsRuns cfg m r.toNat runs)
    (hruns : ∀ x ∈ runs, x.1 ∈ cs ∧ x.1.readIn activeGroupNumber r.toNat = true ∧ x.1.IsRun x.2)
    {entries : List LogEntry} (hentries : entries.map (·.inProfile) = cs.flatMap (·.profiles nameOf))
    {f : SummedField} (hload : f ≠ .intrinsicLoad) (hstore : f ≠ .intrinsicStore) :
    directTotal (groupSelected activeGroupNumber) m entries r f + indirectTotal m entries r f =
      (runs.map fun x => executedTotal nameOf x.1.stackAddressList x.1.code x.1.bbList f x.2).sum := by
  rw [directTotal_add_indirectTotal, hentries, List.filter_flatMap, sum_map_flatMap]
  calc (cs.map fun C => (((C.profiles nameOf).filter (readProfile activeGroupNumber r.toNat)).map fun p =>
        m.recordTotal f p r).sum).sum
      = (cs.map fun C => (runs.map fun x => if C.readIn activeGroupNumber r.toNat then
          ((C.profiles nameOf).map fun p =>
            p.get f * UInt64.ofNat (x.1.columnValue x.2 p.postDomSetID.toNat)).sum else 0).sum).sum := by
        refine congrArg List.sum (List.map_congr_left fun C hC => ?_)
        have hfilter : (C.profiles nameOf).filter (readProfile activeGroupNumber r.toNat) =
            if C.readIn activeGroupNumber r.toNat then C.profiles nameOf else [] := by
          split
          · rename_i hreadC
            exact List.filter_eq_self.mpr fun p hp => (readProfile_of_mem hp _ _).trans hreadC
          · rename_i hreadC
            exact List.filter_eq_nil_iff.mpr fun p hp => by rwa [readProfile_of_mem hp]
        rw [hfilter]
        split
        · exact sum_profiles h hr hm ⟨hload, hstore⟩ hC
        · simp
    _ = (runs.map fun x => (cs.map fun C => if C.readIn activeGroupNumber r.toNat then
          ((C.profiles nameOf).map fun p =>
            p.get f * UInt64.ofNat (x.1.columnValue x.2 p.postDomSetID.toNat)).sum else 0).sum).sum :=
        sum_map_comm cs runs _
    _ = (runs.map fun x => executedTotal nameOf x.1.stackAddressList x.1.code x.1.bbList f x.2).sum := by
        refine congrArg List.sum (List.map_congr_left fun x hx => ?_)
        obtain ⟨hD, hreadD, hw⟩ := hruns x hx
        exact sum_codes h hr hD hreadD hw

/-- The cells of the counters are counted by an `int`. -/
theorem Laid.cellsFit (h : Laid activeGroupNumber opts cfg n cs) {m : RuntimeArrays}
    (hwidth : m.counterDimension.toNat = cfg.counterDimension) {entries : List LogEntry}
    (hentries : entries.map (·.inProfile) = cs.flatMap (·.profiles nameOf)) : CellsFit m entries n := by
  intro e he q hq
  have hmem := List.mem_map_of_mem (f := (·.inProfile)) he
  rw [hentries, List.mem_flatMap] at hmem
  obtain ⟨C, hC, hp⟩ := hmem
  obtain ⟨-, -, -, k, hk, hid⟩ := mem_recordCounters hp
  obtain ⟨hlt, hcell, hdim⟩ := h.column_lt hC hk hq
  have hidNat : e.inProfile.postDomSetID.toNat = k := by
    rw [hid, UInt64.toNat_ofNat', Nat.mod_eq_of_lt (by omega)]
  rw [hidNat, hwidth]
  exact hcell

/-- What `apply_indirect_counts` leaves for a region, when region 0 gets nothing of empty regions. -/
theorem total_applyIndirectCounts_eq_executed (h : Laid activeGroupNumber opts cfg n cs) {m : RuntimeArrays}
    {runs : List (CountedCode β ν × List β)} {r : UInt64} (hr : r.toNat < n) (hm : HoldsRuns cfg m r.toNat runs)
    (hpopulated : Populated activeGroupNumber cs r.toNat)
    (hzero : r = 0 → ∀ q < n, Populated activeGroupNumber cs q)
    (hruns : ∀ x ∈ runs, x.1 ∈ cs ∧ x.1.readIn activeGroupNumber r.toNat = true ∧ x.1.IsRun x.2)
    {entries : List LogEntry} (hentries : entries.map (·.inProfile) = cs.flatMap (·.profiles nameOf))
    (counted : ProfileData → Bool) {f : SummedField} (hsplit : f ≠ .splitCounters) (hload : f ≠ .intrinsicLoad)
    (hstore : f ≠ .intrinsicStore) :
    (applyIndirectCounts m (entries.foldl (recordStep (groupSelected activeGroupNumber) counted m)
        (RegionLists.fresh n))).total r.toNat f =
      (runs.map fun x => executedTotal nameOf x.1.stackAddressList x.1.code x.1.bbList f x.2).sum := by
  have hempty : (if r = 0 then emptyRegions (groupSelected activeGroupNumber) entries n • indirectTotal m entries 0 f
      else 0) = 0 := by
    by_cases h0 : r = 0
    · have hnone : emptyRegions (groupSelected activeGroupNumber) entries n = 0 := by
        rw [emptyRegions, List.length_eq_zero_iff, List.filter_eq_nil_iff]
        intro q hq
        rw [populated_of_codes (hzero h0 q (List.mem_range.mp hq)) hentries]
        simp
      rw [if_pos h0, hnone, zero_smul]
    · rw [if_neg h0]
  rw [total_finalize_eq (h.cellsFit hm.counterDimension hentries) hr hsplit, hempty, add_zero,
    if_pos (populated_of_codes hpopulated hentries)]
  exact directTotal_add_indirectTotal_eq_executed h hr hm hruns hentries hload hstore

omit [Inhabited ν] in
/-- After a run of a thread, its arrays hold what the runs in a region add. -/
theorem holdsRuns_runtimeArrays (hperiod : cfg.samplingPeriod = 1) {es : List RuntimeCall} {stk : List Nat}
    (hes : FreshRun [] es stk) (hsets : ∀ e ∈ es, e.SetBelow cfg.counterDimension)
    (hdim : cfg.counterDimension < 2 ^ 64) {r : Nat} {runs : List (CountedCode β ν × List β)}
    (hmade : ((incrementsIn r [] es).filter Increment.countsBlocks).Perm
      (runs.flatMap fun x => x.1.increments none x.2)) :
    HoldsRuns cfg ((run cfg .initial es).runtimeArrays cfg) r runs where
  counterDimension := by rw [ThreadState.runtimeArrays, UInt64.toNat_ofNat', Nat.mod_eq_of_lt hdim]
  row := fun k hk => by rw [runtimeArrays_counterArray, row_of_runs hperiod hes hsets hmade hk]

end total

/-! ### Two nested loops and the clone they call -/

/-- A block of the nested loops: a load of 8 bytes in the inner loop and a store of 4 bytes in the outer one. -/
def nestedLoopsCode : Fin 5 → List (Instruction Nat)
  | 2 => [{ id := 20, opcode := .load, accessSize := 8 }]
  | 3 => [{ id := 30, opcode := .store, accessSize := 4 }]
  | _ => []

/-- The nested loops as code, its counters numbered from `firstID` on. -/
def nestedLoopsCounted (ids : RegionIds) (firstID : Nat) : CountedCode (Fin 5) Nat where
  graph := nestedLoops
  fn := nestedLoopsFunction
  bbList := nestedLoopsFunction.orderedCFG
  code := nestedLoopsCode
  stackAddressList := fun _ => false
  tripCount := fun header _ => if header.val = 1 then 5 else 3
  counters := (InstrumentPragmaRegion {} nestedLoopsFunction nestedLoopsFunction.orderedCFG).getD []
  ids := ids
  firstID := firstID
  total := firstID

/-- Along a walk the entry is executed once if it is the start, and the exit once if it is the end. -/
private theorem nestedLoops_count {a z : Fin 5} {w : List (Fin 5)} (hw : nestedLoops.Walk a w z) :
    w.count 0 = (if a = 0 then 1 else 0) ∧ w.count 4 = if z = 4 then 1 else 0 := by
  have hentry : ∀ u : Fin 5, ∀ v ∈ nestedLoops.succs u, v ≠ 0 := by decide
  have hexit : ∀ u : Fin 5, ∀ v ∈ nestedLoops.succs u, u ≠ 4 := by decide
  induction hw with
  | single a => constructor <;> simp [List.count_singleton]
  | @cons a b c w he hwalk ih =>
    rw [List.count_cons, List.count_cons, ih.1, ih.2, if_neg (hentry a b he)]
    simp [hexit a b he]

/-- The loops have one counter, and the blocks around them another. -/
private theorem nestedLoops_counters :
    InstrumentPragmaRegion {} nestedLoopsFunction nestedLoopsFunction.orderedCFG =
        some ((InstrumentPragmaRegion {} nestedLoopsFunction nestedLoopsFunction.orderedCFG).getD []) ∧
      ∀ blocks ∈ postDomSets
        ((InstrumentPragmaRegion {} nestedLoopsFunction nestedLoopsFunction.orderedCFG).getD []),
        blocks = [0, 4] := by decide

theorem nestedLoopsCounted_instrumented (ids : RegionIds) (firstID : Nat) :
    (nestedLoopsCounted ids firstID).Instrumented {} where
  wellFormed := by simp [LoopsWellFormed, nestedLoopsCounted, nestedLoopsFunction]
  natural := nestedLoops_natural
  exact := nestedLoops_latch
  nodup := by
    show [0, 1, 2, 3, 4].Nodup
    decide
  counters_eq := nestedLoops_counters.1
  kept := by
    have hcounted : ∀ d ∈ (regionLoopTree nestedLoopsFunction [0, 1, 2, 3, 4]).nodes, d.scaleFactor ≠ 0 := by decide
    exact fun _ d hd h0 => absurd h0 (hcounted d hd)
  shared := by
    refine ⟨fun b taken hset x hx w hw => ?_, nestedLoops_oncePerPass, nestedLoops_entered⟩
    have hset' : b :: taken = [0, 4] := nestedLoops_counters.2 _ hset
    obtain ⟨rfl, rfl⟩ := List.cons.inj hset'
    obtain rfl : x = 4 := by simpa using hx
    obtain ⟨z, hz, hwalk⟩ := hw
    have hlast : ∀ z : Fin 5, nestedLoops.succs z = [] → z = 4 := by decide
    obtain ⟨hzero, hfour⟩ := nestedLoops_count hwalk
    rw [hfour, if_pos (hlast z hz)]
    exact hzero.symm

/-- The outer loop runs five times, and the inner one three times in each pass. -/
def nestedLoopsRun : List (Fin 5) :=
  (0 :: ((List.replicate 5 [1, 2, 2, 2, 3]).flatten ++ [4])).filterMap fun k => nestedLoopsFunction.orderedCFG[k]?

theorem nestedLoopsCounted_isRun (ids : RegionIds) (firstID : Nat) :
    (nestedLoopsCounted ids firstID).IsRun nestedLoopsRun where
  complete := by
    have hchain : nestedLoopsRun.IsChain fun x y => y ∈ nestedLoops.succs x := by decide
    exact ⟨4, rfl, Walk.of_isChain hchain⟩
  trips := by
    have hscale : ∀ d ∈ (regionLoopTree nestedLoopsFunction [0, 1, 2, 3, 4]).nodes,
        ∀ s ∈ stretches (inLoop d.loop.blocks) nestedLoopsRun, s.count d.loop.header = d.scaleFactor := by decide
    have htrip : ∀ d ∈ (regionLoopTree nestedLoopsFunction [0, 1, 2, 3, 4]).nodes,
        (if d.loop.header.val = 1 then 5 else 3) = d.scaleFactor := by decide
    refine ⟨fun d hd _ s hs => hscale d hd s hs, fun d hd _ u s v _ hs _ => ?_⟩
    rw [hscale d hd s hs]
    show (if d.loop.header.val = 1 then 5 else 3) ≡ d.scaleFactor [MOD 2 ^ 64]
    rw [htrip d hd]

/-- The ids of a region, and of a clone. -/
def regionZero : RegionIds := ⟨0, 0, false, false⟩

def indirectClone : RegionIds := ⟨0, 0, true, false⟩

/-- The region and the clone, which has the columns behind the region's. -/
def callingCode : List (CountedCode (Fin 5) Nat) :=
  [nestedLoopsCounted regionZero 0, nestedLoopsCounted indirectClone 2]

theorem callingCode_laid : Laid 0 {} ⟨1, 4⟩ 1 callingCode where
  instrumented := by
    intro C hC
    simp only [callingCode, List.mem_cons, List.not_mem_nil, or_false] at hC
    rcases hC with rfl | rfl
    · exact nestedLoopsCounted_instrumented _ _
    · exact nestedLoopsCounted_instrumented _ _
  columns_lt := by
    intro C hC
    simp only [callingCode, List.mem_cons, List.not_mem_nil, or_false] at hC
    rcases hC with rfl | rfl
    · show ∀ k ∈ [0, 1], k < 4
      decide
    · show ∀ k ∈ [2, 3], k < 4
      decide
  fits := by decide
  disjoint := by
    rw [callingCode, List.pairwise_cons]
    refine ⟨fun D hD r _ _ => ?_, List.pairwise_singleton _ _⟩
    obtain rfl := List.mem_singleton.mp hD
    show [0, 1].Disjoint [2, 3]
    simp

/-- The thread enters the region, and the clone runs in the middle of it. -/
def callingCalls : List RuntimeCall :=
  [.startTimingEvent 0 0] ++ ([.counterArray 0 1, .counterArray 0 3, .counterArray 0 2, .counterArray 0 0].map
    RuntimeCall.increment) ++ [.endTimingEvent 0 0]

/-- The region's run, and the clone's inside it. -/
def callingRuns : List (CountedCode (Fin 5) Nat × List (Fin 5)) :=
  [(nestedLoopsCounted regionZero 0, nestedLoopsRun), (nestedLoopsCounted indirectClone 2, nestedLoopsRun)]

theorem callingCalls_fresh : FreshRun [] callingCalls [] :=
  .enter (by simp) (by decide) (.increment (.increment (.increment (.increment (.exit (.nil []))))))

theorem callingCalls_setBelow : ∀ e ∈ callingCalls, e.SetBelow 4 := by
  intro e he
  simp only [callingCalls, List.map_cons, List.map_nil, List.cons_append, List.nil_append, List.mem_cons,
    List.not_mem_nil, or_false] at he
  rcases he with rfl | rfl | rfl | rfl | rfl | rfl <;> simp [RuntimeCall.SetBelow]

theorem callingCode_populated : ∀ q < 1, Populated 0 callingCode q := by
  intro q hq
  obtain rfl : q = 0 := by omega
  exact ⟨nestedLoopsCounted regionZero 0, List.mem_cons_self, rfl, rfl, List.cons_ne_nil _ _⟩

theorem callingRuns_isRun : ∀ x ∈ callingRuns, x.1 ∈ callingCode ∧ x.1.readIn 0 0 = true ∧ x.1.IsRun x.2 := by
  intro x hx
  simp only [callingRuns, List.mem_cons, List.not_mem_nil, or_false] at hx
  rcases hx with rfl | rfl
  · exact ⟨by simp [callingCode], rfl, nestedLoopsCounted_isRun _ _⟩
  · exact ⟨by simp [callingCode], rfl, nestedLoopsCounted_isRun _ _⟩

theorem callingRuns_made : ((incrementsIn 0 [] callingCalls).filter Increment.countsBlocks).Perm
    (callingRuns.flatMap fun x => x.1.increments none x.2) := by decide

theorem map_profile_sampleRecord (ps : List ProfileData) :
    (ps.map sampleRecord).map (fun e => e.2.profile) = ps := by
  rw [List.map_map]
  exact List.map_id _

end ZRay
