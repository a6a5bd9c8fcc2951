import ZRay.Pass.CounterValues
import ZRay.Pass.TagBlocks

/-!
# The records of a region, added up

The counters of a region are recorded one after the other, each with the next id.  Every block is recorded for one
counter, so it is recorded as it stood before, and the records times what a run adds to their counters come to the
instructions of the blocks that the run executes (`sum_recordCounters_run`), whatever was merged or hoisted.
-/

namespace ZRay.Pass

open FlowGraph

variable {β ν : Type*} [DecidableEq β]

/-! ### Recording the counters -/

/-- The blocks of a counter as `insertPostDomSetEvents` and `insertDynamicLoopCounter` pass them to
`recordTagBlocks`. -/
def Counter.pairs : Counter β → List (List β × UInt64)
  | .postDomSet blocks => [(blocks, 1)]
  | .scaleFactorSet _ pairs => pairs.map fun pr => (pr.1, UInt64.ofNat pr.2)
  | .dynamicLoop _ blocks => [(blocks, 1)]

/-- The ids and flags that the profiles of a region share. -/
structure RegionIds where
  pragmaRegionID : UInt64
  groupID : UInt64
  isIndirect : Bool
  enableMIRPass : Bool
  deriving DecidableEq, Repr

variable [Inhabited ν] (nameOf : Operand ν → List Char) (stackAddressList : ν → Bool)

/-- The profiles of the counters of a region, numbered from `id` on; `total` counters were inserted before. -/
def recordCounters (ids : RegionIds) : Nat → Nat → (β → List (Instruction ν)) → List (Counter β) → List ProfileData
  | _, _, _, [] => []
  | total, id, code, c :: counters =>
    let recorded := recordPairs nameOf stackAddressList total c.pairs
      ⟨code, clearedProfile ids.pragmaRegionID ids.groupID (UInt64.ofNat id) ids.isIndirect ids.enableMIRPass⟩
    recorded.profile :: recordCounters ids (total + 1) (id + 1) recorded.code counters

variable {nameOf stackAddressList}

omit [DecidableEq β] [Inhabited ν] in
/-- The blocks of a counter, with their factors as words. -/
theorem blockPairs_pairs (c : Counter β) :
    blockPairs c.pairs = c.scaledBlocks.map fun e => (e.1, UInt64.ofNat e.2) := by
  cases c with
  | postDomSet blocks => simp [blockPairs, Counter.pairs, Counter.scaledBlocks, Function.comp_def]
  | scaleFactorSet header pairs =>
    simp [blockPairs, Counter.pairs, Counter.scaledBlocks, List.flatMap_map, List.map_flatMap, Function.comp_def]
  | dynamicLoop header blocks => simp [blockPairs, Counter.pairs, Counter.scaledBlocks, Function.comp_def]

variable (nameOf stackAddressList) in
/-- Recording leaves the ids and the flags. -/
theorem ids_recordPairs (total : Nat) (pd : List (List β × UInt64)) (s : Recording β ν) :
    (recordPairs nameOf stackAddressList total pd s).profile.ids = s.profile.ids := by
  rw [recordPairs_eq]
  generalize blockPairs pd = l
  induction l generalizing s with
  | nil => rfl
  | cons e l ih =>
    rw [List.foldl_cons, ih]
    exact (adds_recordInsts nameOf stackAddressList (s.code e.1)).ids_eq e.2 s.profile

/-- Recording leaves the other blocks. -/
theorem code_recordPairs (total : Nat) (pd : List (List β × UInt64)) (s : Recording β ν) {x : β}
    (hx : x ∉ (blockPairs pd).map Prod.fst) :
    (recordPairs nameOf stackAddressList total pd s).code x = s.code x := by
  rw [recordPairs_eq]
  generalize blockPairs pd = l at hx
  induction l generalizing s with
  | nil => rfl
  | cons e l ih =>
    rw [List.map_cons, List.mem_cons, not_or] at hx
    rw [List.foldl_cons, ih _ hx.2]
    exact Function.update_of_ne hx.1 _ _

/-- One counter: its profile has the contributions of its blocks, each with its factor. -/
theorem get_recordPairs (total : Nat) (c : Counter β) (code : β → List (Instruction ν)) (p : ProfileData)
    (hp : ∀ f, p.get f = 0) (hnodup : c.blocks.Nodup) (f : SummedField) :
    (recordPairs nameOf stackAddressList total c.pairs ⟨code, p⟩).profile.get f =
      (c.scaledBlocks.map fun e =>
        UInt64.ofNat e.2 * contribution nameOf stackAddressList (code e.1) f).sum := by
  have hfst : (blockPairs c.pairs).map Prod.fst = c.blocks := by
    rw [blockPairs_pairs, List.map_map, ← c.map_fst_scaledBlocks]
    rfl
  rw [recordPairs_eq, get_foldl_recordTagBlock, turns_of_nodup _ _ (hfst ▸ hnodup), hp, UInt64.zero_add,
    blockPairs_pairs, List.map_map, List.map_map]
  rfl

/-- The profiles times the cells of their counters: every block with its factor times the cell of its counter. -/
theorem sum_recordCounters (ids : RegionIds) (cell : UInt64 → UInt64) (f : SummedField) (total id : Nat)
    (code : β → List (Instruction ν)) (counters : List (Counter β))
    (hnodup : (counters.flatMap Counter.blocks).Nodup) :
      ((recordCounters nameOf stackAddressList ids total id code counters).map fun p =>
        p.get f * cell p.postDomSetID).sum =
      ((counters.zipIdx id).map fun c => (c.1.scaledBlocks.map fun e =>
        contribution nameOf stackAddressList (code e.1) f *
          (UInt64.ofNat e.2 * cell (UInt64.ofNat c.2))).sum).sum := by
  induction counters generalizing total id code with
  | nil => rfl
  | cons c counters ih =>
    rw [List.flatMap_cons] at hnodup
    obtain ⟨hc, hrest, hdisj⟩ := List.nodup_append'.mp hnodup
    rw [recordCounters, List.map_cons, List.sum_cons, List.zipIdx_cons, List.map_cons, List.sum_cons, ih _ _ _ hrest]
    congr 1
    · have hcleared : ∀ f, (clearedProfile ids.pragmaRegionID ids.groupID (UInt64.ofNat id) ids.isIndirect
          ids.enableMIRPass).get f = 0 := by
        intro f
        cases f <;> rfl
      have hid := congrArg Prod.fst (ids_recordPairs nameOf stackAddressList total c.pairs
         ⟨code, clearedProfile ids.pragmaRegionID ids.groupID (UInt64.ofNat id) ids.isIndirect
          ids.enableMIRPass⟩)
      have hid' : (recordPairs nameOf stackAddressList total c.pairs ⟨code, clearedProfile ids.pragmaRegionID
          ids.groupID (UInt64.ofNat id) ids.isIndirect ids.enableMIRPass⟩).profile.postDomSetID = UInt64.ofNat id :=
            hid
      rw [get_recordPairs total c code _ hcleared hc f, hid', ← List.sum_map_mul_right]
      refine congrArg List.sum (List.map_congr_left fun e _ => ?_)
      rw [UInt64.mul_comm (UInt64.ofNat e.2), UInt64.mul_assoc]
    · -- the blocks of the later counters are untouched
      refine congrArg List.sum
        (List.map_congr_left fun c' hc' => congrArg List.sum (List.map_congr_left fun e he => ?_))
      have hmem : e.1 ∈ counters.flatMap Counter.blocks := by
        refine List.mem_flatMap.mpr ⟨c'.1, ?_, ?_⟩
        · have hmap := List.mem_map_of_mem (f := Prod.fst) hc'
          rwa [List.zipIdx_map_fst] at hmap
        · rw [← c'.1.map_fst_scaledBlocks]
          exact List.mem_map_of_mem he
      have hother : e.1 ∉ (blockPairs c.pairs).map Prod.fst := by
        rw [blockPairs_pairs, List.map_map]
        intro hin
        have hin' : e.1 ∈ c.scaledBlocks.map Prod.fst := hin
        rw [c.map_fst_scaledBlocks] at hin'
        exact hdisj hin' hmem
      rw [code_recordPairs total c.pairs _ hother]

/-! ### A run -/

/-- The contributions of the given blocks, once for each time the run executes them. -/
def executedTotal (nameOf : Operand ν → List Char) (stackAddressList : ν → Bool) (code : β → List (Instruction ν))
    (blocks : List β) (f : SummedField) (w : List β) : UInt64 :=
  ((w.filter fun x => x ∈ blocks).map fun x => contribution nameOf stackAddressList (code x) f).sum

omit [Inhabited ν] in
/-- Block by block: each contribution times the number of executions. -/
theorem executedTotal_eq_sum_count (code : β → List (Instruction ν)) {blocks : List β} (hnodup : blocks.Nodup)
    (f : SummedField) (w : List β) :
    executedTotal nameOf stackAddressList code blocks f w = (blocks.map fun b =>
      contribution nameOf stackAddressList (code b) f * UInt64.ofNat (w.count b)).sum := by
  induction w with
  | nil => simp [executedTotal]
  | cons x w ih =>
    have hcons : (blocks.map fun b =>
        contribution nameOf stackAddressList (code b) f * UInt64.ofNat ((x :: w).count b)).sum =
      (blocks.map fun b => contribution nameOf stackAddressList (code b) f * UInt64.ofNat (w.count b)).sum +
        (blocks.map fun b => if b = x then contribution nameOf stackAddressList (code b) f else 0).sum := by
      rw [← List.sum_map_add]
      refine congrArg List.sum (List.map_congr_left fun b _ => ?_)
      rw [List.count_cons, UInt64.ofNat_add, UInt64.mul_add]
      by_cases hx : b = x
      · simp [hx]
      · simp [hx, Ne.symm hx]
    rw [hcons, ← ih, List.sum_map_ite_eq blocks _ (fun _ => 0) x, executedTotal, List.filter_cons]
    by_cases hx : x ∈ blocks
    · rw [if_pos (by simpa using hx), List.count_eq_one_of_mem hnodup hx, List.map_cons, List.sum_cons, executedTotal,
        UInt64.add_comm]
      simp
    · rw [if_neg (by simpa using hx), List.count_eq_zero_of_not_mem hx, executedTotal]
      simp

theorem ofNat_eq_of_modEq {m n : Nat} (h : m ≡ n [MOD 2 ^ 64]) : UInt64.ofNat m = UInt64.ofNat n := by
  apply UInt64.toNat_inj.mp
  rw [UInt64.toNat_ofNat', UInt64.toNat_ofNat']
  exact h

theorem ofNat_sum {ι : Type*} (l : List ι) (n : ι → Nat) :
    UInt64.ofNat (l.map n).sum = (l.map fun i => UInt64.ofNat (n i)).sum := by
  induction l with
  | nil => rfl
  | cons i l ih => rw [List.map_cons, List.sum_cons, UInt64.ofNat_add, ih, List.map_cons, List.sum_cons]

/-- When no loop loses its trip count, every block of the region has one counter. -/
theorem blocks_perm_bbList {fn : FunctionAnalysis β} {opts : PassOptions} (hwf : LoopsWellFormed fn.loopInfo)
    {bbList : List β} (hbb : bbList.Nodup) {counters : List (Counter β)}
    (hrun : InstrumentPragmaRegion opts fn bbList = some counters)
    (hkept : opts.applyLoopHoisting = true → ∀ d ∈ (regionLoopTree fn bbList).nodes, d.scaleFactor = 0 →
      ¬ TripCountLost fn bbList d) : (counters.flatMap Counter.blocks).Perm bbList := by
  obtain ⟨counters', hrun', hrecorded⟩ := recorded_eq opts fn hwf bbList hbb
  obtain rfl : counters' = counters := Option.some.inj (hrun'.symm.trans hrun)
  refine List.perm_iff_count.mpr fun x => ?_
  show recorded x counters' = bbList.count x
  by_cases hx : x ∈ bbList
  · rw [List.count_eq_one_of_mem hbb hx]
    exact (hrecorded x).1 ⟨hx, fun hopt d hd h0 hlost => absurd hlost (hkept hopt d hd h0)⟩
  · rw [List.count_eq_zero_of_not_mem hx]
    exact (hrecorded x).2 fun hcounted => hx hcounted.1

variable (nameOf stackAddressList) in
/-- The records of a region times what a complete run adds to their counters: the instructions of the region's blocks
that the run executes. -/
theorem sum_recordCounters_run {g : FlowGraph β} {fn : FunctionAnalysis β} {opts : PassOptions}
    (hwf : LoopsWellFormed fn.loopInfo) (hnatural : ∀ L ∈ fn.loopInfo.nodes, g.NaturalLoop L.header L.blocks)
    (hexact : ExactCounts g fn) {bbList : List β} (hbb : bbList.Nodup) {counters : List (Counter β)}
    (hrun : InstrumentPragmaRegion opts fn bbList = some counters)
    (hkept : opts.applyLoopHoisting = true → ∀ d ∈ (regionLoopTree fn bbList).nodes, d.scaleFactor = 0 →
      ¬ TripCountLost fn bbList d)
    (hshared : CountsShared g fn (regionLoopTree fn bbList) counters) {tripCount : β → List β → Nat} {w : List β}
    (hw : g.Complete w) (htrips : TripsExact fn (regionLoopTree fn bbList) tripCount w) (ids : RegionIds)
    (cell : UInt64 → UInt64) (id : Nat)
    (hcell : ∀ c ∈ counters.zipIdx id, cell (UInt64.ofNat c.2) = UInt64.ofNat (c.1.value fn tripCount none w))
    (total : Nat) (code : β → List (Instruction ν)) (f : SummedField) :
    ((recordCounters nameOf stackAddressList ids total id code counters).map fun p =>
        p.get f * cell p.postDomSetID).sum =
      executedTotal nameOf stackAddressList code bbList f w := by
  have hperm := blocks_perm_bbList hwf hbb hrun hkept
  rw [sum_recordCounters ids cell f total id code counters (hperm.nodup_iff.mpr hbb),
    executedTotal_eq_sum_count code hbb f w]
  have hblock : ∀ c ∈ counters.zipIdx id, (c.1.scaledBlocks.map fun e =>
      contribution nameOf stackAddressList (code e.1) f * (UInt64.ofNat e.2 * cell (UInt64.ofNat c.2))).sum =
        (c.1.blocks.map fun b =>
          contribution nameOf stackAddressList (code b) f * UInt64.ofNat (w.count b)).sum := by
    intro c hc
    have hmem : c.1 ∈ counters := by
      have hmap := List.mem_map_of_mem (f := Prod.fst) hc
      rwa [List.zipIdx_map_fst] at hmap
    rw [← c.1.map_fst_scaledBlocks, List.map_map]
    refine congrArg List.sum (List.map_congr_left fun e he => ?_)
    have hmod := value_modEq_count hwf hnatural hexact hrun hshared hw htrips hmem he
    rw [hcell c hc, ← UInt64.ofNat_mul, ofNat_eq_of_modEq hmod]
    rfl
  have hfst : (counters.zipIdx id).map (fun c => (c.1.blocks.map fun b =>
      contribution nameOf stackAddressList (code b) f * UInt64.ofNat (w.count b)).sum) =
        counters.map fun c => (c.blocks.map fun b =>
          contribution nameOf stackAddressList (code b) f * UInt64.ofNat (w.count b)).sum := by
    have hmap := congrArg (List.map fun c : Counter β => (c.blocks.map fun b =>
      contribution nameOf stackAddressList (code b) f * UInt64.ofNat (w.count b)).sum)
        (List.zipIdx_map_fst id counters)
    rwa [List.map_map] at hmap
  rw [List.map_congr_left hblock, hfst, ← (hperm.map _).sum_eq, List.map_flatMap, List.flatMap_def, List.sum_flatten,
    List.map_map]
  rfl

end ZRay.Pass
