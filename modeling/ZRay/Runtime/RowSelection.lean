import Mathlib.Data.List.Dedup
import Mathlib.Data.List.Perm.Subperm
import Mathlib.Data.List.Range
import ZRay.Runtime.State

/-!
# Row selection

An increment goes to the row at `counterBaseIndex`.  With `SAMPLING_PERIOD = 1` the outermost entry of a region moves
it to the region's row, and the matching exit moves it back; a re-entry returns early and leaves it where it is.  So
the row is that of the region opened last (`RowOf`), which differs from the region entered last when an enclosing
region is re-entered.
-/

namespace ZRay

open Nesting

/-! ### Where an increment goes -/

def Increment.postDomSetID : Increment → Nat
  | .counterArray _ k => k
  | .counterArraySF _ k _ => k
  | .loadArray _ k _ => k
  | .storeArray _ k _ => k
  | .loadStoreArray _ k _ => k

/-- The cell of the arrays the increment changes; none while counting is off. -/
def Increment.cell (i : Increment) (s : ThreadState) : Option Nat :=
  if s.globalDisable then none else some (i.postDomSetID + s.counterBaseIndex)

/-- The increment made in a cell of its arrays. -/
def Increment.write (i : Increment) (cell : Nat) (s : ThreadState) : ThreadState :=
  match i with
  | .counterArray _ _ => { s with counterArray := bump s.counterArray cell 1 }
  | .counterArraySF _ _ sf => { s with counterArray := bump s.counterArray cell sf }
  | .loadArray _ _ size => { s with loadRuntimeArray := bump s.loadRuntimeArray cell size }
  | .storeArray _ _ size => { s with storeRuntimeArray := bump s.storeRuntimeArray cell size }
  | .loadStoreArray _ _ size =>
    { s with
      loadRuntimeArray := bump s.loadRuntimeArray cell size
      storeRuntimeArray := bump s.storeRuntimeArray cell size }

/-- The increment made in the given cell, or not at all. -/
def Increment.writeAt (i : Increment) (s : ThreadState) : Option Nat → ThreadState
  | none => s
  | some cell => i.write cell s

theorem Increment.apply_eq_writeAt (i : Increment) (s : ThreadState) : i.apply s = i.writeAt s (i.cell s) := by
  unfold cell
  cases h : s.globalDisable with
  | true => exact i.apply_of_disabled h
  | false =>
    cases i <;>
      simp [apply, writeAt, write, postDomSetID, incrementCounterArray, incrementCounterArraySF, incrementLoadArray,
        incrementStoreArray, incrementLoadStoreArray, h]

/-! ### The state of a properly nested run -/

/-- `counterBaseIndex` when `stk` are the open regions, the one opened last in front. -/
def rowBase (cfg : RuntimeConfig) : List Nat → Nat
  | [] => 0
  | r :: _ => r * cfg.counterDimension

/-- The open entries are `stk`, the last one in front.  Behind the re-entries are the outermost entries, `stk.dedup`:
the row is that of the first one, and each of them has saved the row and the flag of those below it. -/
structure RowOf (cfg : RuntimeConfig) (s : ThreadState) (stk : List Nat) : Prop where
  below : ∀ r ∈ stk, r < pragmaRegionLimit
  depth : ∀ r, s.regionDepth r = stk.count r
  top : s.regionSaveTop = stk.dedup.length
  base : s.counterBaseIndex = rowBase cfg stk.dedup
  flag : s.globalDisable = stk.dedup.isEmpty
  saved : ∀ above r rest, stk.dedup = above ++ r :: rest →
    s.regionSaveStack rest.length = ⟨rowBase cfg rest, rest.isEmpty⟩

theorem RowOf.initial (cfg : RuntimeConfig) : RowOf cfg .initial [] where
  below _ h := absurd h List.not_mem_nil
  depth _ := rfl
  top := rfl
  base := rfl
  flag := rfl
  saved _ _ _ h := by simp at h

section

variable {cfg : RuntimeConfig} {s : ThreadState} {stk : List Nat} {r : Nat} {now : UInt64}

/-- Different regions below the limit: there is room for one more. -/
private theorem dedup_length_lt_limit (hbelow : ∀ q ∈ r :: stk, q < pragmaRegionLimit) (hfresh : r ∉ stk) :
    stk.dedup.length < pragmaRegionLimit := by
  have hsub : (r :: stk).dedup ⊆ List.range pragmaRegionLimit :=
    fun q hq => List.mem_range.mpr (hbelow q (List.mem_dedup.mp hq))
  have hlen := (List.Nodup.subperm (List.nodup_dedup _) hsub).length_le
  rw [List.length_range, List.dedup_cons_of_notMem hfresh] at hlen
  exact hlen

theorem RowOf.enter (hperiod : cfg.samplingPeriod = 1) (h : RowOf cfg s stk) (hr : r < pragmaRegionLimit) :
    RowOf cfg (startTimingEvent cfg r now s) (r :: stk) := by
  have hbelow : ∀ q ∈ r :: stk, q < pragmaRegionLimit := by
    intro q hq
    rcases List.mem_cons.mp hq with rfl | hq
    · exact hr
    · exact h.below q hq
  have hdepth : ∀ q, (startTimingEvent cfg r now s).regionDepth q = (r :: stk).count q := by
    intro q
    rw [startTimingEvent_regionDepth, Function.update_apply, h.depth, h.depth, List.count_cons]
    by_cases hq : q = r
    · simp [hq]
    · simp [hq, Ne.symm hq]
  by_cases hmem : r ∈ stk
  · have hopen : s.regionDepth r ≠ 0 := by
      rw [h.depth]
      exact (List.count_pos_iff.mpr hmem).ne'
    have hdedup : (r :: stk).dedup = stk.dedup := List.dedup_cons_of_mem hmem
    rw [startTimingEvent_reentry cfg r now s hopen] at hdepth ⊢
    refine ⟨hbelow, hdepth, ?_, ?_, ?_, ?_⟩ <;> rw [hdedup]
    exacts [h.top, h.base, h.flag, h.saved]
  · have hopen : s.regionDepth r = 0 := by rw [h.depth, List.count_eq_zero_of_not_mem hmem]
    have hdedup : (r :: stk).dedup = r :: stk.dedup := List.dedup_cons_of_notMem hmem
    have hsampled : sampled cfg (s.timingProfiles r).count = true := by simp [sampled, hperiod, Nat.mod_one]
    have htop : s.regionSaveTop < pragmaRegionLimit := by
      rw [h.top]
      exact dedup_length_lt_limit hbelow hmem
    rw [startTimingEvent_sampled cfg r now s hopen hsampled] at hdepth ⊢
    refine ⟨hbelow, hdepth, ?_, ?_, ?_, fun above q rest heq => ?_⟩
    · show s.regionSaveTop + 1 = (r :: stk).dedup.length
      rw [hdedup, List.length_cons, h.top]
    · rw [hdedup]
      rfl
    · rw [hdedup]
      rfl
    · show s.pushSave.regionSaveStack rest.length = _
      have hpush : s.pushSave.regionSaveStack =
          Function.update s.regionSaveStack s.regionSaveTop ⟨s.counterBaseIndex, s.globalDisable⟩ := if_pos htop
      rw [hdedup] at heq
      rw [hpush]
      cases above with
      | nil =>
        -- the entry just pushed
        obtain ⟨rfl, rfl⟩ := List.cons.inj heq
        rw [h.top, Function.update_self, h.base, h.flag]
      | cons a above =>
        have hstk : stk.dedup = above ++ q :: rest := (List.cons.inj heq).2
        have hlen : rest.length < stk.dedup.length := by
          rw [hstk, List.length_append, List.length_cons]
          omega
        rw [Function.update_of_ne (by rw [h.top]; omega)]
        exact h.saved above q rest hstk

/-- The exit that closes a region: the state of the regions around it comes back, and its time is added. -/
theorem RowOf.endTimingEvent_eq (h : RowOf cfg s (r :: stk)) (hmem : r ∉ stk) :
    endTimingEvent r now s =
      { s with
        regionDepth := Function.update s.regionDepth r 0
        regionSaveTop := s.regionSaveTop - 1
        timingProfiles := Function.update s.timingProfiles r (s.closedProfile r now)
        counterBaseIndex := rowBase cfg stk.dedup
        globalDisable := stk.dedup.isEmpty } := by
  have hopen : s.regionDepth r = 1 := by
    rw [h.depth, List.count_cons_self, List.count_eq_zero_of_not_mem hmem]
  have hdedup : (r :: stk).dedup = r :: stk.dedup := List.dedup_cons_of_notMem hmem
  have htop : s.regionSaveTop = stk.dedup.length + 1 := by rw [h.top, hdedup, List.length_cons]
  have hlimit := dedup_length_lt_limit h.below hmem
  have hsaved : s.regionSaveStack (s.regionSaveTop - 1) = ⟨rowBase cfg stk.dedup, stk.dedup.isEmpty⟩ := by
    rw [htop, Nat.add_sub_cancel]
    exact h.saved [] r stk.dedup hdedup
  rw [endTimingEvent_outermost r now s hopen (by omega) (by omega), hsaved]

/-- The exit of a region that stays open. -/
theorem RowOf.endTimingEvent_of_mem (h : RowOf cfg s (r :: stk)) (hmem : r ∈ stk) :
    endTimingEvent r now s =
      { s with regionDepth := Function.update s.regionDepth r (s.regionDepth r - 1) } := by
  have hpos := List.count_pos_iff.mpr hmem
  refine endTimingEvent_inner r now s ?_
  rw [h.depth, List.count_cons_self]
  omega

theorem RowOf.exit (h : RowOf cfg s (r :: stk)) : RowOf cfg (endTimingEvent r now s) stk := by
  have hbelow : ∀ q ∈ stk, q < pragmaRegionLimit := fun q hq => h.below q (List.mem_cons_of_mem r hq)
  have hdepth : ∀ q, (endTimingEvent r now s).regionDepth q = stk.count q := by
    intro q
    rw [endTimingEvent_regionDepth, Function.update_apply, h.depth, h.depth]
    by_cases hq : q = r
    · simp [hq]
    · simp [hq, List.count_cons_of_ne (Ne.symm hq)]
  by_cases hmem : r ∈ stk
  · have hdedup : (r :: stk).dedup = stk.dedup := List.dedup_cons_of_mem hmem
    rw [h.endTimingEvent_of_mem hmem] at hdepth ⊢
    obtain ⟨-, -, htop, hbase, hflag, hsaved⟩ := h
    rw [hdedup] at htop hbase hflag hsaved
    exact ⟨hbelow, hdepth, htop, hbase, hflag, hsaved⟩
  · have hdedup : (r :: stk).dedup = r :: stk.dedup := List.dedup_cons_of_notMem hmem
    have htop : s.regionSaveTop = stk.dedup.length + 1 := by rw [h.top, hdedup, List.length_cons]
    rw [h.endTimingEvent_eq hmem] at hdepth ⊢
    refine ⟨hbelow, hdepth, ?_, rfl, rfl, fun above q rest heq => ?_⟩
    · show s.regionSaveTop - 1 = stk.dedup.length
      omega
    · exact h.saved (r :: above) q rest (by rw [hdedup, heq]; rfl)

theorem RowOf.increment (h : RowOf cfg s stk) (i : Increment) : RowOf cfg (i.apply s) stk where
  below := h.below
  depth := by rw [i.apply_regionDepth]; exact h.depth
  top := by rw [i.apply_regionSaveTop]; exact h.top
  base := by rw [i.apply_counterBaseIndex]; exact h.base
  flag := by rw [i.apply_globalDisable]; exact h.flag
  saved := by rw [i.apply_regionSaveStack]; exact h.saved

theorem RowOf.step (hperiod : cfg.samplingPeriod = 1) (h : RowOf cfg s stk) {e : RuntimeCall} (he : e.InRange)
    {stk' : List Nat} (hstk : e.bracket.apply stk = some stk') : RowOf cfg (step cfg s e) stk' := by
  cases e with
  | startTimingEvent r now =>
    simp only [RuntimeCall.bracket, Bracket.apply, Option.some.injEq] at hstk
    exact hstk ▸ h.enter hperiod he
  | endTimingEvent r now =>
    cases stk with
    | nil => simp [RuntimeCall.bracket, Bracket.apply] at hstk
    | cons q rest =>
      simp only [RuntimeCall.bracket, Bracket.apply, Option.ite_none_right_eq_some, Option.some.injEq] at hstk
      obtain ⟨rfl, rfl⟩ := hstk
      exact h.exit
  | increment i =>
    simp only [RuntimeCall.bracket, Bracket.apply, Option.some.injEq] at hstk
    exact hstk ▸ h.increment i

/-- The rule for runs that a pushdown checker accepts. -/
theorem RowOf.run (hperiod : cfg.samplingPeriod = 1) (h : RowOf cfg s stk) {es : List RuntimeCall}
    (hes : ∀ e ∈ es, e.InRange) {stk' : List Nat} (hstk : openAfter RuntimeCall.bracket stk es = some stk') :
    RowOf cfg (run cfg s es) stk' := by
  induction es generalizing s stk with
  | nil =>
    simp only [openAfter, Option.some.injEq] at hstk
    exact hstk ▸ h
  | cons e es ih =>
    obtain ⟨stk₁, he, hstk⟩ := Option.bind_eq_some_iff.mp hstk
    exact ih (h.step hperiod (hes e List.mem_cons_self) he) (fun e' he' => hes e' (List.mem_cons_of_mem e he')) hstk

end

/-! ### The row of the last entry -/

/-- Where an increment belongs when `stk` are the open entries: in the row of the region entered last, or nowhere. -/
def Increment.cellOfLast (cfg : RuntimeConfig) (stk : List Nat) (i : Increment) : Option Nat :=
  stk.head?.map fun r => i.postDomSetID + cfg.counterDimension * r

/-- With a region open, an increment goes to the row of the region `q` exactly when `q` was opened last. -/
theorem RowOf.cell_eq_some_iff {cfg : RuntimeConfig} {s : ThreadState} {stk : List Nat} (h : RowOf cfg s stk)
    (hopen : stk ≠ []) (i : Increment) (q : Nat) :
    i.cell s = some (i.postDomSetID + cfg.counterDimension * q) ↔
      cfg.counterDimension = 0 ∨ stk.dedup.head? = some q := by
  obtain ⟨r, rest, rfl⟩ := List.exists_cons_of_ne_nil hopen
  -- some region is the one opened last
  obtain ⟨last, below, hdedup⟩ : ∃ last below, (r :: rest).dedup = last :: below :=
    List.exists_cons_of_ne_nil (List.ne_nil_of_mem (List.mem_dedup.mpr List.mem_cons_self))
  rw [Increment.cell, h.flag, h.base, hdedup]
  simp only [List.isEmpty_cons, Bool.false_eq_true, if_false, rowBase, List.head?_cons, Option.some.injEq]
  rw [Nat.add_left_cancel_iff, Nat.mul_comm last]
  by_cases hdim : cfg.counterDimension = 0
  · simp [hdim]
  · simp only [hdim, false_or]
    exact Nat.mul_right_inj hdim

theorem RowOf.cell_eq_iff {cfg : RuntimeConfig} {s : ThreadState} {stk : List Nat} (h : RowOf cfg s stk)
    (i : Increment) :
    i.cell s = i.cellOfLast cfg stk ↔ cfg.counterDimension = 0 ∨ stk.dedup.head? = stk.head? := by
  cases stk with
  | nil => simp [Increment.cell, Increment.cellOfLast, h.flag]
  | cons r rest => exact h.cell_eq_some_iff (List.cons_ne_nil r rest) i r

/-- Every increment of the run goes to the row of the region entered last, and to no other cell; outside the
regions it changes nothing. -/
def RowSelected (cfg : RuntimeConfig) (t : List RuntimeCall) : Prop :=
  ∀ pre i post, t = pre ++ .increment i :: post → ∃ stk, openAfter RuntimeCall.bracket [] pre = some stk ∧
    i.cell (run cfg .initial pre) = i.cellOfLast cfg stk ∧
    run cfg .initial (pre ++ [.increment i]) = i.writeAt (run cfg .initial pre) (i.cellOfLast cfg stk)

/-- At every increment the region entered last is the region opened last. -/
def EntersLastOpened (t : List RuntimeCall) : Prop :=
  ∀ pre i post, t = pre ++ .increment i :: post → ∀ stk, openAfter RuntimeCall.bracket [] pre = some stk →
    stk.dedup.head? = stk.head?

instance decidableEntersLastOpened (t : List RuntimeCall) : Decidable (EntersLastOpened t) :=
  decidable_of_iff (∀ n < t.length, t[n]?.map RuntimeCall.bracket = some .other →
      ∀ stk ∈ openAfter RuntimeCall.bracket [] (t.take n), stk.dedup.head? = stk.head?) (by
    constructor
    · rintro h pre i post rfl stk hstk
      refine h pre.length (by simp) (by simp [RuntimeCall.bracket]) stk ?_
      rw [List.take_left]
      exact hstk
    · intro h n hn hother stk hstk
      rw [List.getElem?_eq_getElem hn, Option.map_some, Option.some.injEq, RuntimeCall.bracket_eq_other] at hother
      obtain ⟨i, hi⟩ := hother
      refine h (t.take n) i (t.drop (n + 1)) ?_ stk hstk
      rw [← hi, ← List.drop_eq_getElem_cons hn, List.take_append_drop])

/-- With every invocation sampled, the increments of a properly nested run go to the row of the region entered last if
and only if none is made in a re-entry of a region below which another region is open. -/
theorem rowSelected_iff (cfg : RuntimeConfig) (hperiod : cfg.samplingPeriod = 1) (t : List RuntimeCall)
    (hnested : Nested RuntimeCall.bracket t) (ht : ∀ e ∈ t, e.InRange) :
    RowSelected cfg t ↔ cfg.counterDimension = 0 ∨ EntersLastOpened t := by
  have hrow : ∀ pre i post, t = pre ++ .increment i :: post → ∀ stk,
      openAfter RuntimeCall.bracket [] pre = some stk → RowOf cfg (run cfg .initial pre) stk :=
    fun pre i post heq stk hstk => (RowOf.initial cfg).run hperiod
      (fun e he => ht e (heq ▸ List.mem_append_left _ he)) hstk
  constructor
  · intro hselected
    by_cases hdim : cfg.counterDimension = 0
    · exact .inl hdim
    · refine .inr fun pre i post heq stk hstk => ?_
      obtain ⟨stk', hstk', hcell, -⟩ := hselected pre i post heq
      obtain rfl : stk' = stk := Option.some.inj (hstk'.symm.trans hstk)
      exact (((hrow pre i post heq stk' hstk).cell_eq_iff i).mp hcell).resolve_left hdim
  · intro hcond pre i post heq
    obtain ⟨stk, hstk⟩ := (heq ▸ hnested).openAfter_of_append []
    have hcell := ((hrow pre i post heq stk hstk).cell_eq_iff i).mpr
      (hcond.imp_right fun hlast => hlast pre i post heq stk hstk)
    refine ⟨stk, hstk, hcell, ?_⟩
    rw [run_append, ← hcell]
    exact i.apply_eq_writeAt _

/-- A region nested in another one, and re-entered directly. -/
theorem rowSelected_of_direct_reentry :
    RowSelected ⟨1, 4⟩ [.startTimingEvent 0 1, .startTimingEvent 1 2, .startTimingEvent 1 3,
      .increment (.counterArray 1 2), .endTimingEvent 1 4, .endTimingEvent 1 5, .increment (.counterArray 0 2),
      .endTimingEvent 0 6] := by
  refine (rowSelected_iff ⟨1, 4⟩ rfl _ (by decide) (by decide)).mpr (.inr ?_)
  decide

/-- Region 0 re-entered inside region 1: its increment goes to the row of region 1. -/
theorem not_rowSelected_of_mixed_reentry :
    Nested RuntimeCall.bracket [.startTimingEvent 0 1, .startTimingEvent 1 2, .startTimingEvent 0 3,
      .increment (.counterArray 0 2), .endTimingEvent 0 4, .endTimingEvent 1 5, .endTimingEvent 0 6] ∧
    (run ⟨1, 4⟩ .initial [.startTimingEvent 0 1, .startTimingEvent 1 2, .startTimingEvent 0 3,
      .increment (.counterArray 0 2), .endTimingEvent 0 4, .endTimingEvent 1 5, .endTimingEvent 0 6]).counterArray
        (2 + 4 * 1) = 1 ∧
    ¬ RowSelected ⟨1, 4⟩ [.startTimingEvent 0 1, .startTimingEvent 1 2, .startTimingEvent 0 3,
      .increment (.counterArray 0 2), .endTimingEvent 0 4, .endTimingEvent 1 5, .endTimingEvent 0 6] := by
  refine ⟨by decide, by decide, fun hselected => ?_⟩
  obtain ⟨stk, hstk, hcell, -⟩ :=
    hselected [.startTimingEvent 0 1, .startTimingEvent 1 2, .startTimingEvent 0 3] _ _ rfl
  obtain rfl : [0, 1, 0] = stk := Option.some.inj hstk
  exact absurd hcell (by decide)

end ZRay
