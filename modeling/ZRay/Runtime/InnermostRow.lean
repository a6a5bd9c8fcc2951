import Mathlib.Data.List.Nodup
import Mathlib.Data.List.Perm.Subperm
import Mathlib.Data.List.Range
import ZRay.Runtime.RowSelection

/-!
# The row of the innermost region

With `SAMPLING_PERIOD = 1` every invocation is counted.  In a properly nested run that never re-enters an open region,
`counterBaseIndex` is then the row of the innermost open region, and an increment lands in that row whatever region it
was emitted for (`counterArray_of_freshRun`).
-/

namespace ZRay

/-- A run from the stack `stk` of open regions to another one: a region is entered when it is not open, and the
innermost one exits. -/
inductive FreshRun : List Nat → List RuntimeCall → List Nat → Prop
  | nil (stk : List Nat) : FreshRun stk [] stk
  | enter {stk stk' : List Nat} {r : Nat} {now : UInt64} {es : List RuntimeCall} :
      r ∉ stk → r < pragmaRegionLimit → FreshRun (r :: stk) es stk' →
        FreshRun stk (.startTimingEvent r now :: es) stk'
  | exit {stk stk' : List Nat} {r : Nat} {now : UInt64} {es : List RuntimeCall} :
      FreshRun stk es stk' → FreshRun (r :: stk) (.endTimingEvent r now :: es) stk'
  | increment {stk stk' : List Nat} {i : Increment} {es : List RuntimeCall} :
      FreshRun stk es stk' → FreshRun stk (.increment i :: es) stk'

theorem FreshRun.append {stk₁ stk₂ stk₃ : List Nat} {u v : List RuntimeCall} (hu : FreshRun stk₁ u stk₂)
    (hv : FreshRun stk₂ v stk₃) : FreshRun stk₁ (u ++ v) stk₃ := by
  induction hu with
  | nil => exact hv
  | enter hfresh hr _ ih => exact .enter hfresh hr (ih hv)
  | exit _ ih => exact .exit (ih hv)
  | increment _ ih => exact .increment (ih hv)

/-- What an increment adds to the counter of set `k`. -/
def Increment.amount (k : Nat) : Increment → Nat
  | .counterArray _ k' => if k' = k then 1 else 0
  | .counterArraySF _ k' sf => if k' = k then sf else 0
  | _ => 0

/-- What a run from the stack `stk` adds to set `k` while region `r` is the innermost one. -/
def credited (r k : Nat) : List Nat → List RuntimeCall → Nat
  | _, [] => 0
  | stk, .startTimingEvent q _ :: es => credited r k (q :: stk) es
  | stk, .endTimingEvent _ _ :: es => credited r k stk.tail es
  | stk, .increment i :: es => (if stk.head? = some r then i.amount k else 0) + credited r k stk es

theorem FreshRun.credited_append {r k : Nat} {stk stk' : List Nat} {u : List RuntimeCall} (h : FreshRun stk u stk')
    (v : List RuntimeCall) : credited r k stk (u ++ v) = credited r k stk u + credited r k stk' v := by
  induction h with
  | nil => simp [credited]
  | enter _ _ _ ih => exact ih
  | exit _ ih => exact ih
  | increment _ ih =>
    simp only [List.cons_append, credited, ih]
    omega

/-- The increments of set ids below the width of a row. -/
def RuntimeCall.SetBelow (n : Nat) : RuntimeCall → Prop
  | .increment (.counterArray _ k) => k < n
  | .increment (.counterArraySF _ k _) => k < n
  | _ => True

/-! ### The state of a fresh run -/

/-- Every open region is sampled, and the innermost one counts. -/
structure CountsInnermost (cfg : RuntimeConfig) (s : ThreadState) (stk : List Nat) : Prop where
  nodup : stk.Nodup
  below : ∀ r ∈ stk, r < pragmaRegionLimit
  depth : ∀ r, s.regionDepth r = stk.count r
  top : s.regionSaveTop = stk.length
  base : s.counterBaseIndex = rowBase cfg stk
  flag : s.globalDisable = stk.isEmpty
  saved : ∀ above r rest, stk = above ++ r :: rest →
    s.regionSaveStack rest.length = ⟨rowBase cfg rest, rest.isEmpty⟩

/-- The open entries of a fresh run are all outermost ones. -/
theorem RowOf.countsInnermost {cfg : RuntimeConfig} {s : ThreadState} {stk : List Nat} (h : RowOf cfg s stk)
    (hnodup : stk.Nodup) : CountsInnermost cfg s stk := by
  obtain ⟨hbelow, hdepth, htop, hbase, hflag, hsaved⟩ := h
  rw [hnodup.dedup] at htop hbase hflag hsaved
  exact ⟨hnodup, hbelow, hdepth, htop, hbase, hflag, hsaved⟩

theorem CountsInnermost.rowOf {cfg : RuntimeConfig} {s : ThreadState} {stk : List Nat}
    (h : CountsInnermost cfg s stk) :
    RowOf cfg s stk := by
  obtain ⟨hnodup, hbelow, hdepth, htop, hbase, hflag, hsaved⟩ := h
  rw [← hnodup.dedup] at htop hbase hflag hsaved
  exact ⟨hbelow, hdepth, htop, hbase, hflag, hsaved⟩

theorem CountsInnermost.initial (cfg : RuntimeConfig) : CountsInnermost cfg .initial [] :=
  (RowOf.initial cfg).countsInnermost .nil

section

variable {cfg : RuntimeConfig} {s : ThreadState} {stk : List Nat} {r : Nat}

theorem CountsInnermost.enter (hperiod : cfg.samplingPeriod = 1) (h : CountsInnermost cfg s stk) (hfresh : r ∉ stk)
    (hr : r < pragmaRegionLimit) (now : UInt64) :
    CountsInnermost cfg (startTimingEvent cfg r now s) (r :: stk) ∧
      (startTimingEvent cfg r now s).counterArray = s.counterArray :=
  ⟨(h.rowOf.enter hperiod hr).countsInnermost (List.nodup_cons.mpr ⟨hfresh, h.nodup⟩),
    startTimingEvent_counterArray cfg r now s⟩

theorem CountsInnermost.exit (h : CountsInnermost cfg s (r :: stk)) (now : UInt64) :
    CountsInnermost cfg (endTimingEvent r now s) stk ∧ (endTimingEvent r now s).counterArray = s.counterArray :=
  ⟨h.rowOf.exit.countsInnermost (List.nodup_cons.mp h.nodup).2, endTimingEvent_counterArray r now s⟩

theorem CountsInnermost.increment (h : CountsInnermost cfg s stk) (i : Increment) :
    CountsInnermost cfg (i.apply s) stk :=
  (h.rowOf.increment i).countsInnermost h.nodup

/-- Cells of different rows and columns are different. -/
theorem cell_inj {d k k' r q : Nat} (hk : k < d) (hk' : k' < d) : k' + q * d = k + r * d ↔ q = r ∧ k' = k := by
  refine ⟨fun h => ?_, fun ⟨hq, hk⟩ => by rw [hq, hk]⟩
  have hmod := congrArg (· % d) h
  simp only [Nat.add_mul_mod_self_right, Nat.mod_eq_of_lt hk, Nat.mod_eq_of_lt hk'] at hmod
  have hmul : q * d = r * d := by omega
  exact ⟨Nat.eq_of_mul_eq_mul_right (by omega) hmul, hmod⟩

/-- An increment reaches the cell of set `k` in the row of region `r` when `r` is the innermost open region. -/
theorem CountsInnermost.counterArray_apply (h : CountsInnermost cfg s stk) {i : Increment}
    (hi : RuntimeCall.SetBelow cfg.counterDimension (.increment i)) {k : Nat} (hk : k < cfg.counterDimension)
    (r : Nat) : (i.apply s).counterArray (k + r * cfg.counterDimension) =
      s.counterArray (k + r * cfg.counterDimension) + if stk.head? = some r then i.amount k else 0 := by
  have hadd : ∀ k' n, k' < cfg.counterDimension →
      (if s.globalDisable then s else { s with counterArray := bump s.counterArray (k' + s.counterBaseIndex) n }
        ).counterArray (k + r * cfg.counterDimension) =
      s.counterArray (k + r * cfg.counterDimension) +
        if stk.head? = some r then (if k' = k then n else 0) else 0 := by
    intro k' n hk'
    rw [h.flag, h.base]
    cases stk with
    | nil => simp
    | cons q rest =>
      simp only [List.isEmpty_cons, Bool.false_eq_true, if_false, rowBase, List.head?_cons, Option.some.injEq, bump]
      by_cases hcell : q = r ∧ k' = k
      · obtain ⟨rfl, rfl⟩ := hcell
        simp
      · have hne : k + r * cfg.counterDimension ≠ k' + q * cfg.counterDimension :=
          fun heq => hcell ((cell_inj hk hk').mp heq.symm)
        rw [Function.update_of_ne hne]
        by_cases hq : q = r
        · have hkk : k' ≠ k := fun hkk => hcell ⟨hq, hkk⟩
          simp [hq, hkk]
        · simp [hq]
  cases i with
  | counterArray p k' => exact hadd k' 1 hi
  | counterArraySF p k' sf => exact hadd k' sf hi
  | _ =>
    simp only [Increment.apply, incrementLoadArray, incrementStoreArray, incrementLoadStoreArray, Increment.amount,
      ite_self, Nat.add_zero]
    split <;> rfl

/-- The rule for fresh runs: the innermost region counts at the end too, and each cell has gained what was credited to
it. -/
theorem CountsInnermost.run (hperiod : cfg.samplingPeriod = 1) {stk' : List Nat} {es : List RuntimeCall}
    (hes : FreshRun stk es stk') (hsets : ∀ e ∈ es, e.SetBelow cfg.counterDimension) (h : CountsInnermost cfg s stk) :
    CountsInnermost cfg (run cfg s es) stk' ∧ ∀ r k, k < cfg.counterDimension →
      (ZRay.run cfg s es).counterArray (k + r * cfg.counterDimension) =
        s.counterArray (k + r * cfg.counterDimension) + credited r k stk es := by
  induction hes generalizing s with
  | nil => exact ⟨h, fun _ _ _ => rfl⟩
  | @enter _ _ r now es hfresh hr _ ih =>
    obtain ⟨hstep, hsame⟩ := h.enter hperiod hfresh hr now
    obtain ⟨hrun, hcell⟩ := ih (fun e he => hsets e (List.mem_cons_of_mem _ he)) hstep
    refine ⟨hrun, fun q k hk => ?_⟩
    rw [run_cons, step, hcell q k hk, hsame]
    rfl
  | @exit _ _ r now es _ ih =>
    obtain ⟨hstep, hsame⟩ := h.exit now
    obtain ⟨hrun, hcell⟩ := ih (fun e he => hsets e (List.mem_cons_of_mem _ he)) hstep
    refine ⟨hrun, fun q k hk => ?_⟩
    rw [run_cons, step, hcell q k hk, hsame]
    rfl
  | @increment _ _ i es _ ih =>
    obtain ⟨hrun, hcell⟩ := ih (fun e he => hsets e (List.mem_cons_of_mem _ he)) (h.increment i)
    refine ⟨hrun, fun q k hk => ?_⟩
    rw [run_cons, step, hcell q k hk, h.counterArray_apply (hsets _ List.mem_cons_self) hk, Nat.add_assoc]
    rfl

end

/-- A fresh run from the beginning leaves in each row what was counted while its region was the innermost one. -/
theorem counterArray_of_freshRun {cfg : RuntimeConfig} (hperiod : cfg.samplingPeriod = 1) {stk : List Nat}
    {es : List RuntimeCall} (hes : FreshRun [] es stk) (hsets : ∀ e ∈ es, e.SetBelow cfg.counterDimension) {r k : Nat}
    (hk : k < cfg.counterDimension) :
    (run cfg .initial es).counterArray (k + r * cfg.counterDimension) = credited r k [] es := by
  obtain ⟨-, hcell⟩ := (CountsInnermost.initial cfg).run hperiod hes hsets
  rw [hcell r k hk]
  exact Nat.zero_add _

end ZRay
