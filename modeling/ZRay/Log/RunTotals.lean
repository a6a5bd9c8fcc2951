import Mathlib
import ZRay.Log.ProfileData

/-!
# The totals of a run

The last loop of `zray_finalize` sums the loads and stores of the regions.  A region's term is its count and one more
than the words of its intrinsic bytes, so an idle region has the term 1, and an accumulator that has reached 1 is set
back to 0.  That undoes the term of the idle regions in front of the first busy one only: the totals are 0 exactly
when every region is idle (`foldl_accumulate_eq_zero`), and one more idle region behind a busy one is counted.
-/

namespace ZRay

/-- One accumulator in one round: the region's term, and the reset. -/
def accumulate (total term : UInt64) : UInt64 := if total + term = 1 then 0 else total + term

/-- The four accumulators of the loop. -/
@[ext]
structure RunTotals where
  totalLoads : UInt64 := 0
  totalStores : UInt64 := 0
  totalHeapLoads : UInt64 := 0
  totalHeapStores : UInt64 := 0
  deriving DecidableEq, Repr

namespace ProfileData

variable (p : ProfileData)

/-- The profile of a region that ran no code. -/
def zero : ProfileData := {}

def loadTerm : UInt64 := p.loadCount + (p.intrinsicLoad / 8 + 1)

def storeTerm : UInt64 := p.storeCount + (p.intrinsicStore / 8 + 1)

def heapLoadTerm : UInt64 := p.loadCount - p.stackReadCount + (p.intrinsicLoad / 8 + 1)

def heapStoreTerm : UInt64 := p.storeCount - p.stackWriteCount + (p.intrinsicStore / 8 + 1)

/-- The region has neither loads nor stores, up to a word of intrinsic bytes. -/
def Idle : Prop := p.loadCount = 0 ∧ p.storeCount = 0 ∧ p.intrinsicLoad < 8 ∧ p.intrinsicStore < 8

instance : Decidable p.Idle := inferInstanceAs (Decidable (_ ∧ _ ∧ _ ∧ _))

end ProfileData

namespace RunTotals

/-- The round of the loop for one region. -/
def addRegion (t : RunTotals) (p : ProfileData) : RunTotals where
  totalLoads := accumulate t.totalLoads p.loadTerm
  totalStores := accumulate t.totalStores p.storeTerm
  totalHeapLoads := accumulate t.totalHeapLoads p.heapLoadTerm
  totalHeapStores := accumulate t.totalHeapStores p.heapStoreTerm

end RunTotals

/-- The totals that `zray_finalize` prints for the profiles of `RegionProfileList`. -/
def runTotals (regions : List ProfileData) : RunTotals := regions.foldl RunTotals.addRegion {}

/-! ### One accumulator -/

theorem toNat_accumulate_le {t c : UInt64} (h : t.toNat + c.toNat < 2 ^ 64) :
    (accumulate t c).toNat ≤ t.toNat + c.toNat := by
  unfold accumulate
  split
  · simp
  · rw [UInt64.toNat_add, Nat.mod_eq_of_lt h]

theorem accumulate_eq_zero {t c : UInt64} (hc : 0 < c.toNat) (h : t.toNat + c.toNat < 2 ^ 64) :
    accumulate t c = 0 ↔ t = 0 ∧ c = 1 := by
  have hadd : (t + c).toNat = t.toNat + c.toNat := by rw [UInt64.toNat_add, Nat.mod_eq_of_lt h]
  unfold accumulate
  split
  · next hone =>
    have hsum : t.toNat + c.toNat = 1 := by rw [← hadd, hone]; rfl
    simp only [true_iff, ← UInt64.toNat_inj, UInt64.toNat_zero, UInt64.toNat_one]
    omega
  · next hone =>
    refine ⟨fun hzero => ?_, fun ⟨ht, hc⟩ => absurd (by rw [ht, hc, UInt64.zero_add]) hone⟩
    rw [hzero, UInt64.toNat_zero] at hadd
    omega

/-- An accumulator that took no overflow is 0 only while nothing but idle regions came. -/
theorem foldl_accumulate_eq_zero {t : UInt64} {cs : List UInt64} (hpos : ∀ c ∈ cs, 0 < c.toNat)
    (h : t.toNat + (cs.map UInt64.toNat).sum < 2 ^ 64) :
    cs.foldl accumulate t = 0 ↔ t = 0 ∧ ∀ c ∈ cs, c = 1 := by
  induction cs generalizing t with
  | nil => simp
  | cons c cs ih =>
    rw [List.map_cons, List.sum_cons] at h
    have hstep := toNat_accumulate_le (t := t) (c := c) (by omega)
    rw [List.foldl_cons, ih (fun c hc => hpos c (List.mem_cons_of_mem _ hc)) (by omega),
      accumulate_eq_zero (hpos c List.mem_cons_self) (by omega), List.forall_mem_cons, and_assoc]

/-- A last idle region goes unnoticed only in a total that is 0. -/
theorem accumulate_one_eq_self {t : UInt64} : accumulate t 1 = t ↔ t = 0 := by
  unfold accumulate
  split
  · next hone => simp [eq_comm]
  · next hone =>
    refine ⟨fun hself => ?_, fun hzero => absurd (by rw [hzero, UInt64.zero_add]) hone⟩
    simp at hself

/-! ### The loop -/

section

variable {regions : List ProfileData}

theorem foldl_addRegion (t : RunTotals) : regions.foldl RunTotals.addRegion t =
    { totalLoads := (regions.map ProfileData.loadTerm).foldl accumulate t.totalLoads
      totalStores := (regions.map ProfileData.storeTerm).foldl accumulate t.totalStores
      totalHeapLoads := (regions.map ProfileData.heapLoadTerm).foldl accumulate t.totalHeapLoads
      totalHeapStores := (regions.map ProfileData.heapStoreTerm).foldl accumulate t.totalHeapStores } := by
  induction regions generalizing t with
  | nil => rfl
  | cons p regions ih =>
    rw [List.foldl_cons, ih]
    rfl

/-- No sum overflows, one more idle region included, and no difference wraps. -/
structure NoWrap (regions : List ProfileData) : Prop where
  stackRead_le : ∀ p ∈ regions, p.stackReadCount ≤ p.loadCount
  stackWrite_le : ∀ p ∈ regions, p.stackWriteCount ≤ p.storeCount
  loads_fit : (regions.map fun p => p.loadCount.toNat + (p.intrinsicLoad.toNat / 8 + 1)).sum + 1 < 2 ^ 64
  stores_fit : (regions.map fun p => p.storeCount.toNat + (p.intrinsicStore.toNat / 8 + 1)).sum + 1 < 2 ^ 64

/-- The totals do not depend on the order of the regions. -/
def OrderIndependent (regions : List ProfileData) : Prop :=
  ∀ regions', regions'.Perm regions → runTotals regions' = runTotals regions

/-- One more region with an all-zero profile leaves the totals as they are, wherever it stands. -/
def ZeroRegionNeutral (regions : List ProfileData) : Prop :=
  ∀ us vs, us ++ vs = regions → runTotals (us ++ .zero :: vs) = runTotals regions

theorem toNat_term {count bytes : UInt64} (h : count.toNat + (bytes.toNat / 8 + 1) < 2 ^ 64) :
    (count + (bytes / 8 + 1)).toNat = count.toNat + (bytes.toNat / 8 + 1) := by
  have hwords : (bytes / 8 + 1).toNat = bytes.toNat / 8 + 1 := by
    rw [UInt64.toNat_add, UInt64.toNat_div, Nat.mod_eq_of_lt (by simp; omega)]
    rfl
  rw [UInt64.toNat_add, hwords, Nat.mod_eq_of_lt h]

/-- A region's term is 1 exactly when it counts nothing. -/
theorem term_eq_one {count bytes : UInt64} (h : count.toNat + (bytes.toNat / 8 + 1) < 2 ^ 64) :
    count + (bytes / 8 + 1) = 1 ↔ count = 0 ∧ bytes < 8 := by
  rw [← UInt64.toNat_inj, toNat_term h, UInt64.toNat_one, ← UInt64.toNat_inj, UInt64.lt_iff_toNat_lt]
  simp only [UInt64.toNat_ofNat, Nat.reducePow, Nat.reduceMod]
  omega

/-- An accumulator of counts and intrinsic bytes that fit is 0 only when there are none. -/
theorem foldl_terms_eq_zero (count bytes : ProfileData → UInt64)
    (hfit : (regions.map fun p => (count p).toNat + ((bytes p).toNat / 8 + 1)).sum < 2 ^ 64) :
    (regions.map fun p => count p + (bytes p / 8 + 1)).foldl accumulate 0 = 0 ↔
      ∀ p ∈ regions, count p = 0 ∧ bytes p < 8 := by
  have hterm : ∀ p ∈ regions, (count p).toNat + ((bytes p).toNat / 8 + 1) < 2 ^ 64 := by
    intro p hp
    have hle := List.le_sum_of_mem
      (List.mem_map_of_mem (f := fun p => (count p).toNat + ((bytes p).toNat / 8 + 1)) hp)
    exact Nat.lt_of_le_of_lt hle hfit
  have hsum : ((regions.map fun p => count p + (bytes p / 8 + 1)).map UInt64.toNat).sum =
      (regions.map fun p => (count p).toNat + ((bytes p).toNat / 8 + 1)).sum := by
    rw [List.map_map]
    exact congrArg List.sum (List.map_congr_left fun p hp => toNat_term (hterm p hp))
  have hpos : ∀ c ∈ regions.map fun p => count p + (bytes p / 8 + 1), 0 < c.toNat := by
    rw [List.forall_mem_map]
    intro p hp
    rw [toNat_term (hterm p hp)]
    omega
  rw [foldl_accumulate_eq_zero hpos (by rw [UInt64.toNat_zero, hsum]; omega)]
  simp only [List.forall_mem_map, true_and]
  exact forall₂_congr fun p hp => term_eq_one (hterm p hp)

/-- Idle regions leave the accumulators at 0. -/
theorem runTotals_of_idle (hidle : ∀ p ∈ regions, p.Idle)
    (hstack : ∀ p ∈ regions, p.stackReadCount ≤ p.loadCount ∧ p.stackWriteCount ≤ p.storeCount) :
    runTotals regions = {} := by
  have hround : ∀ p ∈ regions, RunTotals.addRegion {} p = {} := by
    intro p hp
    obtain ⟨hload, hstore, hintLoad, hintStore⟩ := hidle p hp
    obtain ⟨hread, hwrite⟩ := hstack p hp
    have hone : ∀ bytes : UInt64, bytes < 8 → (0 : UInt64) + (bytes / 8 + 1) = 1 :=
      fun bytes hbytes => (term_eq_one (by rw [UInt64.toNat_zero]; have := bytes.toNat_lt; omega)).mpr ⟨rfl, hbytes⟩
    rw [hload, UInt64.le_zero_iff] at hread
    rw [hstore, UInt64.le_zero_iff] at hwrite
    simp only [RunTotals.addRegion, ProfileData.loadTerm, ProfileData.storeTerm, ProfileData.heapLoadTerm,
      ProfileData.heapStoreTerm, hload, hstore, hread, hwrite, UInt64.sub_zero, hone _ hintLoad, hone _ hintStore]
    rfl
  rw [runTotals]
  clear hidle hstack
  induction regions with
  | nil => rfl
  | cons p regions ih =>
    rw [List.foldl_cons, hround p List.mem_cons_self]
    exact ih fun p hp => hround p (List.mem_cons_of_mem _ hp)

/-- Totals of 0 come from idle regions only. -/
theorem idle_of_runTotals_eq (h : NoWrap regions) (hzero : runTotals regions = {}) : ∀ p ∈ regions, p.Idle := by
  have hload := foldl_terms_eq_zero ProfileData.loadCount ProfileData.intrinsicLoad (Nat.lt_of_succ_lt h.loads_fit)
  have hstore := foldl_terms_eq_zero ProfileData.storeCount ProfileData.intrinsicStore
    (Nat.lt_of_succ_lt h.stores_fit)
  rw [runTotals, foldl_addRegion, RunTotals.mk.injEq] at hzero
  intro p hp
  obtain ⟨hl, hil⟩ := hload.mp hzero.1 p hp
  obtain ⟨hs, his⟩ := hstore.mp hzero.2.1 p hp
  exact ⟨hl, hs, hil, his⟩

/-- A zero profile at the end goes unnoticed only in a run that counted nothing. -/
theorem runTotals_append_zero (h : runTotals (regions ++ [.zero]) = runTotals regions) : runTotals regions = {} := by
  have hlast : runTotals (regions ++ [.zero]) = (runTotals regions).addRegion .zero := by
    rw [runTotals, List.foldl_append]
    rfl
  rw [hlast, RunTotals.ext_iff] at h
  obtain ⟨hload, hstore, hheapLoad, hheapStore⟩ := h
  exact RunTotals.ext (accumulate_one_eq_self.mp hload) (accumulate_one_eq_self.mp hstore)
    (accumulate_one_eq_self.mp hheapLoad) (accumulate_one_eq_self.mp hheapStore)

end

/-- The totals are independent of the order of the regions and of idle ones exactly when no region is busy. -/
theorem runTotals_order_idle_iff (regions : List ProfileData) (h : NoWrap regions) :
    OrderIndependent regions ∧ ZeroRegionNeutral regions ↔ ∀ p ∈ regions, p.Idle := by
  refine ⟨fun ⟨_, hneutral⟩ => ?_, fun hidle => ?_⟩
  · exact idle_of_runTotals_eq h (runTotals_append_zero (hneutral regions [] (List.append_nil _)))
  · have hstack := fun p hp => And.intro (h.stackRead_le p hp) (h.stackWrite_le p hp)
    have hall := runTotals_of_idle hidle hstack
    refine ⟨fun regions' hperm => ?_, fun us vs heq => ?_⟩
    · rw [hall]
      exact runTotals_of_idle (fun p hp => hidle p (hperm.mem_iff.mp hp)) fun p hp => hstack p (hperm.mem_iff.mp hp)
    · subst heq
      have hmem : ∀ p, p ∈ us ++ .zero :: vs → p = .zero ∨ p ∈ us ++ vs := by
        intro p hp
        simp only [List.mem_append, List.mem_cons] at hp ⊢
        tauto
      rw [hall]
      refine runTotals_of_idle (fun p hp => ?_) fun p hp => ?_
      · obtain rfl | hp := hmem p hp
        · decide
        · exact hidle p hp
      · obtain rfl | hp := hmem p hp
        · decide
        · exact hstack p hp

/-- A region with four loads: 5 loads in all, and 6 with an idle region behind it. -/
private def fourLoads : List ProfileData := [{ loadCount := 4 }]

private theorem noWrap_fourLoads : NoWrap fourLoads where
  stackRead_le := by decide
  stackWrite_le := by decide
  loads_fit := by decide
  stores_fit := by decide

theorem runTotals_idle_counted :
    ¬ ∀ regions, NoWrap regions → OrderIndependent regions ∧ ZeroRegionNeutral regions := by
  intro hall
  exact absurd ((hall fourLoads noWrap_fourLoads).2 fourLoads [] (List.append_nil _)) (by decide)

private def idleRegions : List ProfileData := [{ intrinsicLoad := 3 }, {}]

private theorem noWrap_idleRegions : NoWrap idleRegions where
  stackRead_le := by decide
  stackWrite_le := by decide
  loads_fit := by decide
  stores_fit := by decide

theorem runTotals_order_idle_regions : OrderIndependent idleRegions ∧ ZeroRegionNeutral idleRegions :=
  (runTotals_order_idle_iff idleRegions noWrap_idleRegions).mpr (by decide)

end ZRay
