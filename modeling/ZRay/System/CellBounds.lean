import ZRay.Log.CsvRows
import ZRay.Pass.EmittedIds
import ZRay.Pass.TimingOnly
import ZRay.Runtime.RowSelection

/-!
# No cell outside the arrays

The arrays of a thread have `CountArraySize` cells for each region, and the increment helpers check nothing.  The pass
emits ids below the width and regions below `ROI_Count`, and the runtime's `counterBaseIndex` is always the row of a
region that was entered, or row 0.  So no thread that makes the calls of the emitted code, whichever calls and in
whatever order, ever counts in a cell outside its arrays (`cell_in_arrays`); and what is read back from the region log
names cells of the arrays (`withinRows_zlog`).
-/

namespace ZRay

/-! ### The runtime's rows -/

/-- `counterBaseIndex` is the start of one of `R` rows, and so is every saved one. -/
structure RowsBelow (cfg : RuntimeConfig) (R : Nat) (s : ThreadState) : Prop where
  base : s.counterBaseIndex + cfg.counterDimension ≤ cfg.counterDimension * R
  saved : ∀ j, (s.regionSaveStack j).base + cfg.counterDimension ≤ cfg.counterDimension * R

section

variable {cfg : RuntimeConfig} {R : Nat} {s : ThreadState}

theorem rowsBelow_initial (cfg : RuntimeConfig) (hR : 0 < R) : RowsBelow cfg R .initial := by
  have hrow : cfg.counterDimension * 1 ≤ cfg.counterDimension * R := Nat.mul_le_mul_left _ hR
  refine ⟨?_, fun j => ?_⟩
  · show 0 + cfg.counterDimension ≤ cfg.counterDimension * R
    omega
  · show 0 + cfg.counterDimension ≤ cfg.counterDimension * R
    omega

theorem RowsBelow.pushSave (h : RowsBelow cfg R s) : RowsBelow cfg R s.pushSave := by
  refine ⟨h.base, fun j => ?_⟩
  unfold ThreadState.pushSave
  dsimp only
  split
  · by_cases hj : j = s.regionSaveTop
    · subst hj
      rw [Function.update_self]
      exact h.base
    · rw [Function.update_of_ne hj]
      exact h.saved j
  · exact h.saved j

theorem RowsBelow.popSave (h : RowsBelow cfg R s) :
    s.popSave.1.base + cfg.counterDimension ≤ cfg.counterDimension * R ∧
      s.popSave.2.regionSaveStack = s.regionSaveStack := by
  unfold ThreadState.popSave
  split
  · split
    · exact ⟨h.saved _, rfl⟩
    · exact ⟨h.base, rfl⟩
  · exact ⟨h.base, rfl⟩

theorem RowsBelow.startTimingEvent (h : RowsBelow cfg R s) {r : Nat} (hr : r < R) (now : UInt64) :
    RowsBelow cfg R (startTimingEvent cfg r now s) := by
  by_cases hdepth : s.regionDepth r = 0
  · cases hs : sampled cfg (s.timingProfiles r).count with
    | false =>
      rw [startTimingEvent_skipped cfg r now s hdepth hs]
      exact ⟨h.pushSave.base, h.pushSave.saved⟩
    | true =>
      rw [startTimingEvent_sampled cfg r now s hdepth hs]
      have hrow : cfg.counterDimension * (r + 1) ≤ cfg.counterDimension * R := Nat.mul_le_mul_left _ hr
      refine ⟨?_, h.pushSave.saved⟩
      show r * cfg.counterDimension + cfg.counterDimension ≤ cfg.counterDimension * R
      rw [Nat.mul_succ, Nat.mul_comm] at hrow
      exact hrow
  · rw [startTimingEvent_reentry cfg r now s hdepth]
    exact ⟨h.base, h.saved⟩

/-- An exit goes back to a saved row, also when it has no entry or closes another region. -/
theorem RowsBelow.endTimingEvent (h : RowsBelow cfg R s) (r : Nat) (now : UInt64) :
    RowsBelow cfg R (endTimingEvent r now s) := by
  unfold ZRay.endTimingEvent
  split
  · exact h
  · dsimp only
    split
    · exact ⟨h.base, h.saved⟩
    · have hbelow : RowsBelow cfg R
          { s with regionDepth := Function.update s.regionDepth r (s.regionDepth r - 1) } := ⟨h.base, h.saved⟩
      obtain ⟨hbase, hstack⟩ := hbelow.popSave
      refine ⟨hbase, ?_⟩
      dsimp only
      rw [hstack]
      exact hbelow.saved

theorem RowsBelow.step (h : RowsBelow cfg R s) {e : RuntimeCall}
    (he : ∀ r now, e = .startTimingEvent r now → r < R) : RowsBelow cfg R (step cfg s e) := by
  cases e with
  | startTimingEvent r now => exact h.startTimingEvent (he r now rfl) now
  | endTimingEvent r now => exact h.endTimingEvent r now
  | increment i =>
    refine ⟨?_, ?_⟩
    · show (i.apply s).counterBaseIndex + _ ≤ _
      rw [i.apply_counterBaseIndex]
      exact h.base
    · show ∀ j, ((i.apply s).regionSaveStack j).base + _ ≤ _
      rw [i.apply_regionSaveStack]
      exact h.saved

theorem rowsBelow_run (hR : 0 < R) {es : List RuntimeCall}
    (hes : ∀ r now, .startTimingEvent r now ∈ es → r < R) : RowsBelow cfg R (run cfg .initial es) := by
  induction es using List.reverseRecOn with
  | nil => exact rowsBelow_initial cfg hR
  | append_singleton es e ih =>
    rw [run_append]
    apply (ih fun r now hmem => hes r now (List.mem_append_left _ hmem)).step
    intro r now he
    exact hes r now (by simp [he])

end

/-! ### The calls of the emitted code -/

namespace Pass

/-- The call makes the runtime do this, at some clock reading and with some size. -/
def EmittedCall.Makes {ν : Type*} : EmittedCall ν → RuntimeCall → Prop
  | .startTimingEvent r, .startTimingEvent r' _ => r = r'
  | .endTimingEvent r, .endTimingEvent r' _ => r = r'
  | .incrementCounterArray r k, .increment (.counterArray r' k') => r = r' ∧ k = k'
  | .incrementCounterArraySF r k _ _, .increment (.counterArraySF r' k' _) => r = r' ∧ k = k'
  | .incrementLoadArray r k _ _, .increment (.loadArray r' k' _) => r = r' ∧ k = k'
  | .incrementStoreArray r k _ _, .increment (.storeArray r' k' _) => r = r' ∧ k = k'
  | .incrementLoadStoreArray r k _ _, .increment (.loadStoreArray r' k' _) => r = r' ∧ k = k'
  | _, _ => False

theorem EmittedCall.Makes.region_lt {ν : Type*} {R N : Nat} {call : EmittedCall ν} {r : Nat} {now : UInt64}
    (h : call.Makes (.startTimingEvent r now)) (hbelow : call.Below R N ∨ ∃ r', call = .endTimingEvent r') :
      r < R := by
  cases call with
  | startTimingEvent r' =>
    obtain rfl : r' = r := h
    rcases hbelow with hbelow | ⟨r', hr'⟩
    · exact hbelow
    · cases hr'
  | _ => exact h.elim

theorem EmittedCall.Makes.id_lt {ν : Type*} {R N : Nat} {call : EmittedCall ν} {i : Increment}
    (h : call.Makes (.increment i)) (hbelow : call.Below R N ∨ ∃ r', call = .endTimingEvent r') :
    0 < R ∧ i.postDomSetID < N := by
  have hids : ∃ r, r < R ∧ i.postDomSetID < N := by
    rcases hbelow with hbelow | ⟨r', rfl⟩
    · cases call <;> cases i <;> first | exact h.elim | (obtain ⟨rfl, rfl⟩ := h; exact ⟨_, hbelow⟩)
    · exact h.elim
  obtain ⟨r, hr, hk⟩ := hids
  exact ⟨by omega, hk⟩

namespace Emission

variable {α β ν χ : Type*}

/-- Some function, a clone or not, has a call in some block that makes the runtime do this. -/
def IRState.Makes (s : IRState α β ν χ) (e : RuntimeCall) : Prop :=
  ∃ F x call, .emitted call ∈ (s.code F x).body ∧ call.Makes e

variable [DecidableEq α] [DecidableEq β] [Inhabited ν]

/-- What is read back from the region log of a module names cells in the rows of its regions, as far
as an `int` can. -/
theorem withinRows_zlog (opts : EmissionOptions) (m : IRModule α β ν χ) (rounds : Nat)
    (hids : ∀ PR ∈ m.prList, PR.pragmaRegionID < m.prList.length)
    (hfits : (runOnModule opts m rounds).countArraySize * m.prList.length ≤ 2 ^ 31)
    (hsize : (runOnModule opts m rounds).countArraySize < 2 ^ 64) (v : LogVars) (selected : ProfileData → Bool) :
    ∃ es s, readRecords m.maxSize (ByteStream.ofBytes ((runOnModule opts m rounds).zlog m)) v = some (es, s) ∧
      WithinRows selected (UInt64.ofNat (runOnModule opts m rounds).countArraySize) es m.prList.length := by
  obtain ⟨-, hrecords⟩ := cellsBelow_runOnModule opts m rounds hids
  have hdim : (UInt64.ofNat (runOnModule opts m rounds).countArraySize).toNat =
      (runOnModule opts m rounds).countArraySize := UInt64.toNat_ofNat_of_lt' hsize
  refine ⟨_, _, readRecords_writtenLog _ v, ?_, ?_, ?_⟩
  · intro e he
    simp only [List.map_map, List.mem_map] at he
    obtain ⟨rec, hrec, rfl⟩ := he
    rw [hdim]
    exact (hrecords rec hrec).2
  · intro e he _
    simp only [List.map_map, List.mem_map] at he
    obtain ⟨rec, hrec, rfl⟩ := he
    exact (hrecords rec hrec).1
  · rw [hdim]
    exact hfits

/-! ### The last cell -/

/-- An item is a call with a property. -/
def Item.calls {α ν : Type*} (p : EmittedCall ν → Bool) : Item α ν → Bool
  | .emitted call => p call
  | _ => false

theorem exists_of_any_calls {α ν : Type*} {p : EmittedCall ν → Bool} {l : List (Item α ν)}
    (h : l.any (Item.calls p) = true) : ∃ call, .emitted call ∈ l ∧ p call = true := by
  obtain ⟨i, hi, hp⟩ := List.any_eq_true.mp h
  cases i with
  | emitted call => exact ⟨call, hi, hp⟩
  | _ => exact absurd hp Bool.false_ne_true

/-- The entry of region 1, and an increment of the clone of function 2, whose id is the largest of all. -/
theorem clonedLoop_makes : ∀ e ∈ [.startTimingEvent 1 0] ++ [.increment (.counterArray 1 5)],
    (runOnModule {} clonedLoop 2).Makes e := by
  intro e he
  simp only [List.cons_append, List.nil_append, List.mem_cons, List.not_mem_nil, or_false] at he
  rcases he with rfl | rfl
  · have hany : ((runOnModule {} clonedLoop 2).code 0 0).body.any
        (Item.calls fun call => call = .startTimingEvent 1) = true := by decide +kernel
    obtain ⟨call, hcall, heq⟩ := exists_of_any_calls hany
    exact ⟨0, 0, call, hcall, by rw [of_decide_eq_true heq]; rfl⟩
  · have hany : ((runOnModule {} clonedLoop 2).code 12 2).body.any
        (Item.calls fun call => call = .incrementCounterArray 1 5) = true := by decide +kernel
    obtain ⟨call, hcall, heq⟩ := exists_of_any_calls hany
    exact ⟨12, 2, call, hcall, by rw [of_decide_eq_true heq]; exact ⟨rfl, rfl⟩⟩

end Emission

end Pass

end ZRay
