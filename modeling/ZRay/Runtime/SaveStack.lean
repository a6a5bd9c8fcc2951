import Mathlib.Data.Finset.Card
import Mathlib.Data.Finset.Range
import ZRay.Runtime.State

/-!
# The save stack

`RegionSaveTop` counts the live regions, the regions whose depth is positive, whatever the order of entries and
exits; since a live region id is below `PRAGMA_REGION_LIMIT` this keeps every push and pop inside
`RegionSaveStack`.  Crossed regions may hand a saved state to the wrong region, but the bottom entry is always the
state of a thread outside every region, so counting is off once the last region closes.
-/

namespace ZRay

/-- The region ids with a positive depth. -/
def liveRegions (s : ThreadState) : Finset Nat :=
  (Finset.range pragmaRegionLimit).filter fun r => 0 < s.regionDepth r

theorem mem_liveRegions {s : ThreadState} {r : Nat} :
    r ∈ liveRegions s ↔ r < pragmaRegionLimit ∧ 0 < s.regionDepth r := by
  simp [liveRegions]

theorem liveRegions_card_eq_zero {s : ThreadState} (h : ∀ r < pragmaRegionLimit, s.regionDepth r = 0) :
    (liveRegions s).card = 0 := by
  rw [Finset.card_eq_zero, Finset.eq_empty_iff_forall_notMem]
  intro r hr
  obtain ⟨hlt, hpos⟩ := mem_liveRegions.1 hr
  have := h r hlt
  omega

/-- What crossed or nested entries and exits never break. -/
structure SaveStackInv (s : ThreadState) : Prop where
  top_eq : s.regionSaveTop = (liveRegions s).card
  closed : s.regionSaveTop = 0 → s.counterBaseIndex = 0 ∧ s.globalDisable = true
  bottom : 0 < s.regionSaveTop → s.regionSaveStack 0 = ⟨0, true⟩

theorem SaveStackInv.initial : SaveStackInv ThreadState.initial where
  top_eq := (liveRegions_card_eq_zero fun _ _ => rfl).symm
  closed := fun _ => ⟨rfl, rfl⟩
  bottom := fun h => absurd h (by simp [ThreadState.initial])

/-- The push of an outermost entry is inside the stack. -/
theorem SaveStackInv.push_lt {s : ThreadState} (h : SaveStackInv s) {r : Nat} (hr : r < pragmaRegionLimit)
    (hd : s.regionDepth r = 0) : s.regionSaveTop < pragmaRegionLimit := by
  rw [h.top_eq]
  have hsub : liveRegions s ⊂ Finset.range pragmaRegionLimit := by
    refine Finset.ssubset_iff_subset_ne.2 ⟨Finset.filter_subset _ _, fun heq => ?_⟩
    have hmem : r ∈ liveRegions s := heq ▸ Finset.mem_range.2 hr
    have := (mem_liveRegions.1 hmem).2
    omega
  simpa using Finset.card_lt_card hsub

/-- The pop of an outermost exit is inside the stack. -/
theorem SaveStackInv.pop_lt {s : ThreadState} (h : SaveStackInv s) {r : Nat} (hr : r < pragmaRegionLimit)
    (hd : s.regionDepth r ≠ 0) : 0 < s.regionSaveTop ∧ s.regionSaveTop - 1 < pragmaRegionLimit := by
  have hpos : 0 < (liveRegions s).card :=
    Finset.card_pos.2 ⟨r, mem_liveRegions.2 ⟨hr, Nat.pos_of_ne_zero hd⟩⟩
  have hle : (liveRegions s).card ≤ (Finset.range pragmaRegionLimit).card :=
    Finset.card_le_card (Finset.filter_subset _ _)
  rw [Finset.card_range] at hle
  rw [h.top_eq]
  omega

/-! ### The live regions after a change of one depth -/

private theorem live_of_depth {s s' : ThreadState} {r d : Nat}
    (h : s'.regionDepth = Function.update s.regionDepth r d) (hd : 0 < d ↔ 0 < s.regionDepth r) :
    liveRegions s' = liveRegions s := by
  ext q
  rw [mem_liveRegions, mem_liveRegions, h]
  by_cases hq : q = r
  · subst hq; simp [hd]
  · simp [hq]

private theorem live_opened {s s' : ThreadState} {r d : Nat} (hr : r < pragmaRegionLimit)
    (h : s'.regionDepth = Function.update s.regionDepth r d) (hd : 0 < d) (h0 : s.regionDepth r = 0) :
    (liveRegions s').card = (liveRegions s).card + 1 := by
  have hnot : r ∉ liveRegions s := fun hm => by
    have := (mem_liveRegions.1 hm).2
    omega
  have heq : liveRegions s' = insert r (liveRegions s) := by
    ext q
    rw [Finset.mem_insert, mem_liveRegions, mem_liveRegions, h]
    by_cases hq : q = r
    · subst hq; simp [hr, hd]
    · simp [hq]
  rw [heq, Finset.card_insert_of_notMem hnot]

private theorem live_closed {s s' : ThreadState} {r : Nat} (hr : r < pragmaRegionLimit)
    (h : s'.regionDepth = Function.update s.regionDepth r 0) (h0 : 0 < s.regionDepth r) :
    (liveRegions s').card = (liveRegions s).card - 1 := by
  have heq : liveRegions s' = (liveRegions s).erase r := by
    ext q
    rw [Finset.mem_erase, mem_liveRegions, mem_liveRegions, h]
    by_cases hq : q = r
    · subst hq; simp
    · simp [hq]
  rw [heq, Finset.card_erase_of_mem (mem_liveRegions.2 ⟨hr, h0⟩)]

/-! ### Each call keeps the invariant -/

/-- A change of the counting arrays, of the profiles and of one depth between positive values. -/
private theorem SaveStackInv.of_same {s s' : ThreadState} (h : SaveStackInv s)
    (hlive : liveRegions s' = liveRegions s) (htop : s'.regionSaveTop = s.regionSaveTop)
    (hstack : s'.regionSaveStack = s.regionSaveStack) (hbase : s'.counterBaseIndex = s.counterBaseIndex)
    (hdis : s'.globalDisable = s.globalDisable) : SaveStackInv s' where
  top_eq := by rw [htop, hlive]; exact h.top_eq
  closed := by rw [htop, hbase, hdis]; exact h.closed
  bottom := by rw [htop, hstack]; exact h.bottom

/-- The push keeps the bottom entry. -/
private theorem pushSave_bottom {s : ThreadState} (h : SaveStackInv s)
    (hlt : s.regionSaveTop < pragmaRegionLimit) : s.pushSave.regionSaveStack 0 = ⟨0, true⟩ := by
  simp only [ThreadState.pushSave, if_pos hlt]
  by_cases h0 : s.regionSaveTop = 0
  · obtain ⟨hb, hg⟩ := h.closed h0
    simp [h0, hb, hg]
  · rw [Function.update_of_ne (Ne.symm h0)]
    exact h.bottom (Nat.pos_of_ne_zero h0)

theorem SaveStackInv.startTimingEvent {s : ThreadState} (h : SaveStackInv s) (cfg : RuntimeConfig) {r : Nat}
    (now : UInt64) (hr : r < pragmaRegionLimit) : SaveStackInv (startTimingEvent cfg r now s) := by
  by_cases hd : s.regionDepth r = 0
  · have hlt := h.push_lt hr hd
    have htop : (s.pushSave).regionSaveTop = s.regionSaveTop + 1 := rfl
    cases hs : sampled cfg (s.timingProfiles r).count with
    | true =>
      rw [startTimingEvent_sampled cfg r now s hd hs]
      refine ⟨?_, fun h0 => absurd h0 (by simp [htop]), fun _ => pushSave_bottom h hlt⟩
      rw [htop, h.top_eq]
      exact (live_opened hr rfl Nat.one_pos hd).symm
    | false =>
      rw [startTimingEvent_skipped cfg r now s hd hs]
      refine ⟨?_, fun h0 => absurd h0 (by simp [htop]), fun _ => pushSave_bottom h hlt⟩
      rw [htop, h.top_eq]
      exact (live_opened hr rfl Nat.one_pos hd).symm
  · rw [startTimingEvent_reentry cfg r now s hd]
    exact h.of_same (live_of_depth rfl (by omega)) rfl rfl rfl rfl

theorem SaveStackInv.endTimingEvent {s : ThreadState} (h : SaveStackInv s) {r : Nat} (now : UInt64)
    (hr : r < pragmaRegionLimit) : SaveStackInv (endTimingEvent r now s) := by
  by_cases h0 : s.regionDepth r = 0
  · rw [endTimingEvent_unmatched r now s h0]
    exact h
  · by_cases h1 : s.regionDepth r = 1
    · obtain ⟨hpos, hlt⟩ := h.pop_lt hr h0
      rw [endTimingEvent_outermost r now s h1 hpos hlt]
      refine ⟨?_, fun ht => ?_, fun ht => ?_⟩
      · rw [live_closed (s := s) hr rfl (by omega), ← h.top_eq]
      · -- the last region closes: the entry popped is the bottom one
        have ht' : s.regionSaveTop - 1 = 0 := ht
        simp only [ht', h.bottom hpos, and_self]
      · exact h.bottom hpos
    · rw [endTimingEvent_inner r now s (by omega)]
      exact h.of_same (live_of_depth rfl (by omega)) rfl rfl rfl rfl

theorem SaveStackInv.step {s : ThreadState} (h : SaveStackInv s) (cfg : RuntimeConfig) {e : RuntimeCall}
    (he : e.InRange) : SaveStackInv (step cfg s e) := by
  cases e with
  | startTimingEvent r now => exact h.startTimingEvent cfg now he
  | endTimingEvent r now => exact h.endTimingEvent now he
  | increment i =>
    have hlive : liveRegions (i.apply s) = liveRegions s := by
      ext q
      simp [mem_liveRegions]
    exact h.of_same hlive (by simp [ZRay.step]) (by simp [ZRay.step]) (by simp [ZRay.step]) (by simp [ZRay.step])

/-- The invariant holds in every state a thread can reach. -/
theorem SaveStackInv.run {s : ThreadState} (h : SaveStackInv s) (cfg : RuntimeConfig) {es : List RuntimeCall}
    (hes : ∀ e ∈ es, e.InRange) : SaveStackInv (run cfg s es) :=
  run_invariant (fun _ _ he hs => hs.step cfg he) hes h

/-- For every sequence of entries, exits and increments: the stack pointer is the number of live regions, pushes
and pops stay inside the stack, an unmatched exit changes nothing, and counting is off outside the regions. -/
theorem saveStack_of_reachable (cfg : RuntimeConfig) (es : List RuntimeCall) (hes : ∀ e ∈ es, e.InRange) :
    let s := run cfg .initial es
    s.regionSaveTop = (liveRegions s).card ∧
    (∀ r < pragmaRegionLimit, s.regionDepth r = 0 → s.regionSaveTop < pragmaRegionLimit) ∧
    (∀ r < pragmaRegionLimit, s.regionDepth r ≠ 0 →
      0 < s.regionSaveTop ∧ s.regionSaveTop - 1 < pragmaRegionLimit) ∧
    (∀ r now, s.regionDepth r = 0 → endTimingEvent r now s = s) ∧
    ((∀ r < pragmaRegionLimit, s.regionDepth r = 0) → s.globalDisable = true ∧ s.counterBaseIndex = 0) := by
  intro s
  have h : SaveStackInv s := SaveStackInv.initial.run cfg hes
  refine ⟨h.top_eq, fun r hr hd => h.push_lt hr hd, fun r hr hd => h.pop_lt hr hd,
    fun r now hd => endTimingEvent_unmatched r now s hd, fun hall => ?_⟩
  have htop : s.regionSaveTop = 0 := by rw [h.top_eq, liveRegions_card_eq_zero hall]
  exact (h.closed htop).symm

/-- Two crossed regions, the first closed before the second. -/
theorem saveStack_of_crossed_regions :
    let es : List RuntimeCall :=
      [.startTimingEvent 0 1, .startTimingEvent 1 2, .endTimingEvent 0 3, .endTimingEvent 1 4]
    let s := run ⟨1, 4⟩ .initial es
    s.regionSaveTop = (liveRegions s).card ∧
    (∀ r < pragmaRegionLimit, s.regionDepth r = 0 → s.regionSaveTop < pragmaRegionLimit) ∧
    (∀ r < pragmaRegionLimit, s.regionDepth r ≠ 0 →
      0 < s.regionSaveTop ∧ s.regionSaveTop - 1 < pragmaRegionLimit) ∧
    (∀ r now, s.regionDepth r = 0 → endTimingEvent r now s = s) ∧
    ((∀ r < pragmaRegionLimit, s.regionDepth r = 0) → s.globalDisable = true ∧ s.counterBaseIndex = 0) :=
  saveStack_of_reachable ⟨1, 4⟩ _ (by decide)

end ZRay
