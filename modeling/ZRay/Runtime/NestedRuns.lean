import ZRay.Runtime.SaveStack

/-!
# Properly nested runs

A properly nested sequence of entries and exits, with any increments in between, hands the thread's counting state
back as it found it (`SameCounting`), whatever invocations inside it were sampled in or out.  The induction is on
the nesting: an outermost invocation restores what its own push saved, which the body below it leaves in place, and
a re-entry only moves the depth of its region.
-/

namespace ZRay

open Nesting

/-- The two states agree on the counting state: the row base, the flag, the depths, and the live part of the
save stack. -/
structure SameCounting (s s' : ThreadState) : Prop where
  counterBaseIndex : s'.counterBaseIndex = s.counterBaseIndex
  globalDisable : s'.globalDisable = s.globalDisable
  regionDepth : s'.regionDepth = s.regionDepth
  regionSaveTop : s'.regionSaveTop = s.regionSaveTop
  regionSaveStack : ∀ i < s.regionSaveTop, s'.regionSaveStack i = s.regionSaveStack i

theorem SameCounting.refl (s : ThreadState) : SameCounting s s := ⟨rfl, rfl, rfl, rfl, fun _ _ => rfl⟩

theorem SameCounting.trans {s₁ s₂ s₃ : ThreadState} (h : SameCounting s₁ s₂) (h' : SameCounting s₂ s₃) :
    SameCounting s₁ s₃ where
  counterBaseIndex := h'.counterBaseIndex.trans h.counterBaseIndex
  globalDisable := h'.globalDisable.trans h.globalDisable
  regionDepth := h'.regionDepth.trans h.regionDepth
  regionSaveTop := h'.regionSaveTop.trans h.regionSaveTop
  regionSaveStack i hi :=
    (h'.regionSaveStack i (h.regionSaveTop ▸ hi)).trans (h.regionSaveStack i hi)

theorem SameCounting.increment (i : Increment) (s : ThreadState) : SameCounting s (i.apply s) where
  counterBaseIndex := i.apply_counterBaseIndex s
  globalDisable := i.apply_globalDisable s
  regionDepth := i.apply_regionDepth s
  regionSaveTop := i.apply_regionSaveTop s
  regionSaveStack _ _ := by rw [i.apply_regionSaveStack s]

/-! ### What an outermost entry leaves on the stack -/

private theorem startTimingEvent_outermost_depth (cfg : RuntimeConfig) {r : Nat} (now : UInt64) {s : ThreadState}
    (h : s.regionDepth r = 0) :
    (startTimingEvent cfg r now s).regionDepth = Function.update s.regionDepth r 1 := by
  cases hs : sampled cfg (s.timingProfiles r).count with
  | true => rw [startTimingEvent_sampled cfg r now s h hs]
  | false => rw [startTimingEvent_skipped cfg r now s h hs]

private theorem startTimingEvent_outermost_stack (cfg : RuntimeConfig) {r : Nat} (now : UInt64) {s : ThreadState}
    (h : s.regionDepth r = 0) :
    (startTimingEvent cfg r now s).regionSaveTop = s.regionSaveTop + 1 ∧
    (startTimingEvent cfg r now s).regionSaveStack = s.pushSave.regionSaveStack := by
  cases hs : sampled cfg (s.timingProfiles r).count with
  | true => rw [startTimingEvent_sampled cfg r now s h hs]; exact ⟨rfl, rfl⟩
  | false => rw [startTimingEvent_skipped cfg r now s h hs]; exact ⟨rfl, rfl⟩

private theorem pushSave_top {s : ThreadState} (hlt : s.regionSaveTop < pragmaRegionLimit) :
    s.pushSave.regionSaveStack s.regionSaveTop = ⟨s.counterBaseIndex, s.globalDisable⟩ := by
  simp [ThreadState.pushSave, hlt]

private theorem pushSave_below {s : ThreadState} {i : Nat} (hi : i < s.regionSaveTop) :
    s.pushSave.regionSaveStack i = s.regionSaveStack i := by
  simp only [ThreadState.pushSave]
  split
  · rw [Function.update_of_ne (by omega)]
  · rfl

/-- The exit of an outermost invocation, after a body that kept the counting state, restores the state before the
entry. -/
theorem SameCounting.outermost {cfg : RuntimeConfig} {r : Nat} {t₀ t₁ : UInt64} {s s₂ : ThreadState}
    (hinv : SaveStackInv s) (hr : r < pragmaRegionLimit) (hd : s.regionDepth r = 0)
    (hbody : SameCounting (startTimingEvent cfg r t₀ s) s₂) :
    SameCounting s (endTimingEvent r t₁ s₂) := by
  have hlt : s.regionSaveTop < pragmaRegionLimit := hinv.push_lt hr hd
  obtain ⟨htop, hstack⟩ := startTimingEvent_outermost_stack cfg t₀ hd
  have hdepth := startTimingEvent_outermost_depth cfg t₀ hd
  have htop₂ : s₂.regionSaveTop = s.regionSaveTop + 1 := hbody.regionSaveTop.trans htop
  have hdepth₂ : s₂.regionDepth = Function.update s.regionDepth r 1 := hbody.regionDepth.trans hdepth
  have hsaved : s₂.regionSaveStack s.regionSaveTop = ⟨s.counterBaseIndex, s.globalDisable⟩ := by
    rw [hbody.regionSaveStack _ (by omega), hstack, pushSave_top hlt]
  have hpred : s₂.regionSaveTop - 1 = s.regionSaveTop := by omega
  rw [endTimingEvent_outermost r t₁ s₂ (by simp [hdepth₂]) (by omega) (by omega)]
  refine ⟨?_, ?_, ?_, hpred, fun i hi => ?_⟩
  · simp only [hpred, hsaved]
  · simp only [hpred, hsaved]
  · simp only [hdepth₂, Function.update_idem]
    rw [← hd, Function.update_eq_self]
  · show s₂.regionSaveStack i = s.regionSaveStack i
    rw [hbody.regionSaveStack i (by omega), hstack, pushSave_below hi]

/-- The exit of a re-entry takes back the depth its entry added. -/
theorem SameCounting.reentry {cfg : RuntimeConfig} {r : Nat} {t₀ t₁ : UInt64} {s s₂ : ThreadState}
    (hd : s.regionDepth r ≠ 0) (hbody : SameCounting (startTimingEvent cfg r t₀ s) s₂) :
    SameCounting s (endTimingEvent r t₁ s₂) := by
  rw [startTimingEvent_reentry cfg r t₀ s hd] at hbody
  have hdepth₂ : s₂.regionDepth = Function.update s.regionDepth r (s.regionDepth r + 1) := hbody.regionDepth
  rw [endTimingEvent_inner r t₁ s₂ (by rw [hdepth₂, Function.update_self]; omega)]
  refine ⟨hbody.counterBaseIndex, hbody.globalDisable, ?_, hbody.regionSaveTop, hbody.regionSaveStack⟩
  simp [hdepth₂]

/-- A properly nested run keeps the counting state. -/
theorem SameCounting.of_nested (cfg : RuntimeConfig) {t : List RuntimeCall}
    (ht : Nested RuntimeCall.bracket t) :
    ∀ {s : ThreadState}, SaveStackInv s → (∀ e ∈ t, e.InRange) → SameCounting s (run cfg s t) := by
  induction ht with
  | nil => intro s _ _; exact .refl s
  | @other e t he _ ih =>
    intro s hinv hr
    obtain ⟨i, rfl⟩ := RuntimeCall.bracket_eq_other.1 he
    have hinv' : SaveStackInv (i.apply s) := hinv.step cfg (e := .increment i) trivial
    exact (SameCounting.increment i s).trans (ih hinv' fun e' he' => hr e' (List.mem_cons_of_mem _ he'))
  | @enclose a b r u v ha _ hb _ ihu ihv =>
    intro s hinv hr
    obtain ⟨t₀, rfl⟩ := RuntimeCall.bracket_eq_enter.1 ha
    obtain ⟨t₁, rfl⟩ := RuntimeCall.bracket_eq_exit.1 hb
    have hlt : r < pragmaRegionLimit := hr (.startTimingEvent r t₀) (by simp)
    have hru : ∀ e ∈ u, e.InRange := fun e he => hr e (by simp [he])
    have hrv : ∀ e ∈ v, e.InRange := fun e he => hr e (by simp [he])
    have hinv₁ : SaveStackInv (startTimingEvent cfg r t₀ s) := hinv.startTimingEvent cfg t₀ hlt
    have hbody : SameCounting (startTimingEvent cfg r t₀ s) (run cfg (startTimingEvent cfg r t₀ s) u) :=
      ihu hinv₁ hru
    have hinvoke : SameCounting s (endTimingEvent r t₁ (run cfg (startTimingEvent cfg r t₀ s) u)) := by
      by_cases hd : s.regionDepth r = 0
      · exact .outermost hinv hlt hd hbody
      · exact .reentry hd hbody
    have hrest := ihv ((hinv₁.run cfg hru).endTimingEvent t₁ hlt) hrv
    have hsplit : run cfg s (.startTimingEvent r t₀ :: u ++ .endTimingEvent r t₁ :: v) =
        run cfg (endTimingEvent r t₁ (run cfg (startTimingEvent cfg r t₀ s) u)) v := by
      rw [run_append]; rfl
    rw [hsplit]
    exact hinvoke.trans hrest

/-- For every sampling period, every reachable thread state and every properly nested sequence of entries and
exits interleaved with increments, the counting state after the sequence is what it was before it. -/
theorem counting_restored_of_nested (cfg : RuntimeConfig) (before t : List RuntimeCall)
    (hbefore : ∀ e ∈ before, e.InRange) (ht : Nested RuntimeCall.bracket t) (hr : ∀ e ∈ t, e.InRange) :
    let s := run cfg .initial before
    let s' := run cfg s t
    s'.counterBaseIndex = s.counterBaseIndex ∧ s'.globalDisable = s.globalDisable ∧
    s'.regionDepth = s.regionDepth ∧ s'.regionSaveTop = s.regionSaveTop ∧
    ∀ i < s.regionSaveTop, s'.regionSaveStack i = s.regionSaveStack i := by
  intro s s'
  have h : SameCounting s s' := .of_nested cfg ht (SaveStackInv.initial.run cfg hbefore) hr
  exact ⟨h.counterBaseIndex, h.globalDisable, h.regionDepth, h.regionSaveTop, h.regionSaveStack⟩

/-- Inside region 0, a sampled-out invocation of region 1 that re-enters region 0. -/
theorem counting_restored_of_reentry :
    let before : List RuntimeCall := [.startTimingEvent 0 1, .startTimingEvent 1 2, .endTimingEvent 1 3]
    let t : List RuntimeCall :=
      [.startTimingEvent 1 4, .startTimingEvent 0 5, .increment (.counterArray 0 1), .endTimingEvent 0 6,
        .endTimingEvent 1 7]
    let s := run ⟨2, 4⟩ .initial before
    let s' := run ⟨2, 4⟩ s t
    s'.counterBaseIndex = s.counterBaseIndex ∧ s'.globalDisable = s.globalDisable ∧
    s'.regionDepth = s.regionDepth ∧ s'.regionSaveTop = s.regionSaveTop ∧
    ∀ i < s.regionSaveTop, s'.regionSaveStack i = s.regionSaveStack i :=
  counting_restored_of_nested ⟨2, 4⟩ _ _ (by decide) (by decide) (by decide)

end ZRay
