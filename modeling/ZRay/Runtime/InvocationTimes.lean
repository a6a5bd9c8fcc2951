import Mathlib
import ZRay.Runtime.SaveStack

/-!
# Counts and times of invocations

`RegionHistory` reads one region out of a sequence of calls: its depth and the entry and exit times of its completed
outermost invocations.  The runtime's invocation count is the length of that list for every sequence of calls, crossed
regions and unmatched exits included.  With `SAMPLING_PERIOD = 1` the elapsed time is the sum of the durations: the
exit reads a flag that all regions share and that is restored from a stack which crossed exits pop out of order, but
every saved flag above the bottom one is down (`TimesInvocations`), so counting stays on while any region is open.
-/

namespace ZRay

/-- What the calls say about one region, whatever they do to the others. -/
structure RegionHistory where
  depth : Nat := 0
  entry : UInt64 := 0
  completed : List (UInt64 × UInt64) := []

/-- An outermost invocation begins when the depth leaves 0 and is completed when the depth returns to 0. -/
def RegionHistory.step (r : Nat) (h : RegionHistory) : RuntimeCall → RegionHistory
  | .startTimingEvent q now =>
    if q ≠ r then h
    else if h.depth = 0 then { h with depth := 1, entry := now }
    else { h with depth := h.depth + 1 }
  | .endTimingEvent q now =>
    if q ≠ r then h
    else if h.depth = 1 then { h with depth := 0, completed := h.completed ++ [(h.entry, now)] }
    else { h with depth := h.depth - 1 }
  | .increment _ => h

def history (r : Nat) (es : List RuntimeCall) : RegionHistory := es.foldl (RegionHistory.step r) {}

/-- The time the completed invocations took, modulo `2 ^ 64`. -/
def RegionHistory.elapsed (h : RegionHistory) : UInt64 := (h.completed.map fun p => p.2 - p.1).sum

theorem history_concat (r : Nat) (es : List RuntimeCall) (e : RuntimeCall) :
    history r (es ++ [e]) = (history r es).step r e := by
  simp [history]

section

variable {q r : Nat} {es : List RuntimeCall} {now : UInt64}

theorem history_startTimingEvent :
    history q (es ++ [.startTimingEvent r now]) =
      if r ≠ q then history q es
      else if (history q es).depth = 0 then { history q es with depth := 1, entry := now }
      else { history q es with depth := (history q es).depth + 1 } := by
  rw [history_concat]
  rfl

theorem history_endTimingEvent :
    history q (es ++ [.endTimingEvent r now]) =
      if r ≠ q then history q es
      else if (history q es).depth = 1 then
        { history q es with
          depth := 0
          completed := (history q es).completed ++ [((history q es).entry, now)] }
      else { history q es with depth := (history q es).depth - 1 } := by
  rw [history_concat]
  rfl

theorem depth_startTimingEvent :
    (history q (es ++ [.startTimingEvent r now])).depth = (history q es).depth + if q = r then 1 else 0 := by
  rw [history_startTimingEvent]
  by_cases hq : q = r
  · subst hq
    by_cases hd : (history q es).depth = 0 <;> simp [hd]
  · simp [hq, Ne.symm hq]

theorem completed_startTimingEvent :
    (history q (es ++ [.startTimingEvent r now])).completed = (history q es).completed := by
  rw [history_startTimingEvent]
  split
  · rfl
  · split <;> rfl

theorem depth_endTimingEvent :
    (history q (es ++ [.endTimingEvent r now])).depth = (history q es).depth - if q = r then 1 else 0 := by
  rw [history_endTimingEvent]
  by_cases hq : q = r
  · subst hq
    by_cases hd : (history q es).depth = 1 <;> simp [hd]
  · simp [hq, Ne.symm hq]

theorem completed_endTimingEvent :
    (history q (es ++ [.endTimingEvent r now])).completed = (history q es).completed ++
      if q = r ∧ (history q es).depth = 1 then [((history q es).entry, now)] else [] := by
  rw [history_endTimingEvent]
  by_cases hq : q = r
  · subst hq
    by_cases hd : (history q es).depth = 1 <;> simp [hd]
  · simp [hq, Ne.symm hq]

theorem elapsed_startTimingEvent :
    (history q (es ++ [.startTimingEvent r now])).elapsed = (history q es).elapsed := by
  rw [RegionHistory.elapsed, completed_startTimingEvent]
  rfl

theorem elapsed_endTimingEvent :
    (history q (es ++ [.endTimingEvent r now])).elapsed = (history q es).elapsed +
      if q = r ∧ (history q es).depth = 1 then now - (history q es).entry else 0 := by
  rw [RegionHistory.elapsed, completed_endTimingEvent, List.map_append, List.sum_append]
  split <;> simp [RegionHistory.elapsed]

theorem history_increment (i : Increment) : history q (es ++ [.increment i]) = history q es := by
  rw [history_concat]
  rfl

end

/-! ### Counts -/

/-- The depths and the counts follow the histories, whatever the sampling period and the order of the exits. -/
structure CountsInvocations (s : ThreadState) (es : List RuntimeCall) : Prop where
  depth : ∀ q, s.regionDepth q = (history q es).depth
  count : ∀ q, (s.timingProfiles q).count = (history q es).completed.length

theorem CountsInvocations.step {cfg : RuntimeConfig} {s : ThreadState} {es : List RuntimeCall}
    (h : CountsInvocations s es) (e : RuntimeCall) : CountsInvocations (step cfg s e) (es ++ [e]) := by
  have hupdate : ∀ (r q n : Nat), Function.update s.regionDepth r n q =
    if q = r then n else (history q es).depth := by
    intro r q n
    rw [Function.update_apply, h.depth]
  cases e with
  | startTimingEvent r now =>
    refine ⟨fun q => ?_, fun q => ?_⟩
    · rw [ZRay.step, startTimingEvent_regionDepth, depth_startTimingEvent, hupdate, h.depth]
      by_cases hq : q = r <;> simp [hq]
    · rw [ZRay.step, startTimingEvent_count, completed_startTimingEvent, h.count]
  | endTimingEvent r now =>
    refine ⟨fun q => ?_, fun q => ?_⟩
    · rw [ZRay.step, endTimingEvent_regionDepth, depth_endTimingEvent, hupdate, h.depth]
      by_cases hq : q = r <;> simp [hq]
    · rw [ZRay.step, endTimingEvent_count, completed_endTimingEvent, h.count, h.depth, List.length_append]
      by_cases hq : q = r
      · subst hq
        by_cases hd : (history q es).depth = 1 <;> simp [hd]
      · simp [hq]
  | increment i =>
    refine ⟨fun q => ?_, fun q => ?_⟩
    · rw [ZRay.step, i.apply_regionDepth, history_increment, h.depth]
    · rw [ZRay.step, i.apply_timingProfiles, history_increment, h.count]

theorem CountsInvocations.run (cfg : RuntimeConfig) (es : List RuntimeCall) :
    CountsInvocations (run cfg .initial es) es := by
  induction es using List.reverseRecOn with
  | nil => exact ⟨fun _ => rfl, fun _ => rfl⟩
  | append_singleton es e ih =>
    rw [run_append]
    exact ih.step e

/-! ### Times -/

/-- With every invocation sampled, counting is on as long as a region is open: the saved flags above the bottom one
are down, whichever region finds them on its exit.  The time of a region starts with its open outermost invocation. -/
structure TimesInvocations (s : ThreadState) (es : List RuntimeCall) : Prop extends CountsInvocations s es where
  inv : SaveStackInv s
  flag : s.globalDisable = decide (s.regionSaveTop = 0)
  saved : ∀ i, 0 < i → i < s.regionSaveTop → (s.regionSaveStack i).disable = false
  started : ∀ q, (history q es).depth ≠ 0 → (s.timingProfiles q).startTime = (history q es).entry
  elapsed : ∀ q, (s.timingProfiles q).totalTimeElapsed = (history q es).elapsed

section

variable {cfg : RuntimeConfig} {s : ThreadState} {es : List RuntimeCall} {r : Nat} {now : UInt64}

theorem TimesInvocations.enter (hperiod : cfg.samplingPeriod = 1) (h : TimesInvocations s es)
    (hr : r < pragmaRegionLimit) :
    TimesInvocations (startTimingEvent cfg r now s) (es ++ [.startTimingEvent r now]) := by
  have hcounts : CountsInvocations (startTimingEvent cfg r now s) (es ++ [.startTimingEvent r now]) :=
    h.toCountsInvocations.step (.startTimingEvent r now)
  have hinv := h.inv.startTimingEvent cfg now hr
  by_cases hd : s.regionDepth r = 0
  · have hlt := h.inv.push_lt hr hd
    have hhist := h.depth r ▸ hd
    rw [startTimingEvent_sampled cfg r now s hd (by simp [sampled, hperiod, Nat.mod_one])] at hcounts hinv ⊢
    refine ⟨hcounts, hinv, ?_, fun i hpos hi => ?_, fun q hq => ?_, fun q => ?_⟩
    · show false = decide (s.regionSaveTop + 1 = 0)
      simp
    · -- the flag just saved is down if it is not the bottom one
      show (s.pushSave.regionSaveStack i).disable = false
      have hi' : i < s.regionSaveTop + 1 := hi
      simp only [ThreadState.pushSave, if_pos hlt]
      by_cases htop : i = s.regionSaveTop
      · rw [htop, Function.update_self, h.flag]
        simp only [decide_eq_false_iff_not]
        omega
      · rw [Function.update_of_ne htop]
        exact h.saved i hpos (by omega)
    · rw [history_startTimingEvent] at hq ⊢
      by_cases hqr : q = r
      · subst hqr
        simp [hhist]
      · rw [if_pos (Ne.symm hqr)] at hq ⊢
        simpa [hqr] using h.started q hq
    · rw [elapsed_startTimingEvent, ← h.elapsed]
      by_cases hqr : q = r
      · subst hqr
        simp
      · simp [hqr]
  · have hhist := h.depth r ▸ hd
    rw [startTimingEvent_reentry cfg r now s hd] at hcounts hinv ⊢
    refine ⟨hcounts, hinv, h.flag, h.saved, fun q hq => ?_, fun q => ?_⟩
    · rw [history_startTimingEvent] at hq ⊢
      by_cases hqr : q = r
      · subst hqr
        simpa [hhist] using h.started q hhist
      · rw [if_pos (Ne.symm hqr)] at hq ⊢
        exact h.started q hq
    · rw [elapsed_startTimingEvent]
      exact h.elapsed q

theorem TimesInvocations.exit (h : TimesInvocations s es) (hr : r < pragmaRegionLimit) :
    TimesInvocations (endTimingEvent r now s) (es ++ [.endTimingEvent r now]) := by
  have hcounts : CountsInvocations (step ⟨0, 0⟩ s (.endTimingEvent r now)) (es ++ [.endTimingEvent r now]) :=
    h.toCountsInvocations.step (.endTimingEvent r now)
  rw [step] at hcounts
  have hinv := h.inv.endTimingEvent now hr
  by_cases h1 : s.regionDepth r = 1
  · have hhist := h.depth r ▸ h1
    obtain ⟨hpos, hlt⟩ := h.inv.pop_lt hr (by omega)
    rw [endTimingEvent_outermost r now s h1 hpos hlt] at hcounts hinv ⊢
    refine ⟨hcounts, hinv, ?_, fun i hi hi' => h.saved i hi ?_, fun q hq => ?_, fun q => ?_⟩
    · show (s.regionSaveStack (s.regionSaveTop - 1)).disable = decide (s.regionSaveTop - 1 = 0)
      by_cases htop : s.regionSaveTop - 1 = 0
      · rw [htop, h.inv.bottom hpos]
        rfl
      · rw [h.saved _ (by omega) (by omega), decide_eq_false htop]
    · have hi'' : i < s.regionSaveTop - 1 := hi'
      omega
    · rw [history_endTimingEvent] at hq ⊢
      by_cases hqr : q = r
      · subst hqr
        simp [hhist] at hq
      · rw [if_pos (Ne.symm hqr)] at hq ⊢
        simpa [hqr] using h.started q hq
    · rw [elapsed_endTimingEvent]
      by_cases hqr : q = r
      · subst hqr
        have hflag : s.globalDisable = false := by
          rw [h.flag, decide_eq_false_iff_not]
          omega
        simp [ThreadState.closedProfile, hflag, hhist, h.elapsed, h.started q (by rw [hhist]; exact Nat.one_ne_zero)]
      · simpa [hqr] using h.elapsed q
  · -- an inner or an unmatched exit moves the depth at most
    have hhist : (history r es).depth ≠ 1 := h.depth r ▸ h1
    have hsame : endTimingEvent r now s =
        { s with regionDepth := Function.update s.regionDepth r (s.regionDepth r - 1) } := by
      by_cases h0 : s.regionDepth r = 0
      · rw [endTimingEvent_unmatched r now s h0, h0, Nat.zero_sub, ← h0, Function.update_eq_self]
      · exact endTimingEvent_inner r now s (by omega)
    rw [hsame] at hcounts hinv ⊢
    refine ⟨hcounts, hinv, h.flag, h.saved, fun q hq => ?_, fun q => ?_⟩
    · have hq' : (history q es).depth ≠ 0 := by
        rw [depth_endTimingEvent] at hq
        omega
      rw [history_endTimingEvent]
      by_cases hqr : q = r
      · subst hqr
        simpa [hhist] using h.started q hq'
      · rw [if_pos (Ne.symm hqr)]
        exact h.started q hq'
    · have hopen : ¬ (q = r ∧ (history q es).depth = 1) := by
        rintro ⟨rfl, hd⟩
        exact hhist hd
      rw [elapsed_endTimingEvent, if_neg hopen, add_zero]
      exact h.elapsed q

theorem TimesInvocations.step (hperiod : cfg.samplingPeriod = 1) (h : TimesInvocations s es) {e : RuntimeCall}
    (he : e.InRange) : TimesInvocations (step cfg s e) (es ++ [e]) := by
  cases e with
  | startTimingEvent r now => exact h.enter hperiod he
  | endTimingEvent r now => exact h.exit he
  | increment i =>
    refine ⟨h.toCountsInvocations.step (.increment i), h.inv.step cfg trivial, ?_, ?_, ?_, ?_⟩ <;>
      simp only [ZRay.step, Increment.apply_globalDisable, Increment.apply_regionSaveTop,
        Increment.apply_regionSaveStack, Increment.apply_timingProfiles, history_increment]
    exacts [h.flag, h.saved, h.started, h.elapsed]

end

/-- An open region has been entered, so its id is in range. -/
theorem lt_limit_of_depth {es : List RuntimeCall} (hes : ∀ e ∈ es, e.InRange) {r : Nat}
    (hr : 0 < (history r es).depth) : r < pragmaRegionLimit := by
  induction es using List.reverseRecOn with
  | nil => exact absurd hr (Nat.lt_irrefl 0)
  | append_singleton es e ih =>
    have hrest : ∀ e' ∈ es, e'.InRange := fun e' he' => hes e' (List.mem_append_left _ he')
    cases e with
    | startTimingEvent q now =>
      by_cases hq : r = q
      · exact hq ▸ hes (.startTimingEvent q now) (by simp)
      · rw [depth_startTimingEvent, if_neg hq] at hr
        exact ih hrest hr
    | endTimingEvent q now =>
      rw [depth_endTimingEvent] at hr
      exact ih hrest (by omega)
    | increment i =>
      rw [history_increment] at hr
      exact ih hrest hr

/-- For every sequence of entries, exits and increments, crossed regions and unmatched exits included: a region's
count is the number of its completed outermost invocations; with every invocation sampled, counting is on exactly
while a region is open, and a region's time is that of its completed outermost invocations. -/
theorem invocations_counted_and_timed (cfg : RuntimeConfig) (es : List RuntimeCall) (hes : ∀ e ∈ es, e.InRange) :
    (∀ r, ((run cfg .initial es).timingProfiles r).count = (history r es).completed.length) ∧
      (cfg.samplingPeriod = 1 →
        ((run cfg .initial es).globalDisable = false ↔ ∃ r, 0 < (history r es).depth) ∧
          ∀ r, ((run cfg .initial es).timingProfiles r).totalTimeElapsed = (history r es).elapsed) := by
  refine ⟨(CountsInvocations.run cfg es).count, fun hperiod => ?_⟩
  have h : TimesInvocations (run cfg .initial es) es := by
    refine run_history (fun s es e he hs => hs.step hperiod he) hes ?_
    exact ⟨⟨fun _ => rfl, fun _ => rfl⟩, .initial, rfl, fun i hi hi' => absurd hi' (Nat.not_lt_zero i),
      fun q hq => absurd rfl hq, fun _ => rfl⟩
  refine ⟨?_, h.elapsed⟩
  rw [h.flag, decide_eq_false_iff_not, h.inv.top_eq, Finset.card_eq_zero, ← ne_eq, ← Finset.nonempty_iff_ne_empty]
  constructor
  · rintro ⟨r, hr⟩
    exact ⟨r, h.depth r ▸ (mem_liveRegions.mp hr).2⟩
  · rintro ⟨r, hr⟩
    exact ⟨r, mem_liveRegions.mpr ⟨lt_limit_of_depth hes hr, (h.depth r).symm ▸ hr⟩⟩

/-- Two crossed regions, the first one closed, and an unmatched exit. -/
theorem invocations_of_crossed_regions :
    let es : List RuntimeCall :=
      [.startTimingEvent 0 1, .startTimingEvent 1 2, .endTimingEvent 0 5, .endTimingEvent 2 6]
    let s := run ⟨1, 4⟩ .initial es
    (s.timingProfiles 0).count = 1 ∧ (s.timingProfiles 0).totalTimeElapsed = 4 ∧ (s.timingProfiles 1).count = 0 ∧
      s.globalDisable = false := by
  intro es s
  obtain ⟨hcount, htimes⟩ := invocations_counted_and_timed ⟨1, 4⟩ es (by decide)
  obtain ⟨hflag, helapsed⟩ := htimes rfl
  exact ⟨hcount 0, helapsed 0, hcount 1, hflag.mpr ⟨1, by decide⟩⟩

end ZRay
