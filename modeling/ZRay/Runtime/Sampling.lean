import Mathlib.Data.List.Nodup
import ZRay.Runtime.NestedRuns

/-!
# Sampled invocations

`ZRAY_SAMPLE_RATE` instruments every `N`th outermost invocation of a region.  `Invocations` follows a properly
nested run and says what that means: it keeps the open invocations, the number of completed outermost invocations of
each region and the time the sampled ones took.  `SamplingIsolated` compares the runtime with it.

The entry decides whether an invocation is sampled, but the exit and the increments read `globalDisable`, which a
skipped entry leaves as it is.  So a skipped invocation stays silent exactly when no sampled one encloses it
(`SkippedOutsideSampled`).
-/

namespace ZRay

open Nesting

/-- An open entry: `index` counts the earlier outermost invocations of the region, and `outermost` is false for the
re-entry of an open region. -/
structure Invocation where
  region : Nat
  outermost : Bool
  index : Nat
  entry : UInt64
  deriving DecidableEq

/-- What a properly nested run has done so far. -/
structure Invocations where
  opened : List Invocation := []
  completed : Nat → Nat := fun _ => 0
  elapsed : Nat → UInt64 := fun _ => 0

/-- No outermost invocation among the given ones is sampled with period `P`. -/
def allSkipped (P : Nat) (l : List Invocation) : Bool :=
  l.all fun X => !X.outermost || !decide (P ∣ X.index)

def Invocations.isOpen (g : Invocations) (r : Nat) : Bool := g.opened.any fun X => X.region = r

def Invocations.enter (g : Invocations) (r : Nat) (now : UInt64) : Invocations :=
  { g with opened := ⟨r, !g.isOpen r, g.completed r, now⟩ :: g.opened }

/-- The innermost open entry `X` exits. -/
def Invocations.exit (P : Nat) (g : Invocations) (X : Invocation) (rest : List Invocation) (now : UInt64) :
    Invocations where
  opened := rest
  completed :=
    if X.outermost then Function.update g.completed X.region (g.completed X.region + 1) else g.completed
  elapsed :=
    if X.outermost && P ∣ X.index then
      Function.update g.elapsed X.region (g.elapsed X.region + (now - X.entry))
    else g.elapsed

def Invocations.step (P : Nat) (g : Invocations) : RuntimeCall → Option Invocations
  | .startTimingEvent r now => some (g.enter r now)
  | .endTimingEvent r now =>
    match g.opened with
    | X :: rest => if r = X.region then some (g.exit P X rest now) else none
    | [] => none
  | .increment _ => some g

/-- Follow a run; `none` once an exit does not match the innermost open entry. -/
def Invocations.follow (P : Nat) (g : Invocations) (es : List RuntimeCall) : Option Invocations :=
  es.foldlM (Invocations.step P) g

def clockReadings (es : List RuntimeCall) : List UInt64 :=
  es.filterMap fun
    | .startTimingEvent _ now => some now
    | .endTimingEvent _ now => some now
    | .increment _ => none

def ThreadState.arrays (s : ThreadState) : (Nat → Nat) × (Nat → Nat) × (Nat → Nat) :=
  (s.counterArray, s.loadRuntimeArray, s.storeRuntimeArray)

def ThreadState.elapsed (s : ThreadState) (r : Nat) : UInt64 := (s.timingProfiles r).totalTimeElapsed

/-- A skipped outermost invocation contributes nothing: increments made in it, outside the sampled invocations
nested in it, change no cell, and its exit adds no time; so the elapsed time of a region is that of its completed
sampled invocations. -/
structure SamplingIsolated (cfg : RuntimeConfig) (t : List RuntimeCall) : Prop where
  increments : ∀ pre i post, t = pre ++ .increment i :: post →
    ∀ g, Invocations.follow cfg.samplingPeriod {} pre = some g →
    ∀ above X below, g.opened = above ++ X :: below → X.outermost = true → ¬ cfg.samplingPeriod ∣ X.index →
      allSkipped cfg.samplingPeriod above = true →
      (run cfg .initial (pre ++ [.increment i])).arrays = (run cfg .initial pre).arrays
  exits : ∀ pre r t₀ body t₁ post,
    t = pre ++ .startTimingEvent r t₀ :: body ++ .endTimingEvent r t₁ :: post →
    Nested RuntimeCall.bracket body →
    ∀ g, Invocations.follow cfg.samplingPeriod {} pre = some g → g.isOpen r = false →
      ¬ cfg.samplingPeriod ∣ g.completed r →
      (run cfg .initial (pre ++ .startTimingEvent r t₀ :: body ++ [.endTimingEvent r t₁])).elapsed r =
        (run cfg .initial pre).elapsed r
  elapsed : ∀ pre post, t = pre ++ post → ∀ g, Invocations.follow cfg.samplingPeriod {} pre = some g →
    ∀ r, (run cfg .initial pre).elapsed r = g.elapsed r

/-- No skipped outermost invocation is entered while a sampled one is open. -/
def SkippedOutsideSampled (P : Nat) (t : List RuntimeCall) : Prop :=
  ∀ pre r now post, t = pre ++ .startTimingEvent r now :: post →
    ∀ g, Invocations.follow P {} pre = some g → g.isOpen r = false → ¬ P ∣ g.completed r →
      allSkipped P g.opened = true

/-! ### Following a run -/

theorem Invocations.follow_append (P : Nat) (g : Invocations) (u v : List RuntimeCall) :
    g.follow P (u ++ v) = (g.follow P u).bind fun g' => g'.follow P v := by
  simp [follow, List.foldlM_append]

@[simp] theorem Invocations.follow_nil (P : Nat) (g : Invocations) : g.follow P [] = some g := rfl

theorem Invocations.follow_singleton (P : Nat) (g : Invocations) (e : RuntimeCall) :
    g.follow P [e] = g.step P e := by
  simp [follow]

theorem Invocations.follow_cons (P : Nat) (g : Invocations) (e : RuntimeCall) (es : List RuntimeCall) :
    g.follow P (e :: es) = (g.step P e).bind fun g' => g'.follow P es := by
  simp [follow]

/-- The regions of the open entries are the stack of open brackets. -/
theorem Invocations.step_opened (P : Nat) (g : Invocations) (e : RuntimeCall) :
    (g.step P e).map (fun g' => g'.opened.map Invocation.region) =
      e.bracket.apply (g.opened.map Invocation.region) := by
  cases e with
  | startTimingEvent r now => simp [step, enter, RuntimeCall.bracket, Bracket.apply]
  | endTimingEvent r now =>
    cases h : g.opened with
    | nil => simp [step, RuntimeCall.bracket, Bracket.apply, h]
    | cons X rest =>
      by_cases hr : r = X.region <;> simp [step, RuntimeCall.bracket, Bracket.apply, h, hr, exit]
  | increment i => simp [step, RuntimeCall.bracket, Bracket.apply]

theorem Invocations.follow_opened (P : Nat) (g : Invocations) (es : List RuntimeCall) :
    (g.follow P es).map (fun g' => g'.opened.map Invocation.region) =
      openAfter RuntimeCall.bracket (g.opened.map Invocation.region) es := by
  induction es generalizing g with
  | nil => rfl
  | cons e es ih =>
    rw [follow_cons, openAfter, ← step_opened P g e, Option.map_bind, Option.bind_map]
    congr 1
    funext g'
    exact ih g'

/-- Every prefix of a properly nested run can be followed. -/
theorem Invocations.exists_follow {P : Nat} {pre post : List RuntimeCall}
    (h : Nested RuntimeCall.bracket (pre ++ post)) (g : Invocations) : ∃ g', g.follow P pre = some g' := by
  obtain ⟨stk, hstk⟩ := h.openAfter_of_append (g.opened.map Invocation.region)
  rw [← follow_opened P] at hstk
  obtain ⟨g', hg', -⟩ := Option.map_eq_some_iff.1 hstk
  exact ⟨g', hg'⟩

/-! ### The runtime state of a followed run -/

theorem allSkipped_cons (P : Nat) (X : Invocation) (l : List Invocation) :
    allSkipped P (X :: l) = ((!X.outermost || !decide (P ∣ X.index)) && allSkipped P l) := rfl

theorem allSkipped_append (P : Nat) (l m : List Invocation) :
    allSkipped P (l ++ m) = (allSkipped P l && allSkipped P m) := by
  simp [allSkipped]

theorem Invocations.isOpen_eq_false {g : Invocations} {r : Nat} :
    g.isOpen r = false ↔ ∀ X ∈ g.opened, X.region ≠ r := by
  simp [isOpen]

theorem sampled_iff {cfg : RuntimeConfig} (hP : 1 ≤ cfg.samplingPeriod) (n : Nat) :
    sampled cfg n = decide (cfg.samplingPeriod ∣ n) := by
  have h0 : cfg.samplingPeriod ≠ 0 := by omega
  simp [sampled, h0, Nat.dvd_iff_mod_eq_zero]

/-- The runtime state after a followed run.  The flag is off as soon as one open invocation is sampled, and the
save of each open outermost invocation holds the flag of the entries below it. -/
structure Tracks (cfg : RuntimeConfig) (s : ThreadState) (g : Invocations) : Prop where
  inv : SaveStackInv s
  depth : ∀ r, s.regionDepth r = g.opened.countP fun X => X.region = r
  count : ∀ r, (s.timingProfiles r).count = g.completed r
  outermost : ∀ above X below, g.opened = above ++ X :: below →
    X.outermost = !below.any fun Y => Y.region = X.region
  flag : s.globalDisable = allSkipped cfg.samplingPeriod g.opened
  top : s.regionSaveTop = g.opened.countP (·.outermost)
  saved : ∀ above X below, g.opened = above ++ X :: below → X.outermost = true →
    (s.regionSaveStack (below.countP (·.outermost))).disable = allSkipped cfg.samplingPeriod below
  started : ∀ X ∈ g.opened, X.outermost = true → cfg.samplingPeriod ∣ X.index →
    (s.timingProfiles X.region).startTime = X.entry

theorem Tracks.initial (cfg : RuntimeConfig) : Tracks cfg .initial {} where
  inv := .initial
  depth _ := rfl
  count _ := rfl
  outermost _ _ _ h := by simp at h
  flag := rfl
  top := rfl
  saved _ _ _ h := by simp at h
  started _ h := by simp at h

section
variable {cfg : RuntimeConfig} {s : ThreadState} {g : Invocations} {r : Nat} {now : UInt64}

theorem Tracks.depth_eq_zero (h : Tracks cfg s g) : s.regionDepth r = 0 ↔ g.isOpen r = false := by
  rw [h.depth, List.countP_eq_zero, Invocations.isOpen_eq_false]
  simp

private theorem Tracks.enter_open (h : Tracks cfg s g) (hr : r < pragmaRegionLimit) (ho : g.isOpen r = true) :
    Tracks cfg (startTimingEvent cfg r now s) (g.enter r now) := by
  have hd : s.regionDepth r ≠ 0 := fun h0 => by simp [h.depth_eq_zero.1 h0] at ho
  have hinv := h.inv.startTimingEvent cfg now hr
  rw [startTimingEvent_reentry cfg r now s hd] at hinv ⊢
  refine ⟨hinv, fun q => ?_, h.count, fun above X below hsplit => ?_, ?_, ?_, fun above X below hsplit hX => ?_,
    fun X hX hout => ?_⟩
  · by_cases hq : q = r
    · subst hq; simp [Invocations.enter, h.depth]
    · simp [Invocations.enter, h.depth, hq, Ne.symm hq]
  · cases above with
    | nil =>
      obtain ⟨rfl, rfl⟩ := List.cons.inj hsplit
      simp [Invocations.isOpen]
    | cons Z above =>
      obtain ⟨-, hsplit⟩ : _ ∧ g.opened = above ++ X :: below := List.cons.inj hsplit
      exact h.outermost above X below hsplit
  · simp [Invocations.enter, allSkipped_cons, ho, h.flag]
  · simp [Invocations.enter, ho, h.top]
  · cases above with
    | nil =>
      obtain ⟨rfl, rfl⟩ := List.cons.inj hsplit
      simp [ho] at hX
    | cons Z above =>
      obtain ⟨-, hsplit⟩ : _ ∧ g.opened = above ++ X :: below := List.cons.inj hsplit
      exact h.saved above X below hsplit hX
  · rcases List.mem_cons.1 hX with rfl | hX
    · simp [ho] at hout
    · exact h.started X hX hout

/-- The saves after the push of an outermost entry. -/
private theorem Tracks.pushSave_saved (h : Tracks cfg s g) (hlt : s.regionSaveTop < pragmaRegionLimit)
    {above below : List Invocation} {X Y : Invocation} (hsplit : Y :: g.opened = above ++ X :: below)
    (hX : X.outermost = true) :
    (s.pushSave.regionSaveStack (below.countP (·.outermost))).disable = allSkipped cfg.samplingPeriod below := by
  cases above with
  | nil =>
    obtain ⟨-, rfl⟩ := List.cons.inj hsplit
    rw [← h.top]
    simp [ThreadState.pushSave, hlt, h.flag]
  | cons Z above =>
    obtain ⟨-, hsplit⟩ : _ ∧ g.opened = above ++ X :: below := List.cons.inj hsplit
    have hpos : below.countP (·.outermost) < s.regionSaveTop := by
      rw [h.top, hsplit, List.countP_append, List.countP_cons, hX]
      simp only [if_true]
      omega
    rw [← h.saved above X below hsplit hX]
    simp only [ThreadState.pushSave, if_pos hlt]
    rw [Function.update_of_ne (by omega)]

private theorem Tracks.enter_fresh (hP : 1 ≤ cfg.samplingPeriod) (h : Tracks cfg s g) (hr : r < pragmaRegionLimit)
    (ho : g.isOpen r = false) : Tracks cfg (startTimingEvent cfg r now s) (g.enter r now) := by
  have hd : s.regionDepth r = 0 := h.depth_eq_zero.2 ho
  have hlt : s.regionSaveTop < pragmaRegionLimit := h.inv.push_lt hr hd
  have hinv := h.inv.startTimingEvent cfg now hr
  have hne := Invocations.isOpen_eq_false.1 ho
  have hdepth : ∀ q, Function.update s.regionDepth r 1 q = (g.enter r now).opened.countP fun X => X.region = q := by
    intro q
    by_cases hq : q = r
    · subst hq
      have := h.depth q
      rw [hd] at this
      simp [Invocations.enter, ← this]
    · simp [Invocations.enter, h.depth, hq, Ne.symm hq]
  have houter : ∀ above X below, (g.enter r now).opened = above ++ X :: below →
      X.outermost = !below.any fun Y => Y.region = X.region := by
    intro above X below hsplit
    cases above with
    | nil =>
      obtain ⟨rfl, rfl⟩ := List.cons.inj hsplit
      simp [Invocations.isOpen]
    | cons Z above =>
      obtain ⟨-, hsplit⟩ : _ ∧ g.opened = above ++ X :: below := List.cons.inj hsplit
      exact h.outermost above X below hsplit
  have htop : s.regionSaveTop + 1 = (g.enter r now).opened.countP (·.outermost) := by
    simp [Invocations.enter, ho, h.top]
  cases hs : sampled cfg (s.timingProfiles r).count with
  | true =>
    rw [startTimingEvent_sampled cfg r now s hd hs] at hinv ⊢
    rw [sampled_iff hP, h.count, decide_eq_true_eq] at hs
    refine ⟨hinv, hdepth, fun q => ?_, houter, ?_, htop, fun above X below hsplit hX =>
      h.pushSave_saved hlt hsplit hX,
      fun X hX hout hdvd => ?_⟩
    · by_cases hq : q = r
      · subst hq; simp [Invocations.enter, h.count]
      · simp [Invocations.enter, hq, h.count]
    · simp [Invocations.enter, allSkipped_cons, ho, hs]
    · rcases List.mem_cons.1 hX with rfl | hX
      · simp
      · simp [hne X hX, h.started X hX hout hdvd]
  | false =>
    rw [startTimingEvent_skipped cfg r now s hd hs] at hinv ⊢
    rw [sampled_iff hP, h.count, decide_eq_false_iff_not] at hs
    refine ⟨hinv, hdepth, h.count, houter, ?_, htop, fun above X below hsplit hX => h.pushSave_saved hlt hsplit hX,
      fun X hX hout hdvd => ?_⟩
    · simp [Invocations.enter, allSkipped_cons, hs, ThreadState.pushSave, h.flag]
    · rcases List.mem_cons.1 hX with rfl | hX
      · exact absurd hdvd hs
      · exact h.started X hX hout hdvd

/-- The exit of the innermost open entry closes its region's outermost invocation exactly when the entry is one. -/
theorem Tracks.depth_innermost (h : Tracks cfg s g) {X : Invocation} {rest : List Invocation}
    (ho : g.opened = X :: rest) :
    if X.outermost then s.regionDepth X.region = 1 else 1 < s.regionDepth X.region := by
  have hd := h.depth X.region
  have hout := h.outermost [] X rest ho
  rw [ho, List.countP_cons_of_pos (by simp)] at hd
  cases hX : X.outermost with
  | true =>
    rw [hX] at hout
    have hzero : (rest.countP fun Y => Y.region = X.region) = 0 := by
      rw [List.countP_eq_zero]
      simpa using hout.symm
    simp only [if_true]
    omega
  | false =>
    rw [hX] at hout
    have hpos : 0 < rest.countP fun Y => Y.region = X.region := by
      rw [List.countP_pos_iff]
      simpa using hout.symm
    simp only [Bool.false_eq_true, if_false]
    omega

private theorem Tracks.exit (h : Tracks cfg s g) {X : Invocation} {rest : List Invocation}
    (ho : g.opened = X :: rest) (hr : X.region < pragmaRegionLimit) :
    Tracks cfg (endTimingEvent X.region now s) (g.exit cfg.samplingPeriod X rest now) := by
  have hinv := h.inv.endTimingEvent now hr
  have hdX := h.depth_innermost ho
  have houter : ∀ above Y below, rest = above ++ Y :: below → Y.outermost = !below.any fun Z => Z.region = Y.region :=
    fun above Y below hsplit => h.outermost (X :: above) Y below (by rw [ho, hsplit]; rfl)
  have hsaved : ∀ above Y below, rest = above ++ Y :: below → Y.outermost = true →
      (s.regionSaveStack (below.countP (·.outermost))).disable = allSkipped cfg.samplingPeriod below :=
    fun above Y below hsplit => h.saved (X :: above) Y below (by rw [ho, hsplit]; rfl)
  have hstarted : ∀ Y ∈ rest, Y.outermost = true → cfg.samplingPeriod ∣ Y.index →
      (s.timingProfiles Y.region).startTime = Y.entry :=
    fun Y hY => h.started Y (by rw [ho]; exact List.mem_cons_of_mem _ hY)
  have hdepth : ∀ q, Function.update s.regionDepth X.region (s.regionDepth X.region - 1) q =
      rest.countP fun Y => Y.region = q := by
    intro q
    have hq := h.depth q
    rw [ho] at hq
    by_cases hqX : q = X.region
    · subst hqX
      rw [List.countP_cons_of_pos (by simp)] at hq
      simp [hq]
    · rw [List.countP_cons_of_neg (by simp [Ne.symm hqX])] at hq
      simp [hqX, hq]
  cases hX : X.outermost with
  | true =>
    simp only [hX, if_true] at hdX
    obtain ⟨hpos, hlt⟩ := h.inv.pop_lt hr (by omega)
    have htop : s.regionSaveTop - 1 = rest.countP (·.outermost) := by
      rw [h.top, ho, List.countP_cons_of_pos hX, Nat.add_sub_cancel]
    rw [hdX] at hdepth
    rw [endTimingEvent_outermost X.region now s hdX hpos hlt] at hinv ⊢
    refine ⟨hinv, hdepth, fun q => ?_, houter, ?_, htop, hsaved, fun Y hY hout hdvd => ?_⟩
    · by_cases hq : q = X.region
      · subst hq; simp [Invocations.exit, hX, ThreadState.closedProfile, h.count]
      · simp [Invocations.exit, hX, hq, h.count]
    · rw [htop]
      exact h.saved [] X rest ho hX
    · by_cases hq : Y.region = X.region
      · simp [hq, ThreadState.closedProfile, ← hstarted Y hY hout hdvd]
      · simp [hq, hstarted Y hY hout hdvd]
  | false =>
    simp only [hX, Bool.false_eq_true, if_false] at hdX
    rw [endTimingEvent_inner X.region now s hdX] at hinv ⊢
    refine ⟨hinv, hdepth, fun q => ?_, houter, ?_, ?_, hsaved, hstarted⟩
    · simp [Invocations.exit, hX, h.count]
    · simp [Invocations.exit, h.flag, ho, allSkipped_cons, hX]
    · simp [Invocations.exit, h.top, ho, hX]

theorem Tracks.step (hP : 1 ≤ cfg.samplingPeriod) (h : Tracks cfg s g) {e : RuntimeCall} (he : e.InRange)
    {g' : Invocations} (hg : g.step cfg.samplingPeriod e = some g') : Tracks cfg (step cfg s e) g' := by
  cases e with
  | startTimingEvent r now =>
    simp only [Invocations.step, Option.some.injEq] at hg
    subst hg
    cases ho : g.isOpen r with
    | true => exact h.enter_open he ho
    | false => exact h.enter_fresh hP he ho
  | endTimingEvent r now =>
    simp only [Invocations.step] at hg
    split at hg
    · rename_i X rest ho
      split at hg
      · rename_i hr
        subst hr
        simp only [Option.some.injEq] at hg
        subst hg
        exact h.exit ho he
      · simp at hg
    · simp at hg
  | increment i =>
    simp only [Invocations.step, Option.some.injEq] at hg
    subst hg
    have hinv := h.inv.step cfg (e := .increment i) trivial
    refine ⟨hinv, ?_, ?_, h.outermost, ?_, ?_, ?_, ?_⟩ <;> simp only [ZRay.step, Increment.apply_regionDepth,
      Increment.apply_timingProfiles, Increment.apply_globalDisable, Increment.apply_regionSaveTop,
      Increment.apply_regionSaveStack]
    exacts [h.depth, h.count, h.flag, h.top, h.saved, h.started]

theorem Tracks.run (hP : 1 ≤ cfg.samplingPeriod) {es : List RuntimeCall} (hes : ∀ e ∈ es, e.InRange)
    (h : Tracks cfg s g) {g' : Invocations} (hg : g.follow cfg.samplingPeriod es = some g') :
    Tracks cfg (run cfg s es) g' := by
  induction es generalizing s g with
  | nil =>
    simp only [Invocations.follow_nil, Option.some.injEq] at hg
    exact hg ▸ h
  | cons e es ih =>
    rw [Invocations.follow_cons] at hg
    obtain ⟨g₁, hg₁, hg⟩ := Option.bind_eq_some_iff.1 hg
    exact ih (fun e' he' => hes e' (List.mem_cons_of_mem _ he')) (h.step hP (hes e (List.mem_cons_self ..)) hg₁) hg

end

/-! ### Skipped invocations outside the sampled ones -/

/-- Below a skipped open invocation every open invocation is skipped, and the elapsed times are those of the
completed sampled invocations. -/
structure Gated (cfg : RuntimeConfig) (s : ThreadState) (g : Invocations) : Prop where
  enclosed : ∀ above X below, g.opened = above ++ X :: below → X.outermost = true → ¬ cfg.samplingPeriod ∣ X.index →
    allSkipped cfg.samplingPeriod below = true
  elapsed : ∀ r, s.elapsed r = g.elapsed r

section
variable {cfg : RuntimeConfig} {s : ThreadState} {g : Invocations}

theorem startTimingEvent_elapsed (cfg : RuntimeConfig) (r : Nat) (now : UInt64) (s : ThreadState) (q : Nat) :
    (startTimingEvent cfg r now s).elapsed q = s.elapsed q := by
  by_cases hd : s.regionDepth r = 0
  · cases hs : sampled cfg (s.timingProfiles r).count with
    | true =>
      rw [startTimingEvent_sampled cfg r now s hd hs]
      by_cases hq : q = r
      · subst hq; simp [ThreadState.elapsed]
      · simp [ThreadState.elapsed, hq]
    | false => rw [startTimingEvent_skipped cfg r now s hd hs]; rfl
  · rw [startTimingEvent_reentry cfg r now s hd]; rfl

private theorem Gated.enter (h : Gated cfg s g) {r : Nat} {now : UInt64}
    (hfresh : g.isOpen r = false → ¬ cfg.samplingPeriod ∣ g.completed r →
      allSkipped cfg.samplingPeriod g.opened = true) :
    Gated cfg (startTimingEvent cfg r now s) (g.enter r now) := by
  refine ⟨fun above X below hsplit hout hdvd => ?_, fun q => ?_⟩
  · cases above with
    | nil =>
      obtain ⟨rfl, rfl⟩ := List.cons.inj hsplit
      exact hfresh (by simpa using hout) hdvd
    | cons Z above =>
      obtain ⟨-, hsplit⟩ : _ ∧ g.opened = above ++ X :: below := List.cons.inj hsplit
      exact h.enclosed above X below hsplit hout hdvd
  · rw [startTimingEvent_elapsed, h.elapsed]; rfl

private theorem Gated.exit (h : Gated cfg s g) (ht : Tracks cfg s g) {X : Invocation} {rest : List Invocation}
    {now : UInt64} (ho : g.opened = X :: rest) (hr : X.region < pragmaRegionLimit) :
    Gated cfg (endTimingEvent X.region now s) (g.exit cfg.samplingPeriod X rest now) := by
  refine ⟨fun above Y below hsplit hout hdvd => ?_, fun q => ?_⟩
  · exact h.enclosed (X :: above) Y below (by rw [ho]; exact congrArg _ hsplit) hout hdvd
  · have hdX := ht.depth_innermost ho
    have hq := h.elapsed q
    cases hX : X.outermost with
    | false =>
      simp only [hX, Bool.false_eq_true, if_false] at hdX
      rw [endTimingEvent_inner X.region now s hdX]
      simpa [Invocations.exit, hX, ThreadState.elapsed] using hq
    | true =>
      simp only [hX, if_true] at hdX
      obtain ⟨hpos, hlt⟩ := ht.inv.pop_lt hr (by omega)
      rw [endTimingEvent_outermost X.region now s hdX hpos hlt]
      have hflag : s.globalDisable = !decide (cfg.samplingPeriod ∣ X.index) := by
        rw [ht.flag, ho, allSkipped_cons, hX]
        by_cases hdvd : cfg.samplingPeriod ∣ X.index
        · simp [hdvd]
        · simp [hdvd, h.enclosed [] X rest ho hX hdvd]
      by_cases hqX : q = X.region
      · subst hqX
        by_cases hdvd : cfg.samplingPeriod ∣ X.index
        · have hstart := ht.started X (by rw [ho]; exact List.mem_cons_self ..) hX hdvd
          simp only [ThreadState.elapsed] at hq
          simp [ThreadState.elapsed, ThreadState.closedProfile, Invocations.exit, hX, hdvd, hflag, hstart, hq]
        · simpa [ThreadState.elapsed, ThreadState.closedProfile, Invocations.exit, hX, hdvd, hflag] using hq
      · have hother : (g.exit cfg.samplingPeriod X rest now).elapsed q = g.elapsed q := by
          simp only [Invocations.exit]
          split
          · exact Function.update_of_ne hqX _ _
          · rfl
        rw [hother, ← hq]
        simp [ThreadState.elapsed, hqX]

/-- Along every prefix of a run that enters its skipped invocations outside the sampled ones. -/
theorem Gated.of_prefix (hP : 1 ≤ cfg.samplingPeriod) {t : List RuntimeCall} (hr : ∀ e ∈ t, e.InRange)
    (hskip : SkippedOutsideSampled cfg.samplingPeriod t) (pre : List RuntimeCall) :
    ∀ post g, t = pre ++ post → Invocations.follow cfg.samplingPeriod {} pre = some g →
      Tracks cfg (run cfg .initial pre) g ∧ Gated cfg (run cfg .initial pre) g := by
  induction pre using List.reverseRecOn with
  | nil =>
    intro post g _ hg
    simp only [Invocations.follow_nil, Option.some.injEq] at hg
    subst hg
    exact ⟨.initial cfg, fun _ _ _ h => by simp at h, fun _ => rfl⟩
  | append_singleton pre e ih =>
    intro post g ht hg
    rw [Invocations.follow_append] at hg
    obtain ⟨g₀, hg₀, hstep⟩ := Option.bind_eq_some_iff.1 hg
    rw [Invocations.follow_singleton] at hstep
    have hsplit : t = pre ++ e :: post := by rw [ht]; simp
    obtain ⟨htr, hga⟩ := ih (e :: post) g₀ hsplit hg₀
    have he : e.InRange := hr e (by rw [hsplit]; simp)
    have htr' := htr.step hP he hstep
    rw [run_append, run_cons, run_nil]
    refine ⟨htr', ?_⟩
    cases e with
    | startTimingEvent r now =>
      simp only [Invocations.step, Option.some.injEq] at hstep
      subst hstep
      exact hga.enter (hskip pre r now post hsplit g₀ hg₀)
    | endTimingEvent r now =>
      simp only [Invocations.step] at hstep
      split at hstep
      · rename_i X rest ho
        split at hstep
        · rename_i hrX
          subst hrX
          simp only [Option.some.injEq] at hstep
          subst hstep
          exact hga.exit htr ho he
        · simp at hstep
      · simp at hstep
    | increment i =>
      simp only [Invocations.step, Option.some.injEq] at hstep
      subst hstep
      exact ⟨hga.enclosed, fun q => by simpa [ThreadState.elapsed, step] using hga.elapsed q⟩

end

/-- A nested body closes what it opens and completes no invocation of an open region. -/
theorem Invocations.follow_nested {P : Nat} {body : List RuntimeCall} (hb : Nested RuntimeCall.bracket body) :
    ∀ {g g' : Invocations}, g.follow P body = some g' →
      g'.opened = g.opened ∧ ∀ r, g.isOpen r = true → g'.elapsed r = g.elapsed r := by
  induction hb with
  | nil =>
    intro g g' hg
    simp only [follow_nil, Option.some.injEq] at hg
    subst hg
    exact ⟨rfl, fun _ _ => rfl⟩
  | other he _ ih =>
    intro g g' hg
    obtain ⟨i, rfl⟩ := RuntimeCall.bracket_eq_other.1 he
    exact ih hg
  | @enclose a b r u v ha _ hb _ ihu ihv =>
    intro g g' hg
    obtain ⟨t₀, rfl⟩ := RuntimeCall.bracket_eq_enter.1 ha
    obtain ⟨t₁, rfl⟩ := RuntimeCall.bracket_eq_exit.1 hb
    rw [List.cons_append, follow_cons] at hg
    simp only [step, Option.bind_some, follow_append] at hg
    obtain ⟨g₂, hu, hg⟩ := Option.bind_eq_some_iff.1 hg
    obtain ⟨hou, heu⟩ := ihu hu
    rw [follow_cons] at hg
    obtain ⟨g₃, hexit, hv⟩ := Option.bind_eq_some_iff.1 hg
    have hou' : g₂.opened = ⟨r, !g.isOpen r, g.completed r, t₀⟩ :: g.opened := hou
    simp only [step, hou', if_true, Option.some.injEq] at hexit
    subst hexit
    obtain ⟨hov, hev⟩ := ihv hv
    refine ⟨hov, fun q hq => ?_⟩
    have hq₁ : (g.enter r t₀).isOpen q = true := by
      simp only [isOpen, enter, List.any_cons, Bool.or_eq_true] at hq ⊢
      exact .inr hq
    have hq₃ : (g₂.exit P ⟨r, !g.isOpen r, g.completed r, t₀⟩ g.opened t₁).isOpen q = true := hq
    rw [hev q hq₃]
    have hskip : (g₂.exit P ⟨r, !g.isOpen r, g.completed r, t₀⟩ g.opened t₁).elapsed q = g₂.elapsed q := by
      simp only [exit]
      split
      · rename_i hout
        have hqr : q ≠ r := fun h => by simp [h ▸ hq] at hout
        exact Function.update_of_ne hqr _ _
      · rfl
    rw [hskip]
    exact heu q hq₁

/-- When no skipped invocation is entered inside a sampled one, skipped invocations contribute nothing. -/
theorem SamplingIsolated.of_skippedOutsideSampled {cfg : RuntimeConfig} (hP : 1 ≤ cfg.samplingPeriod)
    {t : List RuntimeCall} (ht : Nested RuntimeCall.bracket t) (hr : ∀ e ∈ t, e.InRange)
    (hskip : SkippedOutsideSampled cfg.samplingPeriod t) : SamplingIsolated cfg t := by
  have hpre := Gated.of_prefix hP hr hskip
  refine ⟨fun pre i post hsplit g hg above X below ho hX hdvd habove => ?_,
    fun pre r t₀ body t₁ post hsplit hbody g hg hfresh hdvd => ?_,
    fun pre post hsplit g hg q => (hpre pre post g hsplit hg).2.elapsed q⟩
  · -- the enclosing invocations are skipped too, so counting is off
    obtain ⟨htr, hga⟩ := hpre pre _ g hsplit hg
    have hoff : (run cfg .initial pre).globalDisable = true := by
      rw [htr.flag, ho, allSkipped_append, habove, allSkipped_cons, hga.enclosed above X below ho hX hdvd]
      simp [hdvd]
    rw [run_append, run_cons, run_nil]
    simp only [step, i.apply_of_disabled hoff]
  · have hsplit' : t = (pre ++ .startTimingEvent r t₀ :: body ++ [.endTimingEvent r t₁]) ++ post := by
      rw [hsplit]; simp
    obtain ⟨g', hg'⟩ := Invocations.exists_follow (P := cfg.samplingPeriod) (hsplit' ▸ ht) {}
    have hpre_g := (hpre pre _ g (by rw [hsplit, List.append_assoc]) hg).2.elapsed r
    rw [(hpre _ post g' hsplit' hg').2.elapsed r, hpre_g]
    rw [List.append_assoc, Invocations.follow_append, hg, Option.bind_some, List.cons_append,
      Invocations.follow_cons] at hg'
    simp only [Invocations.step, Option.bind_some, Invocations.follow_append] at hg'
    obtain ⟨g₂, hbody_g, hexit⟩ := Option.bind_eq_some_iff.1 hg'
    obtain ⟨ho₂, he₂⟩ := Invocations.follow_nested hbody hbody_g
    rw [Invocations.follow_singleton] at hexit
    have ho₂' : g₂.opened = ⟨r, !g.isOpen r, g.completed r, t₀⟩ :: g.opened := ho₂
    simp only [Invocations.step, ho₂', if_true, Option.some.injEq] at hexit
    subst hexit
    have hopen : (g.enter r t₀).isOpen r = true := by simp [Invocations.isOpen, Invocations.enter]
    simpa [Invocations.exit, Invocations.enter, hdvd] using he₂ r hopen

/-! ### A skipped invocation inside a sampled one -/

section
variable {cfg : RuntimeConfig} {s : ThreadState} {r q : Nat} {now : UInt64}

theorem startTimingEvent_profile_of_ne (h : r ≠ q) :
    (startTimingEvent cfg q now s).timingProfiles r = s.timingProfiles r := by
  by_cases hd : s.regionDepth q = 0
  · cases hs : sampled cfg (s.timingProfiles q).count with
    | true => rw [startTimingEvent_sampled cfg q now s hd hs]; simp [h]
    | false => rw [startTimingEvent_skipped cfg q now s hd hs]; rfl
  · rw [startTimingEvent_reentry cfg q now s hd]

theorem startTimingEvent_profile_of_live (h : s.regionDepth r ≠ 0) :
    (startTimingEvent cfg q now s).timingProfiles r = s.timingProfiles r := by
  by_cases hrq : r = q
  · subst hrq
    rw [startTimingEvent_reentry cfg r now s h]
  · exact startTimingEvent_profile_of_ne hrq

theorem endTimingEvent_profile_of_live (hinv : SaveStackInv s) (hq : q < pragmaRegionLimit)
    (h : r = q → 1 < s.regionDepth q) : (endTimingEvent q now s).timingProfiles r = s.timingProfiles r := by
  by_cases h0 : s.regionDepth q = 0
  · rw [endTimingEvent_unmatched q now s h0]
  · by_cases h1 : s.regionDepth q = 1
    · obtain ⟨hpos, hlt⟩ := hinv.pop_lt hq h0
      have hne : r ≠ q := fun heq => by have := h heq; omega
      rw [endTimingEvent_outermost q now s h1 hpos hlt]
      simp [hne]
    · rw [endTimingEvent_inner q now s (by omega)]

/-- A nested body leaves the timing profile of an open region alone. -/
theorem profile_of_nested (cfg : RuntimeConfig) {t : List RuntimeCall} (ht : Nested RuntimeCall.bracket t) :
    ∀ {s : ThreadState}, SaveStackInv s → (∀ e ∈ t, e.InRange) → s.regionDepth r ≠ 0 →
      (run cfg s t).timingProfiles r = s.timingProfiles r := by
  induction ht with
  | nil => intro s _ _ _; rfl
  | other he _ ih =>
    intro s hinv hr hd
    obtain ⟨i, rfl⟩ := RuntimeCall.bracket_eq_other.1 he
    have hinv' : SaveStackInv (i.apply s) := hinv.step cfg (e := .increment i) trivial
    have := ih hinv' (fun e he => hr e (List.mem_cons_of_mem _ he)) (by simpa using hd)
    simpa [step] using this
  | @enclose a b q u v ha hu hb hv ihu ihv =>
    intro s hinv hr hd
    obtain ⟨t₀, rfl⟩ := RuntimeCall.bracket_eq_enter.1 ha
    obtain ⟨t₁, rfl⟩ := RuntimeCall.bracket_eq_exit.1 hb
    have hlt : q < pragmaRegionLimit := hr (.startTimingEvent q t₀) (by simp)
    have hru : ∀ e ∈ u, e.InRange := fun e he => hr e (by simp [he])
    have hrv : ∀ e ∈ v, e.InRange := fun e he => hr e (by simp [he])
    have hinv₁ := hinv.startTimingEvent cfg t₀ hlt
    have hbody := SameCounting.of_nested cfg hu hinv₁ hru
    -- the whole invocation of `q` keeps the depths
    have hsame : SameCounting s (endTimingEvent q t₁ (run cfg (startTimingEvent cfg q t₀ s) u)) := by
      by_cases h0 : s.regionDepth q = 0
      · exact .outermost hinv hlt h0 hbody
      · exact .reentry h0 hbody
    have hlive₁ : (startTimingEvent cfg q t₀ s).regionDepth r ≠ 0 := by
      rw [startTimingEvent_regionDepth, Function.update_apply]
      split
      · omega
      · exact hd
    have hsplit : run cfg s (.startTimingEvent q t₀ :: u ++ .endTimingEvent q t₁ :: v) =
        run cfg (endTimingEvent q t₁ (run cfg (startTimingEvent cfg q t₀ s) u)) v := by
      rw [run_append]; rfl
    have hinv₂ := hinv₁.run cfg hru
    have hdeep : r = q → 1 < (run cfg (startTimingEvent cfg q t₀ s) u).regionDepth q := by
      rintro rfl
      rw [hbody.regionDepth, startTimingEvent_reentry cfg r t₀ s hd]
      simp only [Function.update_self]
      omega
    rw [hsplit, ihv (hinv₂.endTimingEvent t₁ hlt) hrv (by rw [hsame.regionDepth]; exact hd),
      endTimingEvent_profile_of_live hinv₂ hlt hdeep, ihu hinv₁ hru hlive₁, startTimingEvent_profile_of_live hd]

/-- The region was entered before: an invocation of it is complete or open. -/
private def Entered (s : ThreadState) (r : Nat) : Prop := (s.timingProfiles r).count ≠ 0 ∨ s.regionDepth r ≠ 0

/-- An entry sets the start time to its reading or leaves the profile as it was.  It skips only a region that counted
an invocation before. -/
private theorem startTime_startTimingEvent (hP : 1 ≤ cfg.samplingPeriod)
    (h : Entered (startTimingEvent cfg q now s) r) :
    ((startTimingEvent cfg q now s).timingProfiles r).startTime = now ∨
      Entered s r ∧ (startTimingEvent cfg q now s).timingProfiles r = s.timingProfiles r := by
  by_cases hq : r = q
  · subst hq
    by_cases hd : s.regionDepth r = 0
    · cases hsam : sampled cfg (s.timingProfiles r).count with
      | true =>
        left
        simp [startTimingEvent_sampled cfg r now s hd hsam]
      | false =>
        have hcount : (s.timingProfiles r).count ≠ 0 := fun h0 => by simp [sampled_iff hP, h0] at hsam
        refine .inr ⟨.inl hcount, ?_⟩
        rw [startTimingEvent_skipped cfg r now s hd hsam]
        rfl
    · exact .inr ⟨.inr hd, startTimingEvent_profile_of_live hd⟩
  · refine .inr ⟨?_, startTimingEvent_profile_of_ne hq⟩
    rwa [Entered, startTimingEvent_profile_of_ne hq, startTimingEvent_regionDepth, Function.update_of_ne hq] at h

/-- An exit leaves the start times. -/
private theorem startTime_endTimingEvent (hinv : SaveStackInv s) (hq : q < pragmaRegionLimit)
    (h : Entered (endTimingEvent q now s) r) :
    Entered s r ∧ ((endTimingEvent q now s).timingProfiles r).startTime = (s.timingProfiles r).startTime := by
  by_cases hrq : r = q
  · subst hrq
    by_cases h0 : s.regionDepth r = 0
    · rw [endTimingEvent_unmatched r now s h0] at h ⊢
      exact ⟨h, rfl⟩
    · refine ⟨.inr h0, ?_⟩
      by_cases h1 : s.regionDepth r = 1
      · obtain ⟨hpos, hlt⟩ := hinv.pop_lt hq h0
        simp [endTimingEvent_outermost r now s h1 hpos hlt, ThreadState.closedProfile]
      · simp [endTimingEvent_inner r now s (by omega)]
  · have hprofile : (endTimingEvent q now s).timingProfiles r = s.timingProfiles r :=
      endTimingEvent_profile_of_live hinv hq fun heq => absurd heq hrq
    rw [Entered, hprofile, endTimingEvent_regionDepth, Function.update_of_ne hrq] at h
    exact ⟨h, by rw [hprofile]⟩

end

theorem clockReadings_append (u v : List RuntimeCall) :
    clockReadings (u ++ v) = clockReadings u ++ clockReadings v := by
  simp [clockReadings]

/-- A region that was entered before holds the reading of an earlier entry as its start time. -/
theorem startTime_mem_clockReadings {cfg : RuntimeConfig} (hP : 1 ≤ cfg.samplingPeriod) (pre : List RuntimeCall) :
    (∀ e ∈ pre, e.InRange) → ∀ r, ((run cfg .initial pre).timingProfiles r).count ≠ 0 ∨
      (run cfg .initial pre).regionDepth r ≠ 0 →
      ((run cfg .initial pre).timingProfiles r).startTime ∈ clockReadings pre := by
  induction pre using List.reverseRecOn with
  | nil => intro _ r h; simp [run, ThreadState.initial] at h
  | append_singleton pre e ih =>
    intro hr r h
    have hr' : ∀ e ∈ pre, e.InRange := fun e he => hr e (by simp [he])
    have hinv := SaveStackInv.initial.run cfg hr'
    have ihr := ih hr' r
    rw [clockReadings_append, List.mem_append]
    rw [run_append, run_cons, run_nil] at h ⊢
    generalize hs : run cfg .initial pre = s at h ihr hinv ⊢
    cases e with
    | startTimingEvent q now =>
      simp only [step] at h ⊢
      rcases startTime_startTimingEvent hP h with hnow | ⟨hbefore, hprofile⟩
      · right
        simp [hnow, clockReadings]
      · left
        rw [hprofile]
        exact ihr hbefore
    | endTimingEvent q now =>
      left
      have hq : q < pragmaRegionLimit := hr (.endTimingEvent q now) (by simp)
      simp only [step] at h ⊢
      obtain ⟨hbefore, hstart⟩ := startTime_endTimingEvent hinv hq h
      rw [hstart]
      exact ihr hbefore
    | increment i =>
      left
      simp only [step, Increment.apply_timingProfiles, Increment.apply_regionDepth] at h ⊢
      exact ihr h

/-- With distinct clock readings, a skipped invocation entered inside a sampled one adds time to its region: its
exit finds the flag of the enclosing invocation and the start time of an earlier sampled one. -/
theorem SkippedOutsideSampled.of_samplingIsolated {cfg : RuntimeConfig} (hP : 1 ≤ cfg.samplingPeriod)
    {t : List RuntimeCall} (ht : Nested RuntimeCall.bracket t) (hr : ∀ e ∈ t, e.InRange)
    (hclock : (clockReadings t).Nodup) (hiso : SamplingIsolated cfg t) :
    SkippedOutsideSampled cfg.samplingPeriod t := by
  intro pre r t₀ post hsplit g hg hfresh hdvd
  by_contra hsampled
  rw [Bool.not_eq_true] at hsampled
  obtain ⟨body, b, rest, hpost, hbody, hb⟩ := ht.exists_exit hsplit rfl
  obtain ⟨t₁, rfl⟩ := RuntimeCall.bracket_eq_exit.1 hb
  subst hpost
  have hrpre : ∀ e ∈ pre, e.InRange := fun e he => hr e (by rw [hsplit]; simp [he])
  have hrbody : ∀ e ∈ body, e.InRange := fun e he => hr e (by rw [hsplit]; simp [he])
  have hlt : r < pragmaRegionLimit := hr (.startTimingEvent r t₀) (by rw [hsplit]; simp)
  have htr : Tracks cfg (run cfg .initial pre) g := (Tracks.initial cfg).run hP hrpre hg
  have hexit := hiso.exits pre r t₀ body t₁ rest (by rw [hsplit]; simp) hbody g hg hfresh hdvd
  have hearlier := startTime_mem_clockReadings hP pre hrpre r
  generalize hs : run cfg .initial pre = s at htr hexit hearlier
  have hd : s.regionDepth r = 0 := htr.depth_eq_zero.2 hfresh
  have hskip : sampled cfg (s.timingProfiles r).count = false := by
    rw [sampled_iff hP, htr.count]; simpa using hdvd
  have hinv₁ := htr.inv.startTimingEvent cfg t₀ hlt
  have hsame := SameCounting.of_nested cfg hbody hinv₁ hrbody
  have hprofile := profile_of_nested cfg (r := r) hbody hinv₁ hrbody
    (by simp [startTimingEvent_skipped cfg r t₀ s hd hskip])
  have hdepth := hsame.regionDepth
  have hflag := hsame.globalDisable
  rw [startTimingEvent_skipped cfg r t₀ s hd hskip] at hprofile hdepth hflag
  have hrun : run cfg .initial (pre ++ .startTimingEvent r t₀ :: body ++ [.endTimingEvent r t₁]) =
      endTimingEvent r t₁ (run cfg (startTimingEvent cfg r t₀ s) body) := by
    rw [run_append, run_append, hs]; rfl
  rw [hrun] at hexit
  rw [startTimingEvent_skipped cfg r t₀ s hd hskip] at hexit hsame hinv₁
  generalize hs₂ : run cfg { s.pushSave with regionDepth := Function.update s.regionDepth r 1 } body = s₂
    at hexit hprofile hdepth hflag hsame
  have hinv₂ : SaveStackInv s₂ := hs₂ ▸ hinv₁.run cfg hrbody
  have hone : s₂.regionDepth r = 1 := by rw [hdepth]; simp
  obtain ⟨hpos, hpop⟩ := hinv₂.pop_lt hlt (by omega)
  have hon : s₂.globalDisable = false := by
    rw [hflag, ← hsampled, ← htr.flag]; rfl
  rw [endTimingEvent_outermost r t₁ s₂ hone hpos hpop] at hexit
  have hprofile' : s₂.timingProfiles r = s.timingProfiles r := hprofile
  simp only [ThreadState.elapsed, Function.update_self, ThreadState.closedProfile, hon, Bool.false_eq_true, if_false,
    hprofile'] at hexit
  have hzero : t₁ - (s.timingProfiles r).startTime = 0 := UInt64.add_eq_left.1 hexit
  have hstart : t₁ = (s.timingProfiles r).startTime := by simpa using UInt64.sub_eq_iff_eq_add.1 hzero
  have hcount : (s.timingProfiles r).count ≠ 0 := fun h0 => hdvd (by rw [← htr.count, h0]; exact Nat.dvd_zero _)
  have hmem : t₁ ∈ clockReadings pre := hstart ▸ hearlier (.inl hcount)
  rw [hsplit, clockReadings_append] at hclock
  refine List.disjoint_of_nodup_append hclock hmem ?_
  simp [clockReadings]

/-- Skipped invocations are isolated in a properly nested run when none is entered inside a sampled invocation, and
with distinct clock readings only then. -/
theorem samplingIsolated_iff_skippedOutsideSampled (cfg : RuntimeConfig) (hP : 1 ≤ cfg.samplingPeriod)
    (t : List RuntimeCall) (ht : Nested RuntimeCall.bracket t) (hr : ∀ e ∈ t, e.InRange) :
    (SkippedOutsideSampled cfg.samplingPeriod t → SamplingIsolated cfg t) ∧
    ((clockReadings t).Nodup → SamplingIsolated cfg t → SkippedOutsideSampled cfg.samplingPeriod t) :=
  ⟨.of_skippedOutsideSampled hP ht hr, .of_samplingIsolated hP ht hr⟩

/-- Period 2: region 1 is sampled, then skipped, both times outside every other region. -/
theorem samplingIsolated_of_two_invocations :
    let t : List RuntimeCall :=
      [.startTimingEvent 1 1, .endTimingEvent 1 2, .startTimingEvent 1 3, .increment (.counterArray 1 0),
        .endTimingEvent 1 4]
    (SkippedOutsideSampled 2 t → SamplingIsolated ⟨2, 4⟩ t) ∧
    ((clockReadings t).Nodup → SamplingIsolated ⟨2, 4⟩ t → SkippedOutsideSampled 2 t) :=
  samplingIsolated_iff_skippedOutsideSampled ⟨2, 4⟩ (by decide) _ (by decide) (by decide)

/-- Period 2, one sampled invocation of region 0 around two invocations of region 1: the second one is skipped, but
its exit adds the time since the first one started. -/
theorem not_samplingIsolated_of_skipped_inside :
    let t : List RuntimeCall :=
      [.startTimingEvent 0 1, .startTimingEvent 1 2, .endTimingEvent 1 3, .startTimingEvent 1 4,
        .increment (.counterArray 1 0), .endTimingEvent 1 5, .endTimingEvent 0 6]
    Nested RuntimeCall.bracket t ∧ (∀ e ∈ t, e.InRange) ∧ (clockReadings t).Pairwise (· < ·) ∧
      ¬ SamplingIsolated ⟨2, 4⟩ t := by
  refine ⟨by decide, by decide, by decide, fun h => ?_⟩
  have hexit := h.exits [.startTimingEvent 0 1, .startTimingEvent 1 2, .endTimingEvent 1 3] 1 4
    [.increment (.counterArray 1 0)] 5 [.endTimingEvent 0 6] rfl (by decide) _ rfl rfl (by decide)
  exact absurd hexit (by decide)

end ZRay
