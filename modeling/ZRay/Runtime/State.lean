import Mathlib.Logic.Function.Basic
import ZRay.Nesting

/-!
# The per-thread runtime state machine

The thread-local counting state of `zray_dyn.cc` and the calls the pass emits: `startTimingEvent`,
`endTimingEvent` and the increment helpers.  A thread executes a list of calls from the zero-initialised state
(`run`).  Clock readings and elapsed times are 64-bit words; the depth, the invocation count, the stack pointer
and the counters move by single steps and are natural numbers.  The hardware performance counters
(`USE_HW_PERF_COUNTERS`) are left out.
-/

namespace ZRay

open Nesting

/-- `PRAGMA_REGION_LIMIT`, the length of the thread-local arrays indexed by region id. -/
def pragmaRegionLimit : Nat := 4096

/-- The runtime's two parameters: `SAMPLING_PERIOD`, and `ZRAY_CounterDimension` (the width of a region's row). -/
structure RuntimeConfig where
  samplingPeriod : Nat
  counterDimension : Nat

structure TimingProfile where
  count : Nat := 0
  startTime : UInt64 := 0
  totalTimeElapsed : UInt64 := 0
  deriving DecidableEq

/-- One entry of `RegionSaveStack`: the counting state handed back by the matching exit. -/
structure RegionSave where
  base : Nat := 0
  disable : Bool := false
  deriving DecidableEq

/-- The thread-local variables.  The initial values are those of the declarations. -/
structure ThreadState where
  timingProfiles : Nat → TimingProfile := fun _ => {}
  regionDepth : Nat → Nat := fun _ => 0
  globalDisable : Bool := true
  counterBaseIndex : Nat := 0
  regionSaveStack : Nat → RegionSave := fun _ => {}
  regionSaveTop : Nat := 0
  counterArray : Nat → Nat := fun _ => 0
  loadRuntimeArray : Nat → Nat := fun _ => 0
  storeRuntimeArray : Nat → Nat := fun _ => 0

def ThreadState.initial : ThreadState := {}

/-- A cell of an array is advanced by `n`. -/
def bump (a : Nat → Nat) (i n : Nat) : Nat → Nat := Function.update a i (a i + n)

/-! ### Region entry and exit -/

/-- The outermost entry remembers the enclosing region's counting state. -/
def ThreadState.pushSave (s : ThreadState) : ThreadState :=
  { s with
    regionSaveStack :=
      if s.regionSaveTop < pragmaRegionLimit then
        Function.update s.regionSaveStack s.regionSaveTop ⟨s.counterBaseIndex, s.globalDisable⟩
      else s.regionSaveStack
    regionSaveTop := s.regionSaveTop + 1 }

/-- The entry popped by an outermost exit; `{counterBaseIndex, true}` when there is none. -/
def ThreadState.popSave (s : ThreadState) : RegionSave × ThreadState :=
  if 0 < s.regionSaveTop then
    (if s.regionSaveTop - 1 < pragmaRegionLimit then s.regionSaveStack (s.regionSaveTop - 1)
      else ⟨s.counterBaseIndex, true⟩, { s with regionSaveTop := s.regionSaveTop - 1 })
  else (⟨s.counterBaseIndex, true⟩, s)

/-- Is the next outermost invocation of the region sampled? -/
def sampled (cfg : RuntimeConfig) (count : Nat) : Bool :=
  cfg.samplingPeriod ≠ 0 && count % cfg.samplingPeriod = 0

def startTimingEvent (cfg : RuntimeConfig) (size : Nat) (now : UInt64) (s : ThreadState) : ThreadState :=
  let depth := s.regionDepth size
  let s := { s with regionDepth := Function.update s.regionDepth size (depth + 1) }
  if depth ≠ 0 then s
  else
    let s := s.pushSave
    if sampled cfg (s.timingProfiles size).count then
      { s with
        globalDisable := false
        counterBaseIndex := size * cfg.counterDimension
        timingProfiles := Function.update s.timingProfiles size { s.timingProfiles size with startTime := now } }
    else s

def endTimingEvent (size : Nat) (now : UInt64) (s : ThreadState) : ThreadState :=
  -- an exit with no matching entry only prints a warning
  if s.regionDepth size = 0 then s
  else
    let depth := s.regionDepth size - 1
    let s := { s with regionDepth := Function.update s.regionDepth size depth }
    if depth ≠ 0 then s
    else
      let (saved, s) := s.popSave
      let tp := { s.timingProfiles size with count := (s.timingProfiles size).count + 1 }
      let tp :=
        if s.globalDisable then tp
        else { tp with totalTimeElapsed := tp.totalTimeElapsed + (now - tp.startTime) }
      { s with
        timingProfiles := Function.update s.timingProfiles size tp
        counterBaseIndex := saved.base
        globalDisable := saved.disable }

/-! ### Increments -/

/-- The increment helpers.  The first argument is the region id the call was emitted for; the helpers ignore it
and index by `counterBaseIndex`. -/
inductive Increment where
  | counterArray (pragmaRegionID postDomSetID : Nat)
  | counterArraySF (pragmaRegionID postDomSetID sf : Nat)
  | loadArray (pragmaRegionID postDomSetID size : Nat)
  | storeArray (pragmaRegionID postDomSetID size : Nat)
  | loadStoreArray (pragmaRegionID postDomSetID size : Nat)
  deriving DecidableEq

def incrementCounterArray (_pragmaRegionID postDomSetID : Nat) (s : ThreadState) : ThreadState :=
  if s.globalDisable then s
  else { s with counterArray := bump s.counterArray (postDomSetID + s.counterBaseIndex) 1 }

def incrementCounterArraySF (_pragmaRegionID postDomSetID sf : Nat) (s : ThreadState) : ThreadState :=
  if s.globalDisable then s
  else { s with counterArray := bump s.counterArray (postDomSetID + s.counterBaseIndex) sf }

def incrementLoadArray (_pragmaRegionID postDomSetID size : Nat) (s : ThreadState) : ThreadState :=
  if s.globalDisable then s
  else { s with loadRuntimeArray := bump s.loadRuntimeArray (postDomSetID + s.counterBaseIndex) size }

def incrementStoreArray (_pragmaRegionID postDomSetID size : Nat) (s : ThreadState) : ThreadState :=
  if s.globalDisable then s
  else { s with storeRuntimeArray := bump s.storeRuntimeArray (postDomSetID + s.counterBaseIndex) size }

def incrementLoadStoreArray (_pragmaRegionID postDomSetID size : Nat) (s : ThreadState) : ThreadState :=
  if s.globalDisable then s
  else
    { s with
      loadRuntimeArray := bump s.loadRuntimeArray (postDomSetID + s.counterBaseIndex) size
      storeRuntimeArray := bump s.storeRuntimeArray (postDomSetID + s.counterBaseIndex) size }

def Increment.apply : Increment → ThreadState → ThreadState
  | .counterArray r k => incrementCounterArray r k
  | .counterArraySF r k sf => incrementCounterArraySF r k sf
  | .loadArray r k n => incrementLoadArray r k n
  | .storeArray r k n => incrementStoreArray r k n
  | .loadStoreArray r k n => incrementLoadStoreArray r k n

/-! ### Runs -/

/-- A call into the runtime; entries and exits carry the clock reading taken if they read the clock. -/
inductive RuntimeCall where
  | startTimingEvent (region : Nat) (now : UInt64)
  | endTimingEvent (region : Nat) (now : UInt64)
  | increment (i : Increment)
  deriving DecidableEq

def step (cfg : RuntimeConfig) (s : ThreadState) : RuntimeCall → ThreadState
  | .startTimingEvent r now => startTimingEvent cfg r now s
  | .endTimingEvent r now => endTimingEvent r now s
  | .increment i => i.apply s

def run (cfg : RuntimeConfig) (s : ThreadState) (calls : List RuntimeCall) : ThreadState :=
  calls.foldl (step cfg) s

/-- The region id of an entry or exit is below the array limit. -/
def RuntimeCall.InRange : RuntimeCall → Prop
  | .startTimingEvent r _ => r < pragmaRegionLimit
  | .endTimingEvent r _ => r < pragmaRegionLimit
  | .increment _ => True

instance : DecidablePred RuntimeCall.InRange
  | .startTimingEvent r _ => inferInstanceAs (Decidable (r < pragmaRegionLimit))
  | .endTimingEvent r _ => inferInstanceAs (Decidable (r < pragmaRegionLimit))
  | .increment _ => inferInstanceAs (Decidable True)

/-- Entries and exits as brackets labelled by region ids. -/
def RuntimeCall.bracket : RuntimeCall → Bracket Nat
  | .startTimingEvent r _ => .enter r
  | .endTimingEvent r _ => .exit r
  | .increment _ => .other

theorem RuntimeCall.bracket_eq_enter {e : RuntimeCall} {r : Nat} :
    e.bracket = .enter r ↔ ∃ now, e = .startTimingEvent r now := by
  cases e <;> simp [bracket]

theorem RuntimeCall.bracket_eq_exit {e : RuntimeCall} {r : Nat} :
    e.bracket = .exit r ↔ ∃ now, e = .endTimingEvent r now := by
  cases e <;> simp [bracket]

theorem RuntimeCall.bracket_eq_other {e : RuntimeCall} : e.bracket = .other ↔ ∃ i, e = .increment i := by
  cases e <;> simp [bracket]

@[simp] theorem run_nil (cfg : RuntimeConfig) (s : ThreadState) : run cfg s [] = s := rfl

@[simp] theorem run_cons (cfg : RuntimeConfig) (s : ThreadState) (e : RuntimeCall) (es : List RuntimeCall) :
    run cfg s (e :: es) = run cfg (step cfg s e) es := rfl

theorem run_append (cfg : RuntimeConfig) (s : ThreadState) (u v : List RuntimeCall) :
    run cfg s (u ++ v) = run cfg (run cfg s u) v := List.foldl_append

/-- A property kept by every in-range call holds along a whole run. -/
theorem run_invariant {cfg : RuntimeConfig} {P : ThreadState → Prop} {s : ThreadState} {es : List RuntimeCall}
    (hstep : ∀ s e, e.InRange → P s → P (step cfg s e)) (hes : ∀ e ∈ es, e.InRange) (hs : P s) :
    P (run cfg s es) := by
  induction es generalizing s with
  | nil => exact hs
  | cons e es ih =>
    exact ih (fun e' he' => hes e' (List.mem_cons_of_mem _ he')) (hstep s e (hes e (List.mem_cons_self ..)) hs)

/-- A property of the state and the calls made so far, kept by every in-range call, holds at the end of a run. -/
theorem run_history {cfg : RuntimeConfig} {P : ThreadState → List RuntimeCall → Prop} {es : List RuntimeCall}
    (hstep : ∀ s es e, e.InRange → P s es → P (step cfg s e) (es ++ [e])) (hes : ∀ e ∈ es, e.InRange)
    (hinit : P .initial []) : P (run cfg .initial es) es := by
  induction es using List.reverseRecOn with
  | nil => exact hinit
  | append_singleton es e ih =>
    rw [run_append]
    exact hstep _ es e (hes e (by simp)) (ih fun e' he' => hes e' (List.mem_append_left _ he'))

/-! ### What each call does -/

section
variable (cfg : RuntimeConfig) (r : Nat) (now : UInt64) (s : ThreadState)

theorem startTimingEvent_reentry (h : s.regionDepth r ≠ 0) :
    startTimingEvent cfg r now s =
      { s with regionDepth := Function.update s.regionDepth r (s.regionDepth r + 1) } := by
  simp [startTimingEvent, h]

theorem startTimingEvent_sampled (h : s.regionDepth r = 0) (hs : sampled cfg (s.timingProfiles r).count = true) :
    startTimingEvent cfg r now s =
      { s.pushSave with
        regionDepth := Function.update s.regionDepth r 1
        globalDisable := false
        counterBaseIndex := r * cfg.counterDimension
        timingProfiles := Function.update s.timingProfiles r { s.timingProfiles r with startTime := now } } := by
  simp [startTimingEvent, ThreadState.pushSave, h, hs]

theorem startTimingEvent_skipped (h : s.regionDepth r = 0) (hs : sampled cfg (s.timingProfiles r).count = false) :
    startTimingEvent cfg r now s =
      { s.pushSave with regionDepth := Function.update s.regionDepth r 1 } := by
  simp [startTimingEvent, ThreadState.pushSave, h, hs]

/-- An exit without an entry leaves the whole state unchanged. -/
theorem endTimingEvent_unmatched (h : s.regionDepth r = 0) : endTimingEvent r now s = s := by
  simp [endTimingEvent, h]

theorem endTimingEvent_inner (h : 1 < s.regionDepth r) :
    endTimingEvent r now s =
      { s with regionDepth := Function.update s.regionDepth r (s.regionDepth r - 1) } := by
  have h0 : s.regionDepth r ≠ 0 := by omega
  have h1 : s.regionDepth r - 1 ≠ 0 := by omega
  simp [endTimingEvent, h0, h1]

/-- The timing profile after an outermost exit. -/
def ThreadState.closedProfile : TimingProfile :=
  { s.timingProfiles r with
    count := (s.timingProfiles r).count + 1
    totalTimeElapsed :=
      if s.globalDisable then (s.timingProfiles r).totalTimeElapsed
      else (s.timingProfiles r).totalTimeElapsed + (now - (s.timingProfiles r).startTime) }

theorem endTimingEvent_outermost (h : s.regionDepth r = 1) (ht : 0 < s.regionSaveTop)
    (hl : s.regionSaveTop - 1 < pragmaRegionLimit) :
    endTimingEvent r now s =
      { s with
        regionDepth := Function.update s.regionDepth r 0
        regionSaveTop := s.regionSaveTop - 1
        timingProfiles := Function.update s.timingProfiles r (s.closedProfile r now)
        counterBaseIndex := (s.regionSaveStack (s.regionSaveTop - 1)).base
        globalDisable := (s.regionSaveStack (s.regionSaveTop - 1)).disable } := by
  cases hg : s.globalDisable <;>
    simp [endTimingEvent, ThreadState.popSave, ThreadState.closedProfile, h, ht, hl, hg]

theorem startTimingEvent_regionDepth :
    (startTimingEvent cfg r now s).regionDepth = Function.update s.regionDepth r (s.regionDepth r + 1) := by
  simp only [startTimingEvent]
  split
  · rfl
  · split <;> rfl

theorem startTimingEvent_count (q : Nat) :
    ((startTimingEvent cfg r now s).timingProfiles q).count = (s.timingProfiles q).count := by
  simp only [startTimingEvent]
  split
  · rfl
  · split
    · by_cases hq : q = r
      · subst hq
        simp [ThreadState.pushSave]
      · simp [ThreadState.pushSave, hq]
    · rfl

theorem startTimingEvent_counterArray : (startTimingEvent cfg r now s).counterArray = s.counterArray := by
  simp only [startTimingEvent]
  split
  · rfl
  · split <;> rfl

theorem endTimingEvent_counterArray : (endTimingEvent r now s).counterArray = s.counterArray := by
  simp only [endTimingEvent, ThreadState.popSave]
  split
  · rfl
  · split
    · rfl
    · split <;> rfl

theorem endTimingEvent_regionDepth :
    (endTimingEvent r now s).regionDepth = Function.update s.regionDepth r (s.regionDepth r - 1) := by
  simp only [endTimingEvent, ThreadState.popSave]
  by_cases h : s.regionDepth r = 0
  · rw [if_pos h, h, Nat.zero_sub, ← h, Function.update_eq_self]
  · rw [if_neg h]
    split
    · rfl
    · split <;> rfl

/-- Only the exit that closes the region's outermost invocation counts. -/
theorem endTimingEvent_count (q : Nat) :
    ((endTimingEvent r now s).timingProfiles q).count =
      (s.timingProfiles q).count + if q = r ∧ s.regionDepth r = 1 then 1 else 0 := by
  simp only [endTimingEvent, ThreadState.popSave]
  by_cases h : s.regionDepth r = 1
  · have hpop : ∀ a b : RegionSave × ThreadState, a.2.timingProfiles = s.timingProfiles →
        b.2.timingProfiles = s.timingProfiles →
        (if 0 < s.regionSaveTop then a else b).2.timingProfiles = s.timingProfiles := by
      intro a b ha hb
      split <;> assumption
    by_cases hq : q = r
    · subst hq
      simp [h, apply_ite TimingProfile.count, hpop]
    · simp [h, hq, hpop]
  · by_cases h0 : s.regionDepth r = 0
    · simp [h0]
    · have h1 : s.regionDepth r - 1 ≠ 0 := by omega
      simp [h, h0, h1]

end

/-- An increment made while counting is off changes nothing. -/
theorem Increment.apply_of_disabled (i : Increment) {s : ThreadState} (h : s.globalDisable = true) :
    i.apply s = s := by
  cases i <;>
    simp [apply, incrementCounterArray, incrementCounterArraySF, incrementLoadArray, incrementStoreArray,
      incrementLoadStoreArray, h]

/-- An increment touches only the three counter arrays. -/
theorem Increment.apply_eq (i : Increment) (s : ThreadState) :
    i.apply s =
      { s with
        counterArray := (i.apply s).counterArray
        loadRuntimeArray := (i.apply s).loadRuntimeArray
        storeRuntimeArray := (i.apply s).storeRuntimeArray } := by
  cases i <;>
    simp only [apply, incrementCounterArray, incrementCounterArraySF, incrementLoadArray, incrementStoreArray,
      incrementLoadStoreArray] <;>
    split <;> rfl

section
variable (i : Increment) (s : ThreadState)

@[simp] theorem Increment.apply_timingProfiles : (i.apply s).timingProfiles = s.timingProfiles := by
  rw [i.apply_eq s]

@[simp] theorem Increment.apply_regionDepth : (i.apply s).regionDepth = s.regionDepth := by
  rw [i.apply_eq s]

@[simp] theorem Increment.apply_globalDisable : (i.apply s).globalDisable = s.globalDisable := by
  rw [i.apply_eq s]

@[simp] theorem Increment.apply_counterBaseIndex : (i.apply s).counterBaseIndex = s.counterBaseIndex := by
  rw [i.apply_eq s]

@[simp] theorem Increment.apply_regionSaveStack : (i.apply s).regionSaveStack = s.regionSaveStack := by
  rw [i.apply_eq s]

@[simp] theorem Increment.apply_regionSaveTop : (i.apply s).regionSaveTop = s.regionSaveTop := by
  rw [i.apply_eq s]

end

end ZRay
