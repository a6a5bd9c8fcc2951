import Mathlib
import ZRay.Pass.CloneWorklist
import ZRay.Runtime.RowSelection

/-!
# Microtasks of OpenMP

The threads of a program whose fork calls were pointed at the clone of a microtask.  The forking thread and the
workers each execute a share of the microtask: the clone's entry call, its increments, and an exit call at a return.
The clone is shared by all regions that reach it, and these calls carry the id of the region that reached it first.  A
worker has no other region open, so all it counts goes to that region; on the forking thread the entry call is a
re-entry when that region is open, and the row stays that of the region opened last.
-/

namespace ZRay.OpenMP

open Pass Pass.Clones

/-- What a thread is in: a region, a fork whose join it waits for, or its share of a fork, with the region id of the
entry call and the time of the entry. -/
inductive Activity where
  | region (r : Nat) (entered : UInt64)
  | fork (k : Nat)
  | share (k : Nat) (r : Nat) (entered : UInt64)
  deriving DecidableEq

/-- A fork: the forking thread, the microtask, and the region that was innermost open on the forking thread. -/
structure Fork (τ α : Type*) where
  thread : τ
  microtask : α
  region : Nat
  deriving DecidableEq

/-- The threads, what each of them is in, the innermost in front, and the forks so far. -/
structure SystemState (τ α : Type*) where
  thread : τ → ThreadState := fun _ => .initial
  active : τ → List Activity := fun _ => []
  forks : List (Fork τ α) := []

/-- Steps of a thread.  A worker takes part in a fork by starting its share. -/
inductive Event (τ α : Type*) where
  | startRegion (t : τ) (r : Nat) (now : UInt64)
  | endRegion (t : τ) (now : UInt64)
  | increment (t : τ) (i : Increment)
  | forkCall (t : τ) (microtask : α)
  | join (t : τ)
  | startShare (t : τ) (k : Nat) (now : UInt64)
  | endShare (t : τ) (block : Nat) (now : UInt64)

/-- The region entered, with the time. -/
def Activity.entry : Activity → Option (Nat × UInt64)
  | .region r entered => some (r, entered)
  | .fork _ => none
  | .share _ r entered => some (r, entered)

/-- The open entries of a thread, the last one in front. -/
def openEntries (active : List Activity) : List (Nat × UInt64) := active.filterMap Activity.entry

def openRegions (active : List Activity) : List Nat := (openEntries active).map Prod.fst

/-- The region opened last: the first open entry that is no re-entry. -/
def openedLast (active : List Activity) : Option Nat := (openRegions active).dedup.head?

/-- Does the thread wait for a join? -/
def waiting : List Activity → Bool
  | .fork _ :: _ => true
  | _ => false

section

variable {τ α : Type*} [DecidableEq τ] [DecidableEq α]

/-- A thread makes a runtime call. -/
def SystemState.call (cfg : RuntimeConfig) (t : τ) (c : RuntimeCall) (active : List Activity) (σ : SystemState τ α) :
    SystemState τ α :=
  { σ with
    thread := Function.update σ.thread t (step cfg (σ.thread t) c)
    active := Function.update σ.active t active }

/-- May the thread start a share of the fork?  The forking thread starts it from the fork, and a worker when it is in
nothing else. -/
def inTeam (k : Nat) (fork : Fork τ α) (t : τ) (active : List Activity) : Bool :=
  if t = fork.thread then active.head? = some (.fork k) else active.isEmpty

/-- One step, in the module `s` that the pass has made of `m`; `none` when the thread cannot take it.  A fork call
points at a clone, which only the region blocks and the clones reach, so a region is open. -/
def next (cfg : RuntimeConfig) (m : IRModule α) (s : IRState α) (σ : SystemState τ α) :
    Event τ α → Option (SystemState τ α)
  | .startRegion t r now =>
    if waiting (σ.active t) ∨ pragmaRegionLimit ≤ r then none
    else some (σ.call cfg t (.startTimingEvent r now) (.region r now :: σ.active t))
  | .endRegion t now =>
    match σ.active t with
    | .region r _ :: rest => some (σ.call cfg t (.endTimingEvent r now) rest)
    | _ => none
  | .increment t i => if waiting (σ.active t) then none else some (σ.call cfg t (.increment i) (σ.active t))
  | .forkCall t f =>
    match (openRegions (σ.active t)).head? with
    | none => none
    | some r =>
      if ¬ waiting (σ.active t) ∧ f ∈ s.cloned ∧ m.startsWithOmp (m.cloneName f) ∧ s.size (m.cloneName f) ≠ 0 then
        some { σ with
          active := Function.update σ.active t (.fork σ.forks.length :: σ.active t)
          forks := σ.forks ++ [⟨t, f, r⟩] }
      else none
  | .join t =>
    match σ.active t with
    | .fork _ :: rest => some { σ with active := Function.update σ.active t rest }
    | _ => none
  | .startShare t k now =>
    match σ.forks[k]? with
    | none => none
    | some fork =>
      match (s.code (m.cloneName fork.microtask, 0)).startEvents.head? with
      | none => none
      | some r =>
        if inTeam k fork t (σ.active t) ∧ r < pragmaRegionLimit then
          some (σ.call cfg t (.startTimingEvent r now) (.share k r now :: σ.active t))
        else none
  | .endShare t block now =>
    match σ.active t with
    | .share k _ _ :: rest =>
      match σ.forks[k]? with
      | none => none
      | some fork =>
        let code := s.code (m.cloneName fork.microtask, block)
        match code.endEvents.getLast? with
        | none => none
        | some r =>
          if block < s.size (m.cloneName fork.microtask) ∧ code.isReturn then
            some (σ.call cfg t (.endTimingEvent r now) rest)
          else none
    | _ => none

/-- A property of every step of a run, up to the first event that is not possible. -/
def Along (cfg : RuntimeConfig) (m : IRModule α) (s : IRState α)
    (P : SystemState τ α → Event τ α → SystemState τ α → Prop) : SystemState τ α → List (Event τ α) → Prop
  | _, [] => True
  | σ, e :: es => ∀ σ' ∈ next cfg m s σ e, P σ e σ' ∧ Along cfg m s P σ' es

end

/-! ### What a step does -/

section

variable {τ α : Type*} [DecidableEq τ] [DecidableEq α] {cfg : RuntimeConfig} {m : IRModule α} {s : IRState α}
  {σ σ' : SystemState τ α} {t : τ}

theorem next_startRegion {r : Nat} {now : UInt64} (h : next cfg m s σ (.startRegion t r now) = some σ') :
    r < pragmaRegionLimit ∧ σ' = σ.call cfg t (.startTimingEvent r now) (.region r now :: σ.active t) := by
  simp only [next, Option.ite_none_left_eq_some, Option.some.injEq, not_or, Nat.not_le] at h
  exact ⟨h.1.2, h.2.symm⟩

theorem next_endRegion {now : UInt64} (h : next cfg m s σ (.endRegion t now) = some σ') :
    ∃ r entered rest, σ.active t = .region r entered :: rest ∧ σ' = σ.call cfg t (.endTimingEvent r now) rest := by
  simp only [next] at h
  split at h
  · rename_i r entered rest hactive
    exact ⟨r, entered, rest, hactive, (Option.some.inj h).symm⟩
  · simp at h

theorem next_increment {i : Increment} (h : next cfg m s σ (.increment t i) = some σ') :
    σ' = σ.call cfg t (.increment i) (σ.active t) := by
  simp only [next, Option.ite_none_left_eq_some, Option.some.injEq] at h
  exact h.2.symm

theorem next_forkCall {f : α} (h : next cfg m s σ (.forkCall t f) = some σ') :
    ∃ r, (openRegions (σ.active t)).head? = some r ∧ f ∈ s.cloned ∧ m.startsWithOmp (m.cloneName f) = true ∧
      s.size (m.cloneName f) ≠ 0 ∧
      σ' = { σ with
        active := Function.update σ.active t (.fork σ.forks.length :: σ.active t)
        forks := σ.forks ++ [⟨t, f, r⟩] } := by
  simp only [next] at h
  split at h
  · simp at h
  · rename_i r hregion
    simp only [Option.ite_none_right_eq_some, Option.some.injEq] at h
    obtain ⟨⟨-, hf, homp, hsize⟩, rfl⟩ := h
    exact ⟨r, hregion, hf, homp, hsize, rfl⟩

theorem next_join (h : next cfg m s σ (.join t) = some σ') :
    ∃ k rest, σ.active t = .fork k :: rest ∧ σ' = { σ with active := Function.update σ.active t rest } := by
  simp only [next] at h
  split at h
  · rename_i k rest hactive
    exact ⟨k, rest, hactive, (Option.some.inj h).symm⟩
  · simp at h

theorem next_startShare {k : Nat} {now : UInt64} (h : next cfg m s σ (.startShare t k now) = some σ') :
    ∃ fork r, σ.forks[k]? = some fork ∧ (s.code (m.cloneName fork.microtask, 0)).startEvents.head? = some r ∧
      inTeam k fork t (σ.active t) = true ∧ r < pragmaRegionLimit ∧
      σ' = σ.call cfg t (.startTimingEvent r now) (.share k r now :: σ.active t) := by
  simp only [next] at h
  split at h
  · simp at h
  · rename_i fork hfork
    split at h
    · simp at h
    · rename_i r hentry
      simp only [Option.ite_none_right_eq_some, Option.some.injEq] at h
      exact ⟨fork, r, hfork, hentry, h.1.1, h.1.2, h.2.symm⟩

theorem next_endShare {block : Nat} {now : UInt64} (h : next cfg m s σ (.endShare t block now) = some σ') :
    ∃ k r entered rest fork q, σ.active t = .share k r entered :: rest ∧ σ.forks[k]? = some fork ∧
      (s.code (m.cloneName fork.microtask, block)).isReturn = true ∧
      (s.code (m.cloneName fork.microtask, block)).endEvents.getLast? = some q ∧
      σ' = σ.call cfg t (.endTimingEvent q now) rest := by
  simp only [next] at h
  split at h
  · rename_i k r entered rest hactive
    split at h
    · simp at h
    · rename_i fork hfork
      split at h
      · simp at h
      · rename_i q hexit
        simp only [Option.ite_none_right_eq_some, Option.some.injEq] at h
        exact ⟨k, r, entered, rest, fork, q, hactive, hfork, h.1.2, hexit, h.2.symm⟩
  · simp at h

end

/-! ### The invariant -/

section

variable {τ α : Type*} {cfg : RuntimeConfig} {opts : PassOptions} {m : IRModule α} {s : IRState α}

theorem openEntries_cons (a : Activity) (active : List Activity) :
    openEntries (a :: active) = a.entry.toList ++ openEntries active := by
  cases h : a.entry <;> simp [openEntries, h]

theorem openRegions_cons {a : Activity} {r : Nat} {entered : UInt64} (h : a.entry = some (r, entered))
    (active : List Activity) : openRegions (a :: active) = r :: openRegions active := by
  simp [openRegions, openEntries_cons, h]

/-- The start time of every open region is the time of its first open entry. -/
def StartTimes (ts : ThreadState) (entries : List (Nat × UInt64)) : Prop :=
  ∀ above q entered below, entries = above ++ (q, entered) :: below → q ∉ below.map Prod.fst →
    (ts.timingProfiles q).startTime = entered

theorem StartTimes.enter (hperiod : cfg.samplingPeriod = 1) {ts : ThreadState} {entries : List (Nat × UInt64)}
    {r : Nat} {now : UInt64} (hrow : RowOf cfg ts (entries.map Prod.fst)) (h : StartTimes ts entries) :
    StartTimes (startTimingEvent cfg r now ts) ((r, now) :: entries) := by
  intro above q entered below heq hq
  by_cases hmem : r ∈ entries.map Prod.fst
  · -- a re-entry
    have hopen : ts.regionDepth r ≠ 0 := by
      rw [hrow.depth]
      exact (List.count_pos_iff.mpr hmem).ne'
    rw [startTimingEvent_reentry cfg r now ts hopen]
    cases above with
    | nil =>
      obtain ⟨hfirst, rfl⟩ := List.cons.inj heq
      obtain ⟨rfl, -⟩ := Prod.mk.inj hfirst
      exact absurd hmem hq
    | cons a above => exact h above q entered below (List.cons.inj heq).2 hq
  · have hopen : ts.regionDepth r = 0 := by rw [hrow.depth, List.count_eq_zero_of_not_mem hmem]
    have hsampled : sampled cfg (ts.timingProfiles r).count = true := by simp [sampled, hperiod, Nat.mod_one]
    rw [startTimingEvent_sampled cfg r now ts hopen hsampled]
    cases above with
    | nil =>
      obtain ⟨hfirst, rfl⟩ := List.cons.inj heq
      obtain ⟨rfl, rfl⟩ := Prod.mk.inj hfirst
      simp
    | cons a above =>
      have htail := (List.cons.inj heq).2
      have hne : q ≠ r := by
        rintro rfl
        refine hmem ?_
        simp [htail]
      show (Function.update ts.timingProfiles r _ q).startTime = entered
      rw [Function.update_of_ne hne]
      exact h above q entered below htail hq

theorem StartTimes.exit {ts : ThreadState} {entries : List (Nat × UInt64)} {r : Nat} {entered now : UInt64}
    (hrow : RowOf cfg ts (r :: entries.map Prod.fst)) (h : StartTimes ts ((r, entered) :: entries)) :
    StartTimes (endTimingEvent r now ts) entries := by
  intro above q e below heq hq
  have hold := h ((r, entered) :: above) q e below (by rw [heq]; rfl) hq
  by_cases hmem : r ∈ entries.map Prod.fst
  · rw [hrow.endTimingEvent_of_mem hmem]
    exact hold
  · rw [hrow.endTimingEvent_eq hmem]
    show (Function.update ts.timingProfiles r _ q).startTime = e
    have hne : q ≠ r := by
      rintro rfl
      refine hmem ?_
      simp [heq]
    rw [Function.update_of_ne hne]
    exact hold

variable [DecidableEq α]

/-- One thread: its counting state is that of its open entries, the shares it is in carry the region of the clone, and
a worker in a share was in nothing before. -/
structure ThreadInv (cfg : RuntimeConfig) (opts : PassOptions) (m : IRModule α) (forks : List (Fork τ α)) (t : τ)
    (ts : ThreadState) (active : List Activity) : Prop where
  row : RowOf cfg ts (openRegions active)
  times : StartTimes ts (openEntries active)
  share : ∀ k r entered, .share k r entered ∈ active → ∃ fork, forks[k]? = some fork ∧
    r = m.firstRegion opts fork.microtask
  worker : ∀ above k r entered rest, active = above ++ .share k r entered :: rest → ∀ fork, forks[k]? = some fork →
    t ≠ fork.thread → rest = []

/-- All threads; the clones that were forked have their entry and exit calls. -/
structure SystemInv (cfg : RuntimeConfig) (opts : PassOptions) (m : IRModule α) (s : IRState α)
    (σ : SystemState τ α) : Prop where
  thread : ∀ t, ThreadInv cfg opts m σ.forks t (σ.thread t) (σ.active t)
  microtask : ∀ fork ∈ σ.forks, MicrotaskEvents m s fork.microtask (m.firstRegion opts fork.microtask)

namespace ThreadInv

variable {forks : List (Fork τ α)} {t : τ} {ts : ThreadState} {active rest : List Activity} {a : Activity}

theorem initial (forks : List (Fork τ α)) (t : τ) : ThreadInv cfg opts m forks t .initial [] where
  row := .initial cfg
  times := fun above q entered below heq => by simp [openEntries] at heq
  share := by simp
  worker := fun above k r entered rest heq => by simp at heq

/-- A new fork. -/
theorem fork (h : ThreadInv cfg opts m forks t ts active) (fork : Fork τ α) :
    ThreadInv cfg opts m (forks ++ [fork]) t ts active where
  row := h.row
  times := h.times
  share := by
    intro k r entered hmem
    obtain ⟨f, hf, hr⟩ := h.share k r entered hmem
    exact ⟨f, by rw [List.getElem?_append_left (List.getElem?_eq_some_iff.mp hf).1, hf], hr⟩
  worker := by
    intro above k r entered rest heq f hf hne
    obtain ⟨f', hf', -⟩ := h.share k r entered (by simp [heq])
    rw [List.getElem?_append_left (List.getElem?_eq_some_iff.mp hf').1] at hf
    exact h.worker above k r entered rest heq f hf hne

theorem tail (h : ThreadInv cfg opts m forks t ts (a :: rest)) (ts' : ThreadState)
    (hrow : RowOf cfg ts' (openRegions rest)) (htimes : StartTimes ts' (openEntries rest)) :
    ThreadInv cfg opts m forks t ts' rest where
  row := hrow
  times := htimes
  share := fun k r entered hmem => h.share k r entered (List.mem_cons_of_mem a hmem)
  worker := fun above k r entered below heq => h.worker (a :: above) k r entered below (by rw [heq]; rfl)

theorem increment (h : ThreadInv cfg opts m forks t ts active) (i : Increment) :
    ThreadInv cfg opts m forks t (i.apply ts) active where
  row := h.row.increment i
  times := by
    unfold StartTimes
    rw [i.apply_timingProfiles]
    exact h.times
  share := h.share
  worker := h.worker

/-- A region is entered, or a share started. -/
theorem enter (hperiod : cfg.samplingPeriod = 1) (h : ThreadInv cfg opts m forks t ts active) {r : Nat} {now : UInt64}
    (hentry : a.entry = some (r, now)) (hr : r < pragmaRegionLimit)
    (hshare : ∀ k q entered, a = .share k q entered → ∃ fork, forks[k]? = some fork ∧
      q = m.firstRegion opts fork.microtask ∧ (t ≠ fork.thread → active = [])) :
    ThreadInv cfg opts m forks t (startTimingEvent cfg r now ts) (a :: active) where
  row := by
    rw [openRegions_cons hentry]
    exact h.row.enter hperiod hr
  times := by
    rw [openEntries_cons, hentry]
    exact h.times.enter hperiod h.row
  share := by
    intro k q entered hmem
    rcases List.mem_cons.mp hmem with heq | hmem
    · obtain ⟨fork, hfork, hq, -⟩ := hshare k q entered heq.symm
      exact ⟨fork, hfork, hq⟩
    · exact h.share k q entered hmem
  worker := by
    intro above k q entered below heq fork hfork hne
    cases above with
    | nil =>
      obtain ⟨rfl, rfl⟩ := List.cons.inj heq
      obtain ⟨fork', hfork', -, hidle⟩ := hshare k q entered rfl
      rw [hfork, Option.some.injEq] at hfork'
      exact hidle (hfork' ▸ hne)
    | cons b above => exact h.worker above k q entered below (List.cons.inj heq).2 fork hfork hne

/-- A region is left, or a share ended. -/
theorem exit (h : ThreadInv cfg opts m forks t ts (a :: rest)) {r : Nat} {entered : UInt64}
    (hentry : a.entry = some (r, entered)) (now : UInt64) :
    ThreadInv cfg opts m forks t (endTimingEvent r now ts) rest := by
  have hrow := h.row
  rw [openRegions_cons hentry] at hrow
  have htimes := h.times
  rw [openEntries_cons, hentry] at htimes
  exact h.tail _ hrow.exit (htimes.exit hrow)

/-- A thread forks and waits, or the join ends. -/
theorem push_fork (h : ThreadInv cfg opts m forks t ts active) (k : Nat) :
    ThreadInv cfg opts m forks t ts (.fork k :: active) where
  row := h.row
  times := h.times
  share := by
    intro k' r entered hmem
    exact h.share k' r entered (by simpa using hmem)
  worker := by
    intro above k' r entered rest heq
    cases above with
    | nil => simp at heq
    | cons b above => exact h.worker above k' r entered rest (List.cons.inj heq).2

theorem pop_fork {k : Nat} (h : ThreadInv cfg opts m forks t ts (.fork k :: rest)) :
    ThreadInv cfg opts m forks t ts rest :=
  h.tail ts h.row h.times

end ThreadInv

end

section

variable {τ α : Type*} [DecidableEq α] {cfg : RuntimeConfig} {opts : PassOptions} {m : IRModule α} {s : IRState α}
  {σ σ' : SystemState τ α}

theorem SystemInv.initial : SystemInv cfg opts m s ({} : SystemState τ α) where
  thread := fun t => .initial [] t
  microtask := by simp

/-- The entry and exit calls of a share carry the region of the clone. -/
theorem SystemInv.microtask_of_getElem? (h : SystemInv cfg opts m s σ) {k : Nat} {fork : Fork τ α}
    (hfork : σ.forks[k]? = some fork) : MicrotaskEvents m s fork.microtask (m.firstRegion opts fork.microtask) :=
  h.microtask fork (List.mem_of_getElem? hfork)

variable [DecidableEq τ]

theorem SystemInv.update (h : SystemInv cfg opts m s σ) {t : τ} {ts : ThreadState} {active : List Activity}
    (ht : ThreadInv cfg opts m σ.forks t ts active) :
    SystemInv cfg opts m s
      { σ with
        thread := Function.update σ.thread t ts
        active := Function.update σ.active t active } where
  thread := by
    intro t'
    by_cases heq : t' = t
    · subst heq
      simpa using ht
    · simpa [Function.update_of_ne heq] using h.thread t'
  microtask := h.microtask

theorem SystemInv.of_next (hperiod : cfg.samplingPeriod = 1)
    (hclones : ∀ f ∈ s.cloned, m.startsWithOmp (m.cloneName f) = true → s.size (m.cloneName f) ≠ 0 →
      MicrotaskEvents m s f (m.firstRegion opts f))
    (h : SystemInv cfg opts m s σ) {e : Event τ α} (hnext : next cfg m s σ e = some σ') :
    SystemInv cfg opts m s σ' := by
  cases e with
  | startRegion t r now =>
    obtain ⟨hr, rfl⟩ := next_startRegion hnext
    exact h.update ((h.thread t).enter hperiod rfl hr (by simp))
  | endRegion t now =>
    obtain ⟨r, entered, rest, hactive, rfl⟩ := next_endRegion hnext
    exact h.update ((hactive ▸ h.thread t).exit rfl now)
  | increment t i =>
    obtain rfl := next_increment hnext
    exact h.update ((h.thread t).increment i)
  | forkCall t f =>
    obtain ⟨r, -, hf, homp, hsize, rfl⟩ := next_forkCall hnext
    constructor
    · intro t'
      by_cases heq : t' = t
      · subst heq
        simpa using ((h.thread t').fork ⟨t', f, r⟩).push_fork σ.forks.length
      · simpa [Function.update_of_ne heq] using (h.thread t').fork ⟨t, f, r⟩
    · intro fork hfork
      rcases List.mem_append.mp hfork with hfork | hfork
      · exact h.microtask fork hfork
      · rw [List.mem_singleton] at hfork
        subst hfork
        exact hclones f hf homp hsize
  | join t =>
    obtain ⟨k, rest, hactive, rfl⟩ := next_join hnext
    have hupdate := h.update (hactive ▸ h.thread t).pop_fork
    rwa [Function.update_eq_self] at hupdate
  | startShare t k now =>
    obtain ⟨fork, r, hfork, hentry, hteam, hr, rfl⟩ := next_startShare hnext
    have hregion : r = m.firstRegion opts fork.microtask :=
      Option.some.inj (hentry.symm.trans (h.microtask_of_getElem? hfork).1)
    refine h.update ((h.thread t).enter hperiod rfl hr fun k' q entered heq => ?_)
    obtain ⟨rfl, rfl, -⟩ : k = k' ∧ r = q ∧ now = entered := by simpa using heq
    refine ⟨fork, hfork, hregion, fun hne => ?_⟩
    simpa [inTeam, hne] using hteam
  | endShare t block now =>
    obtain ⟨k, r, entered, rest, fork, q, hactive, hfork, hreturn, hexit, rfl⟩ := next_endShare hnext
    have ht := h.thread t
    rw [hactive] at ht
    -- the exit call carries the region of the entry call
    have hq : q = m.firstRegion opts fork.microtask :=
      Option.some.inj (hexit.symm.trans ((h.microtask_of_getElem? hfork).2 block hreturn))
    obtain ⟨fork', hfork', hr⟩ := ht.share k r entered List.mem_cons_self
    rw [hfork, Option.some.injEq] at hfork'
    obtain rfl : q = r := by rw [hq, hr, hfork']
    exact h.update (ht.exit rfl now)

end

end ZRay.OpenMP
