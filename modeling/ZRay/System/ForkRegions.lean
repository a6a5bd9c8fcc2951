import Mathlib
import ZRay.System.OpenMP

/-!
# The region a microtask is counted for

A share counts in the row of the region opened last on its thread.  On a worker that is the region of
the clone, and on the forking thread too unless that region was open already
(`SystemInv.stepAttributed_iff`).  So a run is attributed to the forks' regions if and only if the clone
belongs to them at every step that counts (`ompAttributed_iff`), which is so when every fork is made in
the region that reaches the microtask first (`along_stepConforms_of_forkConforms`).
-/

namespace ZRay.OpenMP

open Pass Pass.Clones

/-! ### Attribution -/

section

variable {τ α : Type*} [DecidableEq τ] [DecidableEq α]

/-- A share that a thread is in: its fork, and its entry. -/
structure Share (τ α : Type*) where
  fork : Fork τ α
  region : Nat
  entered : UInt64

/-- The share the thread is executing, when it is in no region and no fork inside it. -/
def SystemState.currentShare (σ : SystemState τ α) (t : τ) : Option (Share τ α) :=
  match σ.active t with
  | .share k r entered :: _ => σ.forks[k]?.map fun fork => ⟨fork, r, entered⟩
  | _ => none

/-- An increment inside a microtask goes to the row of the region that was innermost open on the forking thread, and
the time of a worker's share is added to that region and to no other. -/
def StepAttributed (cfg : RuntimeConfig) (σ : SystemState τ α) (e : Event τ α) (σ' : SystemState τ α) : Prop :=
  match e with
  | .increment t i => ∀ share ∈ σ.currentShare t,
    i.cell (σ.thread t) = some (i.postDomSetID + cfg.counterDimension * share.fork.region) ∧
      σ'.thread t = i.write (i.postDomSetID + cfg.counterDimension * share.fork.region) (σ.thread t)
  | .endShare t _ now => ∀ share ∈ σ.currentShare t, t ≠ share.fork.thread → ∀ q,
    ((σ'.thread t).timingProfiles q).totalTimeElapsed =
      ((σ.thread t).timingProfiles q).totalTimeElapsed + if q = share.fork.region then now - share.entered else 0
  | _ => True

/-- The step does not mix regions up.  At an increment of the forking thread the region opened last is the one of the
fork.  At an increment or at the end of a worker's share the clone belongs to the region of the fork. -/
def StepConforms (cfg : RuntimeConfig) (opts : PassOptions) (m : IRModule α) (σ : SystemState τ α) (e : Event τ α)
    (_ : SystemState τ α) : Prop :=
  match e with
  | .increment t _ => ∀ share ∈ σ.currentShare t, cfg.counterDimension = 0 ∨
    if t = share.fork.thread then openedLast (σ.active t) = some share.fork.region
    else m.firstRegion opts share.fork.microtask = share.fork.region
  | .endShare t _ now => ∀ share ∈ σ.currentShare t, t ≠ share.fork.thread →
    m.firstRegion opts share.fork.microtask = share.fork.region ∨ now = share.entered
  | _ => True

end

/-! ### Shares -/

section

variable {τ α : Type*} {cfg : RuntimeConfig} {opts : PassOptions} {m : IRModule α} {s : IRState α}
  {σ σ' : SystemState τ α}

theorem SystemState.currentShare_eq_some_iff {t : τ} {share : Share τ α} :
    σ.currentShare t = some share ↔ ∃ k rest, σ.active t = .share k share.region share.entered :: rest ∧
      σ.forks[k]? = some share.fork := by
  obtain ⟨fork, region, entered⟩ := share
  unfold currentShare
  split
  · rename_i k r e rest hactive
    rw [hactive]
    simp only [Option.map_eq_some_iff, Share.mk.injEq, List.cons.injEq, Activity.share.injEq]
    constructor
    · rintro ⟨_, hfork, rfl, rfl, rfl⟩
      exact ⟨k, rest, ⟨⟨rfl, rfl, rfl⟩, rfl⟩, hfork⟩
    · rintro ⟨_, _, ⟨⟨rfl, rfl, rfl⟩, rfl⟩, hfork⟩
      exact ⟨fork, hfork, rfl, rfl, rfl⟩
  · rename_i hother
    simp only [reduceCtorEq, false_iff, not_exists, not_and]
    intro k rest hactive
    exact absurd hactive (hother k region entered rest)

variable [DecidableEq α]

/-- A share on its thread: the entry call has the region of the clone, and a worker has nothing else open. -/
theorem SystemInv.currentShare (h : SystemInv cfg opts m s σ) {t : τ} {share : Share τ α}
    (hshare : σ.currentShare t = some share) :
    share.region = m.firstRegion opts share.fork.microtask ∧
      ∃ entries, openEntries (σ.active t) = (share.region, share.entered) :: entries ∧
        (t ≠ share.fork.thread → entries = []) := by
  obtain ⟨k, rest, hactive, hfork⟩ := SystemState.currentShare_eq_some_iff.mp hshare
  have ht := h.thread t
  rw [hactive] at ht
  obtain ⟨fork, hfork', hregion⟩ := ht.share k _ _ List.mem_cons_self
  obtain rfl : fork = share.fork := Option.some.inj (hfork'.symm.trans hfork)
  refine ⟨hregion, openEntries rest, by rw [hactive]; rfl, fun hne => ?_⟩
  rw [ht.worker [] k _ _ rest rfl share.fork hfork hne]
  rfl

end

section

variable {τ α : Type*} [DecidableEq τ] [DecidableEq α] {cfg : RuntimeConfig} {opts : PassOptions} {m : IRModule α}
  {s : IRState α} {σ σ' : SystemState τ α}

/-- The exit call of a worker's share adds the time of the share to the region of the entry call. -/
theorem SystemInv.totalTimeElapsed_endShare (h : SystemInv cfg opts m s σ) {t : τ} {block : Nat} {now : UInt64}
    {share : Share τ α} (hshare : σ.currentShare t = some share) (hne : t ≠ share.fork.thread)
    (hnext : next cfg m s σ (.endShare t block now) = some σ') (q : Nat) :
    ((σ'.thread t).timingProfiles q).totalTimeElapsed =
      ((σ.thread t).timingProfiles q).totalTimeElapsed + if q = share.region then now - share.entered else 0 := by
  obtain ⟨hregion, entries, hentries, hidle⟩ := h.currentShare hshare
  obtain rfl := hidle hne
  have hrow := (h.thread t).row
  rw [openRegions, hentries] at hrow
  have htime : ((σ.thread t).timingProfiles share.region).startTime = share.entered :=
    (h.thread t).times [] share.region share.entered [] hentries List.not_mem_nil
  -- the exit call is that of the entry
  have hcall : σ'.thread t = endTimingEvent share.region now (σ.thread t) := by
    obtain ⟨k, rest, hactive, hfork⟩ := SystemState.currentShare_eq_some_iff.mp hshare
    obtain ⟨k', r, entered, rest', fork, q', hactive', hfork', hreturn, hexit, rfl⟩ := next_endShare hnext
    obtain ⟨heq, -⟩ := List.cons.inj (hactive'.symm.trans hactive)
    obtain ⟨rfl, -, -⟩ := Activity.share.inj heq
    obtain rfl : fork = share.fork := Option.some.inj (hfork'.symm.trans hfork)
    have hq : q' = m.firstRegion opts share.fork.microtask :=
      Option.some.inj (hexit.symm.trans ((h.microtask_of_getElem? hfork).2 block hreturn))
    rw [hregion, ← hq]
    exact Function.update_self ..
  rw [hcall, hrow.endTimingEvent_eq List.not_mem_nil]
  show (Function.update (σ.thread t).timingProfiles share.region _ q).totalTimeElapsed = _
  by_cases hq : q = share.region
  · subst hq
    have hflag : (σ.thread t).globalDisable = false := hrow.flag
    simp [ThreadState.closedProfile, hflag, htime]
  · simp [hq]

/-- A step attributes what it counts to the region of the fork if and only if it mixes no regions up. -/
theorem SystemInv.stepAttributed_iff (h : SystemInv cfg opts m s σ) {e : Event τ α}
    (hnext : next cfg m s σ e = some σ') :
    StepAttributed cfg σ e σ' ↔ StepConforms cfg opts m σ e σ' := by
  cases e with
  | increment t i =>
    refine forall₂_congr fun share hshare => ?_
    obtain ⟨hregion, entries, hentries, hidle⟩ := h.currentShare hshare
    have hopen : openRegions (σ.active t) = share.region :: entries.map Prod.fst := by rw [openRegions, hentries]; rfl
    -- the cell decides what is written
    have hwrite : σ'.thread t = i.writeAt (σ.thread t) (i.cell (σ.thread t)) := by
      obtain rfl := next_increment hnext
      rw [← i.apply_eq_writeAt]
      exact Function.update_self ..
    rw [and_iff_left_of_imp fun hcell => by rw [hwrite, hcell]; rfl,
      (h.thread t).row.cell_eq_some_iff (by simp [hopen])]
    refine or_congr_right ?_
    split
    · exact Iff.rfl
    · rename_i hne
      rw [hopen, hidle hne, ← hregion]
      simp
  | endShare t block now =>
    refine forall₂_congr fun share hshare => forall_congr' fun hne => ?_
    rw [← (h.currentShare hshare).1]
    have htotal := h.totalTimeElapsed_endShare hshare hne hnext
    simp only [htotal, add_right_inj]
    constructor
    · intro hall
      by_cases hregion : share.region = share.fork.region
      · exact .inl hregion
      · have hzero := hall share.region
        rw [if_pos rfl, if_neg hregion] at hzero
        exact .inr (by simpa [sub_eq_zero] using hzero)
    · rintro (hregion | htime) q
      · rw [hregion]
      · simp [htime]
  | _ => exact Iff.rfl

/-! ### Runs -/

/-- The induction rule: an invariant of the runs along which `P` holds, under which `P` implies `Q` at each step. -/
theorem Along.imp {I : SystemState τ α → Prop} {P Q : SystemState τ α → Event τ α → SystemState τ α → Prop}
    (hinv : ∀ σ e σ', I σ → next cfg m s σ e = some σ' → P σ e σ' → I σ')
    (himp : ∀ σ e σ', I σ → next cfg m s σ e = some σ' → P σ e σ' → Q σ e σ') (hσ : I σ) {es : List (Event τ α)}
    (h : Along cfg m s P σ es) : Along cfg m s Q σ es := by
  induction es generalizing σ with
  | nil => trivial
  | cons e es ih =>
    intro σ' hnext
    obtain ⟨hP, hrest⟩ := h σ' hnext
    exact ⟨himp σ e σ' hσ hnext hP, ih (hinv σ e σ' hσ hnext hP) hrest⟩

end

section

variable {τ α : Type*} [DecidableEq τ] [DecidableEq α] {cfg : RuntimeConfig} {opts : PassOptions} {m : IRModule α}
  {s : IRState α}

omit [DecidableEq τ] in
/-- The clones of microtasks that the pass leaves behind have their entry and exit calls. -/
theorem microtaskEvents_of_cloneLoop (hloop : CloneLoop opts m s.cloned s) {f : α} (hf : f ∈ s.cloned)
    (homp : m.startsWithOmp (m.cloneName f) = true) (hsize : s.size (m.cloneName f) ≠ 0) :
    MicrotaskEvents m s f (m.firstRegion opts f) := by
  rw [hloop.made.size_clone hf] at hsize
  rw [← hloop.pragmaRegionID_clonePR f]
  exact hloop.events f hf homp (Nat.pos_of_ne_zero hsize)

theorem SystemInv.of_next_cloneLoop (hperiod : cfg.samplingPeriod = 1) (hloop : CloneLoop opts m s.cloned s)
    {σ σ' : SystemState τ α} (h : SystemInv cfg opts m s σ) {e : Event τ α} (hnext : next cfg m s σ e = some σ') :
    SystemInv cfg opts m s σ' :=
  h.of_next hperiod (fun _ hf homp hsize => microtaskEvents_of_cloneLoop hloop hf homp hsize) hnext

/-- Along a run in a module without pending clones, what is counted goes to the region of the fork at every step if
and only if no step mixes regions up. -/
theorem along_stepAttributed_iff (hperiod : cfg.samplingPeriod = 1) (hloop : CloneLoop opts m s.cloned s)
    (es : List (Event τ α)) :
    Along cfg m s (StepAttributed cfg) {} es ↔ Along cfg m s (StepConforms cfg opts m) {} es := by
  constructor
  · intro h
    exact h.imp (I := SystemInv cfg opts m s) (fun σ e σ' hσ hnext _ => hσ.of_next_cloneLoop hperiod hloop hnext)
      (fun σ e σ' hσ hnext hstep => (hσ.stepAttributed_iff hnext).mp hstep) .initial
  · intro h
    exact h.imp (I := SystemInv cfg opts m s) (fun σ e σ' hσ hnext _ => hσ.of_next_cloneLoop hperiod hloop hnext)
      (fun σ e σ' hσ hnext hstep => (hσ.stepAttributed_iff hnext).mpr hstep) .initial

/-- For every module, and every run of the threads with every invocation sampled: what the threads count inside
microtasks goes to the region of the fork if and only if no step mixes regions up. -/
theorem ompAttributed_iff (cfg : RuntimeConfig) (hperiod : cfg.samplingPeriod = 1) (opts : PassOptions)
    (m : IRModule α) :
    ∃ s, (∀ extra, runOnModule opts m (m.functions.length + extra) = some s) ∧ ∀ es : List (Event τ α),
      Along cfg m s (StepAttributed cfg) {} es ↔ Along cfg m s (StepConforms cfg opts m) {} es := by
  obtain ⟨s, hrun, -, hloop⟩ := exists_runOnModule opts m
  exact ⟨s, hrun, along_stepAttributed_iff hperiod hloop⟩

end

/-! ### Forks in the region of the clone -/

section

variable {τ α : Type*} {cfg : RuntimeConfig} {opts : PassOptions} {m : IRModule α} {s : IRState α}
  {σ σ' : SystemState τ α}

/-- The thread forks in the region that reaches the microtask first, and no other region was opened after it. -/
def ForkConforms [DecidableEq α] (opts : PassOptions) (m : IRModule α) (σ : SystemState τ α) (e : Event τ α)
    (_ : SystemState τ α) : Prop :=
  match e with
  | .forkCall t f => (openRegions (σ.active t)).head? = some (m.firstRegion opts f) ∧
    openedLast (σ.active t) = some (m.firstRegion opts f)
  | _ => True

/-- One thread: at every fork it waits for, the region of the fork is the one opened last, and a share of its own fork
was started from the fork. -/
structure ThreadForks (forks : List (Fork τ α)) (t : τ) (active : List Activity) : Prop where
  fork : ∀ above k below, active = above ++ .fork k :: below → ∃ fork, forks[k]? = some fork ∧
    openedLast below = some fork.region
  share : ∀ above k r entered rest, active = above ++ .share k r entered :: rest → ∃ fork, forks[k]? = some fork ∧
    (t = fork.thread → rest.head? = some (.fork k))

namespace ThreadForks

variable {forks : List (Fork τ α)} {t : τ} {active rest : List Activity} {a : Activity}

theorem nil (forks : List (Fork τ α)) (t : τ) : ThreadForks forks t [] where
  fork := by simp
  share := by simp

theorem tail (h : ThreadForks forks t (a :: rest)) : ThreadForks forks t rest where
  fork := fun above k below heq => h.fork (a :: above) k below (by rw [heq]; rfl)
  share := fun above k r entered below heq => h.share (a :: above) k r entered below (by rw [heq]; rfl)

theorem cons (h : ThreadForks forks t active)
    (hfork : ∀ k, a = .fork k → ∃ fork, forks[k]? = some fork ∧ openedLast active = some fork.region)
    (hshare : ∀ k r entered, a = .share k r entered → ∃ fork, forks[k]? = some fork ∧
      (t = fork.thread → active.head? = some (.fork k))) : ThreadForks forks t (a :: active) where
  fork := by
    intro above k below heq
    cases above with
    | nil =>
      obtain ⟨rfl, rfl⟩ := List.cons.inj heq
      exact hfork k rfl
    | cons b above => exact h.fork above k below (List.cons.inj heq).2
  share := by
    intro above k r entered below heq
    cases above with
    | nil =>
      obtain ⟨rfl, rfl⟩ := List.cons.inj heq
      exact hshare k r entered rfl
    | cons b above => exact h.share above k r entered below (List.cons.inj heq).2

/-- A new fork. -/
theorem append (h : ThreadForks forks t active) (fork : Fork τ α) : ThreadForks (forks ++ [fork]) t active := by
  have hold : ∀ {k : Nat} {f : Fork τ α}, forks[k]? = some f → (forks ++ [fork])[k]? = some f := fun hf => by
    rw [List.getElem?_append_left (List.getElem?_eq_some_iff.mp hf).1, hf]
  constructor
  · intro above k below heq
    obtain ⟨f, hf, hlast⟩ := h.fork above k below heq
    exact ⟨f, hold hf, hlast⟩
  · intro above k r entered below heq
    obtain ⟨f, hf, hhead⟩ := h.share above k r entered below heq
    exact ⟨f, hold hf, hhead⟩

end ThreadForks

/-- All threads; every fork is in the region that reaches its microtask first. -/
structure ForksInv [DecidableEq α] (opts : PassOptions) (m : IRModule α) (σ : SystemState τ α) : Prop where
  thread : ∀ t, ThreadForks σ.forks t (σ.active t)
  region : ∀ fork ∈ σ.forks, m.firstRegion opts fork.microtask = fork.region

variable [DecidableEq α]

theorem ForksInv.initial : ForksInv opts m ({} : SystemState τ α) where
  thread := fun t => .nil [] t
  region := by simp

variable [DecidableEq τ]

theorem ForksInv.update (h : ForksInv opts m σ) {t : τ} {active : List Activity} (ht : ThreadForks σ.forks t active)
    (thread : τ → ThreadState) :
    ForksInv opts m { σ with thread := thread, active := Function.update σ.active t active } where
  thread := by
    intro t'
    by_cases heq : t' = t
    · subst heq
      simpa using ht
    · simpa [Function.update_of_ne heq] using h.thread t'
  region := h.region

theorem ForksInv.of_next (h : ForksInv opts m σ) {e : Event τ α} (hnext : next cfg m s σ e = some σ')
    (hforks : ForkConforms opts m σ e σ') : ForksInv opts m σ' := by
  cases e with
  | startRegion t r now =>
    obtain ⟨-, rfl⟩ := next_startRegion hnext
    exact h.update ((h.thread t).cons (by simp) (by simp)) _
  | endRegion t now =>
    obtain ⟨r, entered, rest, hactive, rfl⟩ := next_endRegion hnext
    exact h.update (hactive ▸ h.thread t).tail _
  | increment t i =>
    obtain rfl := next_increment hnext
    exact h.update (h.thread t) _
  | forkCall t f =>
    obtain ⟨r, hregion, -, -, -, rfl⟩ := next_forkCall hnext
    obtain ⟨hfirst, hlast⟩ := hforks
    have hr : m.firstRegion opts f = r := Option.some.inj (hfirst.symm.trans hregion)
    rw [hr] at hlast
    constructor
    · intro t'
      by_cases heq : t' = t
      · subst heq
        have hcons := ((h.thread t').append ⟨t', f, r⟩).cons (a := .fork σ.forks.length)
          (fun k hk => ⟨⟨t', f, r⟩, by simp [← Activity.fork.inj hk], hlast⟩) (by simp)
        simpa using hcons
      · simpa [Function.update_of_ne heq] using (h.thread t').append ⟨t, f, r⟩
    · intro fork hfork
      rcases List.mem_append.mp hfork with hfork | hfork
      · exact h.region fork hfork
      · rw [List.mem_singleton] at hfork
        subst hfork
        exact hr
  | join t =>
    obtain ⟨k, rest, hactive, rfl⟩ := next_join hnext
    exact h.update (hactive ▸ h.thread t).tail _
  | startShare t k now =>
    obtain ⟨fork, r, hfork, -, hteam, -, rfl⟩ := next_startShare hnext
    refine h.update ((h.thread t).cons (by simp) fun k' q entered heq => ?_) _
    obtain ⟨rfl, -, -⟩ := Activity.share.inj heq
    refine ⟨fork, hfork, fun ht => ?_⟩
    simpa [inTeam, ht] using hteam
  | endShare t block now =>
    obtain ⟨k, r, entered, rest, fork, q, hactive, -, -, -, rfl⟩ := next_endShare hnext
    exact h.update (hactive ▸ h.thread t).tail _

/-- With every fork in the region of the clone, no step mixes regions up: the entry call of the forking thread is a
re-entry of that region. -/
theorem ForksInv.stepConforms (h : ForksInv opts m σ) (hsystem : SystemInv cfg opts m s σ) (e : Event τ α) :
    StepConforms cfg opts m σ e σ' := by
  have hregion : ∀ t, ∀ share ∈ σ.currentShare t, m.firstRegion opts share.fork.microtask = share.fork.region := by
    intro t share hshare
    obtain ⟨k, rest, -, hfork⟩ := SystemState.currentShare_eq_some_iff.mp hshare
    exact h.region share.fork (List.mem_of_getElem? hfork)
  cases e with
  | increment t i =>
    intro share hshare
    refine .inr ?_
    split
    · rename_i ht
      obtain ⟨k, rest, hactive, hfork⟩ := SystemState.currentShare_eq_some_iff.mp hshare
      obtain ⟨hcalls, -⟩ := hsystem.currentShare hshare
      rw [hregion t share hshare] at hcalls
      -- the share was started from the fork
      obtain ⟨fork, hfork', hhead⟩ := (h.thread t).share [] k _ _ rest hactive
      obtain rfl : fork = share.fork := Option.some.inj (hfork'.symm.trans hfork)
      obtain ⟨below, rfl⟩ : ∃ below, rest = .fork k :: below := by
        cases rest with
        | nil => simp at hhead; exact absurd ht hhead
        | cons b below =>
          obtain rfl : b = .fork k := by simpa using hhead ht
          exact ⟨below, rfl⟩
      obtain ⟨fork', hfork'', hlast⟩ := (h.thread t).fork [.share k share.region share.entered] k below hactive
      obtain rfl : fork' = share.fork := Option.some.inj (hfork''.symm.trans hfork)
      have hmem : share.fork.region ∈ openRegions below := by
        rw [← List.mem_dedup]
        exact List.mem_of_mem_head? hlast
      have hopen : openRegions (σ.active t) = share.fork.region :: openRegions below := by
        rw [hactive, openRegions_cons rfl, hcalls]
        rfl
      rw [openedLast, hopen, List.dedup_cons_of_mem hmem]
      exact hlast
    · exact hregion t share hshare
  | endShare t block now => exact fun share hshare _ => .inl (hregion t share hshare)
  | _ => trivial

/-- A run whose forks are all made in the region of the clone mixes no regions up. -/
theorem along_stepConforms_of_forkConforms (hperiod : cfg.samplingPeriod = 1) (hloop : CloneLoop opts m s.cloned s)
    {es : List (Event τ α)} (h : Along cfg m s (ForkConforms opts m) {} es) :
    Along cfg m s (StepConforms cfg opts m) {} es := by
  refine h.imp (I := fun σ => SystemInv cfg opts m s σ ∧ ForksInv opts m σ) ?_ ?_ ⟨.initial, .initial⟩
  · intro σ e σ' hσ hnext hfork
    exact ⟨hσ.1.of_next_cloneLoop hperiod hloop hnext, hσ.2.of_next hnext hfork⟩
  · intro σ e σ' hσ hnext _
    exact hσ.2.stepConforms hσ.1 e

end

/-! ### Runs on a module -/

section

variable {τ α : Type*} [DecidableEq τ] [DecidableEq α] {cfg : RuntimeConfig} {opts : PassOptions} {m : IRModule α}
  {s : IRState α}


instance decidableStepConforms (σ : SystemState τ α) (e : Event τ α) (σ' : SystemState τ α) :
    Decidable (StepConforms cfg opts m σ e σ') :=
  match e with
  | .increment t _ => inferInstanceAs (Decidable (∀ share ∈ σ.currentShare t, cfg.counterDimension = 0 ∨
      if t = share.fork.thread then openedLast (σ.active t) = some share.fork.region
      else m.firstRegion opts share.fork.microtask = share.fork.region))
  | .endShare t _ now => inferInstanceAs (Decidable (∀ share ∈ σ.currentShare t, t ≠ share.fork.thread →
      m.firstRegion opts share.fork.microtask = share.fork.region ∨ now = share.entered))
  | .startRegion .. | .endRegion .. | .forkCall .. | .join .. | .startShare .. => isTrue trivial

instance decidableAlong (P : SystemState τ α → Event τ α → SystemState τ α → Prop) [∀ σ e σ', Decidable (P σ e σ')] :
    (σ : SystemState τ α) → (es : List (Event τ α)) → Decidable (Along cfg m s P σ es)
  | _, [] => isTrue trivial
  | σ, e :: es =>
    let _ := fun σ' => decidableAlong P σ' es
    inferInstanceAs (Decidable (∀ σ' ∈ next cfg m s σ e, P σ e σ' ∧ Along cfg m s P σ' es))

end

/-- Function 0 forks the microtask, function 1, in its first block and in its second, which are the regions 0 and 1.
The clone of `f` is `f + 4`. -/
def twoForks : IRModule Nat where
  functions := [0, 1, 2]
  size := fun f => if f < 2 then 2 else 0
  code := fun x =>
    { calls := if x.1 = 0 then [{ calledFunction := some 2, ompName := some 1, isConstantExpr := true }] else []
      isReturn := x.2 == 1 }
  bbTags_nil := fun _ => rfl
  mem_functions := by
    intro f hf
    by_cases hlt : f < 2
    · exact mem_three_of_lt (Nat.lt_succ_of_lt hlt)
    · simp [hlt] at hf
  calledFunction_mem := by
    intro x c hc f hf
    have hf2 : f = 2 := by
      split at hc
      · obtain rfl := List.mem_singleton.mp hc
        exact (Option.some.inj hf).symm
      · exact absurd hc List.not_mem_nil
    simp [hf2]
  isIntrinsic := fun _ => false
  size_intrinsic := by simp
  kmpcForkCall := 2
  onThreadExit := 3
  startsWithOmp := fun f => f == 1 || f == 5
  prList := [⟨0, 0, 0, [(0, 0)]⟩, ⟨1, 0, 0, [(0, 1)]⟩]
  prList_id := rfl
  prList_blocks := by simp
  prList_nodup := by simp
  cloneName := fun f => f + 4
  cloneName_notMem := by simp
  cloneName_inj := fun f _ g _ h => Nat.add_right_cancel h
  orderBasicBlocks := twoBlocks
  orderBasicBlocks_fst := twoBlocks_fst
  orderBasicBlocks_nodup := twoBlocks_nodup
  orderBasicBlocks_entry := by simp [twoBlocks]
  analysis := fun _ => noAnalysis
  cloneAnalysis := fun _ => noAnalysis
  loops_wellFormed := noAnalysis_regions
  cloneLoops_wellFormed := noAnalysis_clones

/-- Region `r` forks the microtask, and the forking thread 0 and a worker 1 each count once in it. -/
def forkIn (r : Nat) : List (Event Nat Nat) :=
  [.startRegion 0 r 1, .forkCall 0 1, .startShare 0 0 2, .startShare 1 0 3, .increment 1 (.counterArray 0 0),
    .increment 0 (.counterArray 0 0), .endShare 1 1 5, .endShare 0 1 6, .join 0, .endRegion 0 7]

/-- The clone of the microtask belongs to region 0, and the fork is in region 0. -/
theorem ompAttributed_forkIn_zero :
    ∃ s, (∀ extra, runOnModule {} twoForks (3 + extra) = some s) ∧
      Along ⟨1, 4⟩ twoForks s (StepAttributed ⟨1, 4⟩) {} (forkIn 0) := by
  obtain ⟨s, hrun, hiff⟩ := ompAttributed_iff (τ := Nat) ⟨1, 4⟩ rfl {} twoForks
  refine ⟨s, hrun, (hiff (forkIn 0)).mpr ?_⟩
  have hconforms : (runOnModule {} twoForks 3).map
      (fun s => decide (Along ⟨1, 4⟩ twoForks s (StepConforms ⟨1, 4⟩ {} twoForks) {} (forkIn 0))) = some true := by
    decide
  rw [show runOnModule {} twoForks 3 = some s from hrun 0] at hconforms
  simpa using hconforms

/-- In region 1 the increments go to the row of region 0 all the same. -/
theorem not_ompAttributed_forkIn_one :
    ∃ s, runOnModule {} twoForks 3 = some s ∧ ¬ Along ⟨1, 4⟩ twoForks s (StepAttributed ⟨1, 4⟩) {} (forkIn 1) := by
  obtain ⟨s, hrun, -, hloop⟩ := exists_runOnModule {} twoForks
  have hs : runOnModule {} twoForks 3 = some s := hrun 0
  refine ⟨s, hs, fun hattributed => ?_⟩
  have hmixed : (runOnModule {} twoForks 3).map
      (fun s => decide (Along ⟨1, 4⟩ twoForks s (StepConforms ⟨1, 4⟩ {} twoForks) {} (forkIn 1))) = some false := by
    decide
  rw [hs, Option.map_some, Option.some.injEq, decide_eq_false_iff_not] at hmixed
  exact hmixed ((along_stepAttributed_iff rfl hloop (forkIn 1)).mp hattributed)

end ZRay.OpenMP
