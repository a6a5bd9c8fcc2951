import Mathlib
import ZRay.Log.HostLog

/-!
# The host monitor

Threads register with the poll thread, count, and unregister when they exit.  A poll holds `host_interface_mutex`
while it reads and logs the arrays of every registered thread, so no thread registers or unregisters meanwhile, but
threads count on.  The poll thread ends after the first poll that finds the stop flag raised.  Nothing polls a thread
when it unregisters: what it counted after its last poll is in no record (`counters_eq`).
-/

namespace ZRay

variable {ι : Type*} {n : Nat}

/-- The arrays a thread counts in. -/
structure ThreadArrays (n : Nat) where
  counterArray : Vector UInt64 n
  loadRuntimeArray : Vector UInt64 n
  storeRuntimeArray : Vector UInt64 n
  deriving DecidableEq

def ThreadArrays.zero : ThreadArrays n := ⟨Vector.replicate n 0, Vector.replicate n 0, Vector.replicate n 0⟩

inductive RuntimeArray where
  | counterArray
  | loadRuntimeArray
  | storeRuntimeArray
  deriving DecidableEq, Repr

/-- An increment of a cell. -/
def ThreadArrays.bump (a : ThreadArrays n) (cell : Fin n) (amount : UInt64) : RuntimeArray → ThreadArrays n
  | .counterArray => { a with counterArray := a.counterArray.set cell (a.counterArray[cell] + amount) }
  | .loadRuntimeArray =>
      { a with loadRuntimeArray := a.loadRuntimeArray.set cell (a.loadRuntimeArray[cell] + amount) }
  | .storeRuntimeArray =>
    { a with storeRuntimeArray := a.storeRuntimeArray.set cell (a.storeRuntimeArray[cell] + amount) }

/-- `roi_descriptor`: the thread whose arrays the addresses point to, and the time of its last poll. -/
structure RoiDescriptor (ι : Type*) where
  thread : ι
  time0 : UInt64
  deriving DecidableEq

/-- Where the poll thread is in its loop. -/
inductive PollPhase where
  | asleep
  /-- it holds the mutex and has these thread ids left to read -/
  | reading (rest : List UInt64)
  /-- it gave the mutex back and has not looked at the stop flag yet -/
  | written
  | ended
  deriving DecidableEq, Repr

/-- The monitor.  A thread is its own name here: a later one that is given the same id hash is another thread.  The
log keeps beside each record the thread it was read from, which the file does not. -/
structure MonitorState (ι : Type*) (n : Nat) where
  arrays : ι → ThreadArrays n
  accelInit : ι → Bool
  exited : ι → Bool
  registeredThreads : UInt64 → Option (RoiDescriptor ι)
  phase : PollPhase
  hostPollStop : Bool
  log : List (ι × HostRecord n)

def MonitorState.initial : MonitorState ι n where
  arrays := fun _ => ThreadArrays.zero
  accelInit := fun _ => false
  exited := fun _ => false
  registeredThreads := fun _ => none
  phase := .asleep
  hostPollStop := false
  log := []

inductive MonitorEvent (ι : Type*) (n : Nat) where
  | registerThread (t : ι) (now : UInt64)
  | increment (t : ι) (a : RuntimeArray) (cell : Fin n) (amount : UInt64)
  | unregisterThread (t : ι)
  /-- a poll takes the mutex; the order is that in which the map is iterated -/
  | pollStart (order : List UInt64)
  /-- the next registered thread, `t`, is read and logged -/
  | pollThread (t : ι) (now : UInt64)
  | pollEnd
  | pollCheck
  | stopHostProc
  deriving DecidableEq

/-- `host_interface_mutex` is free. -/
def MonitorState.mutexFree (s : MonitorState ι n) : Prop := ∀ rest, s.phase ≠ .reading rest

section

variable [DecidableEq ι] (hashID : ι → UInt64)

/-- What can happen in a state.  A thread counts, and has its exit handler, from when it registered until it exits. -/
def MonitorEvent.Enabled (s : MonitorState ι n) : MonitorEvent ι n → Prop
  | .registerThread t _ => s.exited t = false ∧ (s.accelInit t = true ∨ s.mutexFree)
  | .increment t _ _ _ => s.accelInit t = true ∧ s.exited t = false
  | .unregisterThread t => s.accelInit t = true ∧ s.exited t = false ∧ s.mutexFree
  | .pollStart order => s.phase = .asleep ∧ order.Nodup ∧ ∀ tid, tid ∈ order ↔ (s.registeredThreads tid).isSome
  | .pollThread t _ => ∃ tid rest roi, s.phase = .reading (tid :: rest) ∧ s.registeredThreads tid = some roi ∧
      roi.thread = t
  | .pollEnd => s.phase = .reading []
  | .pollCheck => s.phase = .written
  | .stopHostProc => True

/-- `__register_thread`, once for each thread; an id hash that is registered already is only warned about. -/
def MonitorState.registerThread (s : MonitorState ι n) (t : ι) (now : UInt64) : MonitorState ι n :=
  if s.accelInit t then s
  else
    { s with
      accelInit := Function.update s.accelInit t true
      registeredThreads :=
        if (s.registeredThreads (hashID t)).isNone then
          Function.update s.registeredThreads (hashID t) (some ⟨t, now⟩)
        else s.registeredThreads }

/-- The destructor of `on_thread_exit_monitor`, as far as the monitor goes: `__unregister_thread`. -/
def MonitorState.unregisterThread (s : MonitorState ι n) (t : ι) : MonitorState ι n :=
  { s with
    exited := Function.update s.exited t true
    registeredThreads := Function.update s.registeredThreads (hashID t) none }

/-- The record of a thread, as the poll thread reads and writes it. -/
def MonitorState.record (s : MonitorState ι n) (tid : UInt64) (roi : RoiDescriptor ι) (now : UInt64) :
    HostRecord n where
  tid := tid
  counterArray := (s.arrays roi.thread).counterArray
  timeDelta := now - roi.time0
  loadRuntimeArray := (s.arrays roi.thread).loadRuntimeArray
  storeRuntimeArray := (s.arrays roi.thread).storeRuntimeArray

/-- `__poll_counters_host_to_accel` for the next thread, and its record. -/
def MonitorState.pollThread (s : MonitorState ι n) (now : UInt64) : MonitorState ι n :=
  match s.phase with
  | .reading (tid :: rest) =>
    match s.registeredThreads tid with
    | some roi =>
      { s with
        phase := .reading rest
        registeredThreads := Function.update s.registeredThreads tid (some { roi with time0 := now })
        log := s.log ++ [(roi.thread, s.record tid roi now)] }
    | none => s
  | _ => s

/-- One step of the monitor or of a thread. -/
def MonitorState.next (s : MonitorState ι n) : MonitorEvent ι n → MonitorState ι n
  | .registerThread t now => s.registerThread hashID t now
  | .increment t a cell amount =>
    { s with arrays := Function.update s.arrays t ((s.arrays t).bump cell amount a) }
  | .unregisterThread t => s.unregisterThread hashID t
  | .pollStart order => { s with phase := .reading order }
  | .pollThread _ now => s.pollThread now
  | .pollEnd => { s with phase := .written }
  | .pollCheck => { s with phase := if s.hostPollStop then .ended else .asleep }
  | .stopHostProc => { s with hostPollStop := true }

/-- The events of a run and the state after them. -/
inductive MonitorRun : List (MonitorEvent ι n) → MonitorState ι n → Prop
  | nil : MonitorRun [] .initial
  | concat {es : List (MonitorEvent ι n)} {s : MonitorState ι n} {e : MonitorEvent ι n} :
    MonitorRun es s → e.Enabled s → MonitorRun (es ++ [e]) (s.next hashID e)

variable {hashID} {es : List (MonitorEvent ι n)} {s : MonitorState ι n}

/-! ### What a step does -/

/-- The poll of a thread: its record is logged, and the time of its last poll is set. -/
theorem next_pollThread (hashID : ι → UInt64) {t : ι} {now : UInt64} (h : (MonitorEvent.pollThread t now).Enabled s) :
    ∃ tid rest roi, s.phase = .reading (tid :: rest) ∧ s.registeredThreads tid = some roi ∧ roi.thread = t ∧
      s.next hashID (.pollThread t now) =
        { s with
          phase := .reading rest
          registeredThreads := Function.update s.registeredThreads tid (some { roi with time0 := now })
          log := s.log ++ [(t, s.record tid roi now)] } := by
  obtain ⟨tid, rest, roi, hphase, hroi, ht⟩ := h
  refine ⟨tid, rest, roi, hphase, hroi, ht, ?_⟩
  simp only [MonitorState.next, MonitorState.pollThread, hphase, hroi, ht]

/-- The threads in the map have registered under their id hash and have not exited. -/
structure RegisteredInv (hashID : ι → UInt64) (s : MonitorState ι n) : Prop where
  hash : ∀ tid roi, s.registeredThreads tid = some roi → hashID roi.thread = tid
  live : ∀ tid roi, s.registeredThreads tid = some roi → s.accelInit roi.thread = true ∧ s.exited roi.thread = false
  exited : ∀ t, s.exited t = true → s.accelInit t = true

theorem RegisteredInv.registerThread (h : RegisteredInv hashID s) {t : ι} (ht : s.exited t = false) (now : UInt64) :
    RegisteredInv hashID (s.registerThread hashID t now) := by
  unfold MonitorState.registerThread
  by_cases hinit : s.accelInit t = true
  · rwa [if_pos hinit]
  · rw [if_neg hinit]
    have haccel : ∀ t', s.accelInit t' = true → Function.update s.accelInit t true t' = true := by
      intro t' ht'
      rw [Function.update_apply]
      split
      · rfl
      · exact ht'
    have hentry : ∀ tid roi, (if (s.registeredThreads (hashID t)).isNone then
        Function.update s.registeredThreads (hashID t) (some ⟨t, now⟩) else s.registeredThreads) tid = some roi →
        s.registeredThreads tid = some roi ∨ (tid = hashID t ∧ roi = ⟨t, now⟩) := by
      intro tid roi hroi
      split at hroi
      · rw [Function.update_apply] at hroi
        split at hroi
        · rename_i htid
          exact .inr ⟨htid, (Option.some.inj hroi).symm⟩
        · exact .inl hroi
      · exact .inl hroi
    refine ⟨fun tid roi hroi => ?_, fun tid roi hroi => ?_, fun t' ht' => haccel t' (h.exited t' ht')⟩
    · rcases hentry tid roi hroi with hold | ⟨rfl, rfl⟩
      · exact h.hash tid roi hold
      · rfl
    · rcases hentry tid roi hroi with hold | ⟨rfl, rfl⟩
      · exact ⟨haccel _ (h.live tid roi hold).1, (h.live tid roi hold).2⟩
      · exact ⟨Function.update_self _ _ _, ht⟩

theorem RegisteredInv.unregisterThread (h : RegisteredInv hashID s) {t : ι} (ht : s.accelInit t = true) :
    RegisteredInv hashID (s.unregisterThread hashID t) := by
  have hentry : ∀ tid roi, Function.update s.registeredThreads (hashID t) none tid = some roi →
      tid ≠ hashID t ∧ s.registeredThreads tid = some roi := by
    intro tid roi hroi
    rw [Function.update_apply] at hroi
    split at hroi
    · exact absurd hroi (by simp)
    · rename_i htid
      exact ⟨htid, hroi⟩
  refine ⟨fun tid roi hroi => h.hash tid roi (hentry tid roi hroi).2, fun tid roi hroi => ?_, fun t' ht' => ?_⟩
  · obtain ⟨htid, hold⟩ := hentry tid roi hroi
    have hne : roi.thread ≠ t := by
      rintro rfl
      exact htid (h.hash tid roi hold).symm
    show s.accelInit roi.thread = true ∧ Function.update s.exited t true roi.thread = false
    rw [Function.update_of_ne hne]
    exact h.live tid roi hold
  · by_cases htt : t' = t
    · subst htt
      exact ht
    · refine h.exited t' ?_
      have hold : Function.update s.exited t true t' = true := ht'
      rwa [Function.update_of_ne htt] at hold

theorem RegisteredInv.next (h : RegisteredInv hashID s) {e : MonitorEvent ι n} (he : e.Enabled s) :
    RegisteredInv hashID (s.next hashID e) := by
  cases e with
  | registerThread t now => exact h.registerThread he.1 now
  | unregisterThread t => exact h.unregisterThread he.1
  | pollThread t now =>
    obtain ⟨tid, rest, roi, -, hroi, -, hnext⟩ := next_pollThread hashID he
    rw [hnext]
    have hentry : ∀ tid' roi', Function.update s.registeredThreads tid (some { roi with time0 := now }) tid' =
        some roi' → ∃ old, s.registeredThreads tid' = some old ∧ old.thread = roi'.thread := by
      intro tid' roi' hroi'
      rw [Function.update_apply] at hroi'
      split at hroi'
      · rename_i htid
        subst htid
        exact ⟨roi, hroi, by rw [← Option.some.inj hroi']⟩
      · exact ⟨roi', hroi', rfl⟩
    refine ⟨fun tid' roi' hroi' => ?_, fun tid' roi' hroi' => ?_, h.exited⟩
    · obtain ⟨old, hold, hthread⟩ := hentry tid' roi' hroi'
      rw [← hthread]
      exact h.hash tid' old hold
    · obtain ⟨old, hold, hthread⟩ := hentry tid' roi' hroi'
      show s.accelInit roi'.thread = true ∧ s.exited roi'.thread = false
      rw [← hthread]
      exact h.live tid' old hold
  | increment t a cell amount => exact ⟨h.hash, h.live, h.exited⟩
  | pollStart order => exact ⟨h.hash, h.live, h.exited⟩
  | pollEnd => exact ⟨h.hash, h.live, h.exited⟩
  | pollCheck => exact ⟨h.hash, h.live, h.exited⟩
  | stopHostProc => exact ⟨h.hash, h.live, h.exited⟩

theorem MonitorRun.registeredInv (h : MonitorRun hashID es s) : RegisteredInv hashID s := by
  induction h with
  | nil => exact ⟨fun _ _ h => by simp [MonitorState.initial] at h, fun _ _ h => by simp [MonitorState.initial] at h,
      fun _ h => by simp [MonitorState.initial] at h⟩
  | concat _ he ih => exact ih.next he

/-! ### What is in no record -/

/-- The counters logged last for a thread: those of its last record, and zeros before its first. -/
def lastCounters (t : ι) (log : List (ι × HostRecord n)) : Vector UInt64 n :=
  ((log.filter (·.1 = t)).getLast?.map (·.2.counterArray)).getD (Vector.replicate n 0)

theorem lastCounters_concat (t t' : ι) (log : List (ι × HostRecord n)) (record : HostRecord n) :
    lastCounters t (log ++ [(t', record)]) = if t' = t then record.counterArray else lastCounters t log := by
  rw [lastCounters, List.filter_append]
  by_cases h : t' = t <;> simp [h, lastCounters]

/-- What a thread counted in a cell since its last poll, one event later. -/
def unloggedStep (t : ι) (cell : Fin n) (acc : UInt64) : MonitorEvent ι n → UInt64
  | .increment t' .counterArray c amount => if t' = t ∧ c = cell then acc + amount else acc
  | .pollThread t' _ => if t' = t then 0 else acc
  | _ => acc

/-- What a thread counted in a cell since its last poll. -/
def unlogged (t : ι) (es : List (MonitorEvent ι n)) (cell : Fin n) : UInt64 := es.foldl (unloggedStep t cell) 0

@[simp] theorem unlogged_concat (t : ι) (es : List (MonitorEvent ι n)) (e : MonitorEvent ι n) (cell : Fin n) :
    unlogged t (es ++ [e]) cell = unloggedStep t cell (unlogged t es cell) e := by
  rw [unlogged, List.foldl_append]
  rfl

theorem counterArray_bump (a : ThreadArrays n) (c cell : Fin n) (amount : UInt64) (k : RuntimeArray) :
    (a.bump c amount k).counterArray[cell] =
      if k = .counterArray ∧ c = cell then a.counterArray[cell] + amount else a.counterArray[cell] := by
  cases k with
  | counterArray =>
    by_cases h : c = cell
    · subst h
      simp [ThreadArrays.bump]
    · have hne : c.val ≠ cell.val := fun hc => h (Fin.ext hc)
      simp [ThreadArrays.bump, h, Vector.getElem_set_ne _ _ hne]
  | loadRuntimeArray => simp [ThreadArrays.bump]
  | storeRuntimeArray => simp [ThreadArrays.bump]

/-- A thread's counters are the ones logged last and what it counted since its last poll. -/
theorem MonitorRun.counters_eq (h : MonitorRun hashID es s) (t : ι) (cell : Fin n) :
    (s.arrays t).counterArray[cell] = (lastCounters t s.log)[cell] + unlogged t es cell := by
  induction h with
  | nil => simp [MonitorState.initial, ThreadArrays.zero, lastCounters, unlogged]
  | @concat es s e h he ih =>
    rw [unlogged_concat]
    cases e with
    | increment t' a c amount =>
      show (Function.update s.arrays t' ((s.arrays t').bump c amount a) t).counterArray[cell] = _
      by_cases ht : t' = t
      · subst ht
        rw [Function.update_self, counterArray_bump, ih]
        cases a <;> by_cases hc : c = cell <;> simp [unloggedStep, hc, MonitorState.next, add_assoc]
      · rw [Function.update_of_ne (Ne.symm ht), ih]
        cases a <;> simp [unloggedStep, ht, MonitorState.next]
    | pollThread t' now =>
      obtain ⟨tid, rest, roi, -, -, hthread, hnext⟩ := next_pollThread hashID he
      rw [hnext, lastCounters_concat]
      by_cases ht : t' = t
      · subst ht
        simp [unloggedStep, MonitorState.record, hthread]
      · simp [unloggedStep, ht, ih]
    | registerThread t' now =>
      show ((s.registerThread hashID t' now).arrays t).counterArray[cell] =
        (lastCounters t (s.registerThread hashID t' now).log)[cell] + unlogged t es cell
      rw [MonitorState.registerThread]
      split <;> exact ih
    | unregisterThread t' => exact ih
    | pollStart order => exact ih
    | pollEnd => exact ih
    | pollCheck => exact ih
    | stopHostProc => exact ih

theorem MonitorRun.concat_inv {e : MonitorEvent ι n} (h : MonitorRun hashID (es ++ [e]) s) :
    ∃ s₀, MonitorRun hashID es s₀ ∧ e.Enabled s₀ ∧ s = s₀.next hashID e := by
  generalize hl : es ++ [e] = l at h
  cases h with
  | nil => simp at hl
  | @concat es' s₀ e' hrun he =>
    obtain ⟨rfl, heq⟩ := List.append_inj' hl rfl
    obtain rfl := List.singleton_inj.mp heq
    exact ⟨s₀, hrun, he, rfl⟩

theorem exited_next {e : MonitorEvent ι n} (t : ι) :
    (s.next hashID e).exited t = true ↔ s.exited t = true ∨ e = .unregisterThread t := by
  cases e with
  | unregisterThread t' =>
    show Function.update s.exited t' true t = true ↔ _
    by_cases ht : t = t'
    · subst ht
      simp
    · simp [Function.update_of_ne ht, Ne.symm ht]
  | registerThread t' now =>
    show (s.registerThread hashID t' now).exited t = true ↔ _
    rw [MonitorState.registerThread]
    split <;> simp
  | pollThread t' now =>
    show (s.pollThread now).exited t = true ↔ _
    unfold MonitorState.pollThread
    split
    · split <;> simp
    · simp
  | increment t' a c amount => simp [MonitorState.next]
  | pollStart order => simp [MonitorState.next]
  | pollEnd => simp [MonitorState.next]
  | pollCheck => simp [MonitorState.next]
  | stopHostProc => simp [MonitorState.next]

theorem MonitorRun.exists_unregister (h : MonitorRun hashID es s) {t : ι} (hex : s.exited t = true) :
    ∃ pre post, es = pre ++ .unregisterThread t :: post := by
  induction h with
  | nil => simp [MonitorState.initial] at hex
  | @concat es s e _ _ ih =>
    rcases (exited_next t).mp hex with hold | rfl
    · obtain ⟨pre, post, rfl⟩ := ih hold
      exact ⟨pre, post ++ [e], by simp⟩
    · exact ⟨es, [], rfl⟩

/-- After its exit a thread neither counts nor is polled. -/
theorem unlogged_of_unregister {pre post : List (MonitorEvent ι n)} {t : ι}
    (h : MonitorRun hashID (pre ++ .unregisterThread t :: post) s) :
    s.exited t = true ∧ ∀ cell, unlogged t (pre ++ .unregisterThread t :: post) cell = unlogged t pre cell := by
  induction post using List.reverseRecOn generalizing s with
  | nil =>
    obtain ⟨s₀, -, -, rfl⟩ := h.concat_inv
    exact ⟨(exited_next t).mpr (.inr rfl), fun cell => unlogged_concat t pre _ cell⟩
  | append_singleton post e ih =>
    rw [← List.cons_append, ← List.append_assoc] at h ⊢
    obtain ⟨s₀, hrun, he, rfl⟩ := h.concat_inv
    obtain ⟨hex, hsame⟩ := ih hrun
    refine ⟨(exited_next t).mpr (.inl hex), fun cell => ?_⟩
    rw [unlogged_concat, hsame]
    cases e with
    | increment t' a c amount =>
      have hne : t' ≠ t := by
        rintro rfl
        exact Bool.false_ne_true (he.2.symm.trans hex)
      cases a <;> simp [unloggedStep, hne]
    | pollThread t' now =>
      obtain ⟨tid, rest, roi, -, hroi, rfl⟩ := he
      have hne : roi.thread ≠ t := by
        rintro rfl
        exact Bool.false_ne_true ((hrun.registeredInv.live tid roi hroi).2.symm.trans hex)
      simp [unloggedStep, hne]
    | registerThread t' now => rfl
    | unregisterThread t' => rfl
    | pollStart order => rfl
    | pollEnd => rfl
    | pollCheck => rfl
    | stopHostProc => rfl

/-! ### The tail of a thread -/

/-- For every thread that registered, the counters logged last are its counters. -/
def TailLogged (s : MonitorState ι n) : Prop :=
  ∀ t, s.accelInit t = true → (s.arrays t).counterArray = lastCounters t s.log

/-- Nothing a thread counted is lost exactly when each thread is polled between its last increment and its exit, and
the threads that have not exited are polled after their last increment. -/
theorem tailLogged_iff (h : MonitorRun hashID es s) :
    TailLogged s ↔
      (∀ pre t post, es = pre ++ .unregisterThread t :: post → ∀ cell, unlogged t pre cell = 0) ∧
        ∀ t, s.accelInit t = true → s.exited t = false → ∀ cell, unlogged t es cell = 0 := by
  have hthread : ∀ t, (s.arrays t).counterArray = lastCounters t s.log ↔ ∀ cell, unlogged t es cell = 0 := by
    intro t
    constructor
    · intro heq cell
      have hcell := h.counters_eq t cell
      rw [heq] at hcell
      exact left_eq_add.mp hcell
    · intro hzero
      refine Vector.ext fun i hi => ?_
      have hcell := h.counters_eq t ⟨i, hi⟩
      rwa [hzero, add_zero] at hcell
  constructor
  · intro htail
    refine ⟨?_, fun t ht _ => (hthread t).mp (htail t ht)⟩
    rintro pre t post rfl cell
    obtain ⟨hex, hsame⟩ := unlogged_of_unregister h
    rw [← hsame]
    exact (hthread t).mp (htail t (h.registeredInv.exited t hex)) cell
  · rintro ⟨hexits, hlive⟩ t ht
    refine (hthread t).mpr fun cell => ?_
    cases hex : s.exited t with
    | false => exact hlive t ht hex cell
    | true =>
      obtain ⟨pre, post, rfl⟩ := h.exists_unregister hex
      rw [(unlogged_of_unregister h).2]
      exact hexits pre t post rfl cell

/-! ### A poll of one thread, and the end of the program -/

/-- A poll while one thread is registered. -/
def pollEvents (tid : UInt64) (t : ι) (now : UInt64) : List (MonitorEvent ι n) :=
  [.pollStart [tid], .pollThread t now, .pollEnd, .pollCheck]

theorem MonitorRun.pollEvents (h : MonitorRun hashID es s) (hphase : s.phase = .asleep)
    (hstop : s.hostPollStop = false) {tid : UInt64} {roi : RoiDescriptor ι}
    (hroi : s.registeredThreads tid = some roi) (hone : ∀ tid', (s.registeredThreads tid').isSome → tid' = tid)
    (now : UInt64) :
    MonitorRun hashID (es ++ ZRay.pollEvents tid roi.thread now)
      { s with
        registeredThreads := Function.update s.registeredThreads tid (some { roi with time0 := now })
        log := s.log ++ [(roi.thread, s.record tid roi now)] } := by
  have hstart := h.concat (e := .pollStart [tid]) ⟨hphase, List.nodup_singleton _, fun tid' =>
    ⟨fun hmem => by rw [List.mem_singleton.mp hmem, hroi]; rfl, fun hsome =>
      List.mem_singleton.mpr (hone tid' hsome)⟩⟩
  have hpoll := hstart.concat (e := .pollThread roi.thread now) ⟨tid, [], roi, rfl, hroi, rfl⟩
  have hend := hpoll.concat (e := .pollEnd) (by
    simp [MonitorEvent.Enabled, MonitorState.next, MonitorState.pollThread, hroi])
  have hcheck := hend.concat (e := .pollCheck) rfl
  have hevents : es ++ ZRay.pollEvents tid roi.thread now = es ++ [MonitorEvent.pollStart [tid]] ++
      [MonitorEvent.pollThread roi.thread now] ++ [MonitorEvent.pollEnd] ++ [MonitorEvent.pollCheck] := by
    simp [ZRay.pollEvents]
  rw [hevents]
  convert hcheck using 1
  simp [MonitorState.next, MonitorState.pollThread, hroi, hstop, hphase, MonitorState.record]

/-- Where all threads have one hash, no other is in the map. -/
theorem MonitorRun.only_hash {tid : UInt64} (h : MonitorRun (fun _ => tid) es s) (tid' : UInt64)
    (hsome : (s.registeredThreads tid').isSome) : tid' = tid := by
  obtain ⟨roi, hroi⟩ := Option.isSome_iff_exists.mp hsome
  exact (h.registeredInv.hash tid' roi hroi).symm

theorem MonitorRun.registeredThreads_eq_none (h : MonitorRun hashID es s) (hex : ∀ t, s.exited t = true)
    (tid : UInt64) : s.registeredThreads tid = none := by
  cases hroi : s.registeredThreads tid with
  | none => rfl
  | some roi =>
    have hlive := (h.registeredInv.live tid roi hroi).2
    exact absurd (hex roi.thread) (by simp [hlive])

/-- The stop flag is raised between two polls, and the last poll finds no thread registered. -/
def stopEvents : List (MonitorEvent ι n) := [.stopHostProc, .pollStart [], .pollEnd, .pollCheck]

/-- The last poll logs nothing of threads that have exited. -/
theorem MonitorRun.stopEvents (h : MonitorRun hashID es s) (hphase : s.phase = .asleep)
    (hex : ∀ t, s.exited t = true) :
    MonitorRun hashID (es ++ ZRay.stopEvents) { s with phase := .ended, hostPollStop := true } := by
  have hstop := h.concat (e := .stopHostProc) trivial
  have hstart := hstop.concat (e := .pollStart []) ⟨hphase, List.nodup_nil, fun tid => by
    simp [MonitorState.next, h.registeredThreads_eq_none hex tid]⟩
  have hend := hstart.concat (e := .pollEnd) rfl
  have hcheck := hend.concat (e := .pollCheck) rfl
  have hevents : es ++ ZRay.stopEvents = es ++ [MonitorEvent.stopHostProc] ++ [MonitorEvent.pollStart []] ++
      [MonitorEvent.pollEnd] ++ [MonitorEvent.pollCheck] := by
    simp [ZRay.stopEvents]
  rw [hevents]
  exact hcheck

end

/-! ### A program of one thread -/

def mainHash : Unit → UInt64 := fun _ => 7

def mainCell : Fin 1 := ⟨0, Nat.one_pos⟩

/-- The main thread enters a region, counts a block and exits. -/
def unpolledMain : List (MonitorEvent Unit 1) :=
  [.registerThread () 0, .increment () .counterArray mainCell 1, .unregisterThread ()]

/-- The same, with a poll before the exit. -/
def polledMain : List (MonitorEvent Unit 1) :=
  [.registerThread () 0, .increment () .counterArray mainCell 1, .pollStart [7], .pollThread () 5,
    .pollEnd, .pollCheck, .unregisterThread ()]

def stateAfter (es : List (MonitorEvent Unit 1)) :
    MonitorState Unit 1 := es.foldl (MonitorState.next mainHash) .initial

theorem countedMain_run :
    MonitorRun mainHash [.registerThread () 0, .increment () .counterArray mainCell 1]
      (stateAfter [.registerThread () 0, .increment () .counterArray mainCell 1]) := by
  have hregister : MonitorRun mainHash [.registerThread () 0] (stateAfter [.registerThread () 0]) :=
    MonitorRun.nil.concat ⟨rfl, .inr fun _ h => by cases h⟩
  exact hregister.concat ⟨rfl, rfl⟩

theorem unpolledMain_run : MonitorRun mainHash unpolledMain (stateAfter unpolledMain) :=
  countedMain_run.concat ⟨rfl, rfl, fun _ h => by cases h⟩

theorem polledMain_run : ∃ s, MonitorRun mainHash polledMain s ∧ s.phase = .asleep ∧ s.exited () = true := by
  have hroi : (stateAfter [.registerThread () 0, .increment () .counterArray mainCell 1]).registeredThreads 7 =
      some ⟨(), 0⟩ := rfl
  have hpoll := countedMain_run.pollEvents rfl rfl hroi countedMain_run.only_hash 5
  exact ⟨_, hpoll.concat ⟨rfl, rfl, fun _ h => by cases h⟩, rfl, rfl⟩

/-- Polled between the increment and the exit, the main thread loses nothing. -/
theorem tailLogged_of_poll_before_exit :
    ∃ s, MonitorRun mainHash (polledMain ++ stopEvents) s ∧ s.phase = .ended ∧ TailLogged s := by
  obtain ⟨s, hmain, hphase, hex⟩ := polledMain_run
  have hrun := hmain.stopEvents hphase fun _ => hex
  refine ⟨_, hrun, rfl, (tailLogged_iff hrun).mpr ⟨?_, fun t _ hlive => absurd hex (by simpa using hlive)⟩⟩
  · intro pre t post hsplit cell
    have hget : (polledMain ++ stopEvents)[pre.length]? = some (MonitorEvent.unregisterThread ()) := by
      rw [hsplit]; simp
    have hpre : pre = (polledMain ++ stopEvents).take pre.length := by rw [hsplit]; simp
    have hexits : ∀ k < 11, (polledMain ++ stopEvents)[k]? = some (MonitorEvent.unregisterThread ()) →
        unlogged () ((polledMain ++ stopEvents).take k) mainCell = 0 := by decide
    obtain rfl : cell = mainCell := Subsingleton.elim _ _
    have hlt : pre.length < 11 := by
      have hlen := congrArg List.length hsplit
      simp [polledMain, stopEvents] at hlen
      omega
    rw [hpre]
    exact hexits pre.length hlt hget

/-- What the main thread counted is in no record: it has unregistered when the stop flag is raised. -/
theorem not_tailLogged_of_exit_before_poll :
    ∃ s, MonitorRun mainHash (unpolledMain ++ stopEvents) s ∧ s.phase = .ended ∧ ¬ TailLogged s := by
  have hrun := unpolledMain_run.stopEvents rfl fun _ => rfl
  refine ⟨_, hrun, rfl, fun htail => ?_⟩
  have hcounts := congrArg (fun v => v[mainCell]) (htail () rfl)
  exact absurd hcounts (by decide)

end ZRay
