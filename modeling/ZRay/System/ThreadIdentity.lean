import Mathlib
import ZRay.Runtime.HostMonitor

/-!
# Threads in the host log

The monitor forgets a thread when it unregisters; `post_process` keeps the counters logged last for an id hash to the
end of the log.  The records of one hash are those of one thread after another (`OneAfterAnother`), so the differences
of a thread add up to its counters less the counters it inherited: those logged last for the thread that had its hash
before.
-/

namespace ZRay

open ByteStream PostProcess

variable {ι : Type*} {hashID : ι → UInt64} {n : Nat}

/-! ### One thread after another -/

/-- The last record of an id hash, with its thread. -/
def lastOfHash (tid : UInt64) (log : List (ι × HostRecord n)) : Option (ι × HostRecord n) :=
  (log.filter (·.2.tid = tid)).getLast?

theorem lastLogged_eq (tid : UInt64) (log : List (ι × HostRecord n)) :
    lastLogged tid (log.map Prod.snd) = (lastOfHash tid log).map (·.2.counterArray) := by
  rw [lastLogged, threadRecords, List.filter_map, List.getLast?_map, Option.map_map, lastOfHash]
  rfl

/-- `t` has a record. -/
def Logged (t : ι) (log : List (ι × HostRecord n)) : Prop := ∃ record, (t, record) ∈ log

/-- The records of a thread have its hash, and between them no other thread has a record of that hash. -/
inductive OneAfterAnother (hashID : ι → UInt64) : List (ι × HostRecord n) → Prop
  | nil : OneAfterAnother hashID []
  | concat {log : List (ι × HostRecord n)} {t : ι} {record : HostRecord n} : OneAfterAnother hashID log →
    record.tid = hashID t → (Logged t log → ∃ last, lastOfHash (hashID t) log = some (t, last)) →
    OneAfterAnother hashID (log ++ [(t, record)])

theorem lastOfHash_concat (tid : UInt64) (log : List (ι × HostRecord n)) (t : ι) (record : HostRecord n) :
    lastOfHash tid (log ++ [(t, record)]) = if record.tid = tid then some (t, record) else lastOfHash tid log := by
  rw [lastOfHash, List.filter_append]
  by_cases h : record.tid = tid <;> simp [h, lastOfHash]

theorem logged_concat {t t' : ι} {log : List (ι × HostRecord n)} {record : HostRecord n} :
    Logged t (log ++ [(t', record)]) ↔ Logged t log ∨ t = t' := by
  simp only [Logged, List.mem_append, List.mem_singleton, Prod.mk.injEq]
  constructor
  · rintro ⟨r, hr | ⟨rfl, rfl⟩⟩
    · exact .inl ⟨r, hr⟩
    · exact .inr rfl
  · rintro (⟨r, hr⟩ | rfl)
    · exact ⟨r, .inl hr⟩
    · exact ⟨record, .inr ⟨rfl, rfl⟩⟩

variable [DecidableEq ι]

/-- What a run keeps of the log: a thread with a record has registered, and while it is in the map the last record of
its hash is its own. -/
structure LogInv (hashID : ι → UInt64) (s : MonitorState ι n) : Prop where
  order : OneAfterAnother hashID s.log
  accelInit : ∀ t, Logged t s.log → s.accelInit t = true
  current : ∀ tid roi, s.registeredThreads tid = some roi → Logged roi.thread s.log →
    ∃ last, lastOfHash tid s.log = some (roi.thread, last)

theorem LogInv.next {s : MonitorState ι n} (h : LogInv hashID s) (hreg : RegisteredInv hashID s)
    {e : MonitorEvent ι n} (he : e.Enabled s) : LogInv hashID (s.next hashID e) := by
  cases e with
  | registerThread t now =>
    show LogInv hashID (s.registerThread hashID t now)
    unfold MonitorState.registerThread
    by_cases hinit : s.accelInit t = true
    · rwa [if_pos hinit]
    · rw [if_neg hinit]
      have hnew : ¬ Logged t s.log := fun hlog => hinit (h.accelInit t hlog)
      refine ⟨h.order, fun t' ht' => ?_, fun tid roi hroi hlog => ?_⟩
      · show Function.update s.accelInit t true t' = true
        rw [Function.update_apply]
        split
        · rfl
        · exact h.accelInit t' ht'
      · have hold : s.registeredThreads tid = some roi := by
          dsimp only at hroi
          split at hroi
          · rw [Function.update_apply] at hroi
            split at hroi
            · obtain rfl := Option.some.inj hroi
              exact absurd hlog hnew
            · exact hroi
          · exact hroi
        exact h.current tid roi hold hlog
  | unregisterThread t =>
    refine ⟨h.order, h.accelInit, fun tid roi hroi hlog => h.current tid roi ?_ hlog⟩
    have hentry : Function.update s.registeredThreads (hashID t) none tid = some roi := hroi
    rw [Function.update_apply] at hentry
    split at hentry
    · exact absurd hentry (by simp)
    · exact hentry
  | pollThread t now =>
    obtain ⟨tid, rest, roi, -, hroi, rfl, hnext⟩ := next_pollThread hashID he
    have hhash := hreg.hash tid roi hroi
    have htid : (s.record tid roi now).tid = tid := rfl
    rw [hnext]
    refine ⟨h.order.concat (by rw [htid, hhash]) fun hlog => by rw [hhash]; exact h.current tid roi hroi hlog,
      fun t' ht' => ?_, fun tid' roi' hroi' hlog' => ?_⟩
    · rcases logged_concat.mp ht' with hold | rfl
      · exact h.accelInit t' hold
      · exact (hreg.live tid roi hroi).1
    · have hentry : Function.update s.registeredThreads tid (some { roi with time0 := now }) tid' = some roi' := hroi'
      show ∃ last, lastOfHash tid' (s.log ++ [(roi.thread, s.record tid roi now)]) = some (roi'.thread, last)
      rw [lastOfHash_concat, htid]
      rw [Function.update_apply] at hentry
      by_cases hsame : tid' = tid
      · subst hsame
        rw [if_pos rfl] at hentry ⊢
        exact ⟨_, by rw [← Option.some.inj hentry]⟩
      · rw [if_neg hsame] at hentry
        rw [if_neg (Ne.symm hsame)]
        have hne : roi'.thread ≠ roi.thread := by
          intro hthread
          exact hsame (by rw [← hreg.hash tid' roi' hentry, hthread, hhash])
        rcases logged_concat.mp hlog' with hold | hthread
        · exact h.current tid' roi' hentry hold
        · exact absurd hthread hne
  | increment t a cell amount => exact ⟨h.order, h.accelInit, h.current⟩
  | pollStart order => exact ⟨h.order, h.accelInit, h.current⟩
  | pollEnd => exact ⟨h.order, h.accelInit, h.current⟩
  | pollCheck => exact ⟨h.order, h.accelInit, h.current⟩
  | stopHostProc => exact ⟨h.order, h.accelInit, h.current⟩

theorem MonitorRun.logInv {es : List (MonitorEvent ι n)} {s : MonitorState ι n} (h : MonitorRun hashID es s) :
    LogInv hashID s := by
  induction h with
  | nil =>
    refine ⟨.nil, fun t ht => ?_, fun tid roi hroi => ?_⟩
    · obtain ⟨record, hrecord⟩ := ht
      exact absurd hrecord (by simp [MonitorState.initial])
    · exact absurd hroi (by simp [MonitorState.initial])
  | concat hrun he ih => exact ih.next hrun.registeredInv he

/-! ### The differences of a thread -/

/-- The counters logged last under the hash of a thread, before its own first record. -/
def inherited (hashID : ι → UInt64) (t : ι) (log : List (ι × HostRecord n)) : Option (Vector UInt64 n) :=
  lastLogged (hashID t) ((log.takeWhile (·.1 ≠ t)).map Prod.snd)

/-- The sum of the differences `post_process` hands on in the epochs of a thread. -/
def deltaSum (t : ι) (log : List (ι × HostRecord n)) (epochs : List (Epoch n)) (cell : Fin n) : UInt64 :=
  (((log.zip epochs).filter (·.1.1 = t)).map fun e => e.2.counterArray.get cell).sum

theorem deltaSum_concat {log : List (ι × HostRecord n)} {epochs : List (Epoch n)}
    (hlen : epochs.length = log.length) (t t' : ι) (record : HostRecord n) (epoch : Epoch n) (cell : Fin n) :
    deltaSum t (log ++ [(t', record)]) (epochs ++ [epoch]) cell =
      deltaSum t log epochs cell + if t' = t then epoch.counterArray.get cell else 0 := by
  rw [deltaSum, List.zip_append hlen.symm, List.filter_append, List.map_append, List.sum_append, deltaSum]
  by_cases h : t' = t <;> simp [h]

theorem takeWhile_of_not_logged {t : ι} {log : List (ι × HostRecord n)} (h : ¬ Logged t log) :
    log.takeWhile (·.1 ≠ t) = log := by
  rw [List.takeWhile_eq_self_iff]
  intro e he
  have hne : e.1 ≠ t := by
    rintro rfl
    exact h ⟨e.2, he⟩
  simpa using hne

theorem inherited_concat_of_logged {t : ι} {log : List (ι × HostRecord n)} (h : Logged t log)
    (e : ι × HostRecord n) : inherited hashID t (log ++ [e]) = inherited hashID t log := by
  have hstop : (log.takeWhile (·.1 ≠ t)).length ≠ log.length := by
    intro hlen
    have hall := (List.takeWhile_prefix fun e : ι × HostRecord n => decide (e.1 ≠ t)).eq_of_length hlen
    rw [List.takeWhile_eq_self_iff] at hall
    obtain ⟨record, hmem⟩ := h
    simpa using hall _ hmem
  rw [inherited, List.takeWhile_append, if_neg hstop, inherited]

/-- The last record of a thread's hash, when it is the thread's, is the last record of the thread. -/
theorem lastCounters_of_lastOfHash {t : ι} {log : List (ι × HostRecord n)} (h : OneAfterAnother hashID log)
    {last : HostRecord n} (hlast : lastOfHash (hashID t) log = some (t, last)) :
    lastCounters t log = last.counterArray := by
  induction h with
  | nil => simp [lastOfHash] at hlast
  | @concat log t' record _ htid _ ih =>
    rw [lastOfHash_concat] at hlast
    rw [lastCounters_concat]
    by_cases hhash : record.tid = hashID t
    · rw [if_pos hhash, Option.some.injEq, Prod.mk.injEq] at hlast
      rw [if_pos hlast.1, hlast.2]
    · rw [if_neg hhash] at hlast
      have hne : t' ≠ t := by
        rintro rfl
        exact hhash htid
      rw [if_neg hne]
      exact ih hlast

theorem lastCounters_of_not_logged {t : ι} {log : List (ι × HostRecord n)} (h : ¬ Logged t log) :
    lastCounters t log = Vector.replicate n 0 := by
  have hnone : log.filter (·.1 = t) = [] := by
    rw [List.filter_eq_nil_iff]
    intro e he
    have hne : e.1 ≠ t := by
      rintro rfl
      exact h ⟨e.2, he⟩
    simpa using hne
  rw [lastCounters, hnone]
  rfl

/-! ### What `post_process` makes of it -/

section

variable {inp : HostInput} {log : List (ι × HostRecord inp.arraySize)}

theorem getElem_counterDelta {n : Nat} (a : Vector UInt64 n) (logged : Option (Vector UInt64 n)) (cell : Fin n) :
    (counterDelta a logged).get cell + (logged.getD (Vector.replicate n 0)).get cell = a.get cell := by
  cases logged with
  | none => simp [counterDelta]
  | some previous => simp [counterDelta, Vector.get_eq_getElem]

/-- The differences of a thread with a record, and what it inherited, are its counters. -/
theorem deltaSum_add_inherited (h : OneAfterAnother hashID log) {st : HostState inp.arraySize}
    (hst : main inp (log.map Prod.snd) = .ok st) :
    st.epochs.length = log.length ∧
      ∀ t cell, (Logged t log → deltaSum t log st.epochs cell +
          ((inherited hashID t log).getD (Vector.replicate _ 0)).get cell = (lastCounters t log).get cell) ∧
        (¬ Logged t log → deltaSum t log st.epochs cell = 0) := by
  induction h generalizing st with
  | nil =>
    obtain rfl : st = ⟨fun _ => none, []⟩ := (Except.ok.inj hst).symm
    refine ⟨rfl, fun t cell => ⟨fun hlog => ?_, fun _ => rfl⟩⟩
    obtain ⟨record, hmem⟩ := hlog
    simp at hmem
  | @concat log t₀ record horder htid hcurrent ih =>
    rw [List.map_append, List.map_singleton] at hst
    obtain ⟨st₀, hst₀, hstep⟩ := main_concat_eq_ok_iff.mp hst
    obtain ⟨-, lists, -, rfl⟩ := mainStep_eq_ok_iff.mp hstep
    obtain ⟨hlen, hsum⟩ := ih hst₀
    have hlogs : st₀.counterLogs record.tid = (lastOfHash (hashID t₀) log).map (·.2.counterArray) := by
      rw [counterLogs_main hst₀, lastLogged_eq, htid]
    refine ⟨by simp [hlen], fun t cell => ?_⟩
    rw [deltaSum_concat hlen, lastCounters_concat, logged_concat]
    by_cases ht : t₀ = t
    · subst ht
      simp only [if_pos, or_true, not_true_eq_false, false_implies, and_true, forall_const]
      rw [hlogs]
      have hdelta := getElem_counterDelta record.counterArray
        ((lastOfHash (hashID t₀) log).map (·.2.counterArray)) cell
      by_cases hlog : Logged t₀ log
      · obtain ⟨last, hlast⟩ := hcurrent hlog
        have hold := (hsum t₀ cell).1 hlog
        rw [lastCounters_of_lastOfHash horder hlast] at hold
        rw [hlast] at hdelta ⊢
        rw [inherited_concat_of_logged hlog, add_right_comm, hold, add_comm]
        exact hdelta
      · have hzero := (hsum t₀ cell).2 hlog
        have hinherited : inherited hashID t₀ (log ++ [(t₀, record)]) =
            (lastOfHash (hashID t₀) log).map (·.2.counterArray) := by
          have htake : (log ++ [(t₀, record)]).takeWhile (·.1 ≠ t₀) = log := by
            rw [List.takeWhile_append, takeWhile_of_not_logged hlog]
            simp
          rw [inherited, htake, lastLogged_eq]
        rw [hzero, zero_add, hinherited]
        exact hdelta
    · simp only [if_neg ht, add_zero, Ne.symm ht, or_false]
      refine ⟨fun hlog => ?_, (hsum t cell).2⟩
      rw [inherited_concat_of_logged hlog]
      exact (hsum t cell).1 hlog

/-- The whole log is read, and the differences of each registered thread add up to its counters logged last. -/
def ThreadsApart (inp : HostInput) (s : MonitorState ι inp.arraySize) : Prop :=
  ∃ st, main inp (s.log.map Prod.snd) = .ok st ∧
    ∀ t, s.accelInit t = true → ∀ cell, deltaSum t s.log st.epochs cell = (lastCounters t s.log).get cell

/-- `post_process` keeps the threads of a run apart exactly when no counter jumps by `2 ^ 63` or more between two
records of a hash and a thread that is logged under the hash of an earlier one inherits zeros. -/
theorem threadsApart_iff {es : List LogEntry} {stream : ByteStream} {s : MonitorState ι inp.arraySize}
    {events : List (MonitorEvent ι inp.arraySize)}
    (hread : readRecords inp.maxSize (ofBytes inp.regionLog) inp.vars = some (es, stream))
    (h : MonitorRun hashID events s) :
    ThreadsApart inp s ↔
      (∀ tid, (threadRecords tid (s.log.map Prod.snd)).IsChain Advances) ∧
        ∀ t, Logged t s.log → ∀ c ∈ inherited hashID t s.log, c = Vector.replicate _ 0 := by
  have hinv := h.logInv
  constructor
  · rintro ⟨st, hst, hsums⟩
    refine ⟨(exists_main_iff hread).mp ⟨st, hst⟩, fun t hlog c hc => ?_⟩
    have hsum := (deltaSum_add_inherited hinv.order hst).2 t
    refine Vector.ext fun i hi => ?_
    have hcell := (hsum ⟨i, hi⟩).1 hlog
    rw [hsums t (hinv.accelInit t hlog) ⟨i, hi⟩, Option.mem_def.mp hc] at hcell
    simpa [Vector.get_eq_getElem] using hcell
  · rintro ⟨hchain, hzero⟩
    obtain ⟨st, hst⟩ := (exists_main_iff hread).mpr hchain
    have hsum := (deltaSum_add_inherited hinv.order hst).2
    refine ⟨st, hst, fun t _ cell => ?_⟩
    by_cases hlog : Logged t s.log
    · have hcell := (hsum t cell).1 hlog
      have hnothing : ((inherited hashID t s.log).getD (Vector.replicate _ 0)) = Vector.replicate _ 0 := by
        cases hc : inherited hashID t s.log with
        | none => rfl
        | some c => exact hzero t hlog c hc
      rw [hnothing] at hcell
      simpa using hcell
    · rw [(hsum t cell).2 hlog, lastCounters_of_not_logged hlog]
      simp

end

/-! ### Two threads of one hash -/

/-- Arrays of one cell, and an empty region log. -/
def oneCell : HostInput where
  maxSize := 0
  regionLog := writtenLog ([] : List (CounterEvent × LogRecord 0))
  vars := clearedVars
  counterWidth := 1
  roiCount := 1

def onlyCell : Fin oneCell.arraySize := ⟨0, by decide⟩

/-- A thread counts `a`, is polled and exits; a later one with its hash counts `b` and is polled. -/
def reusedHash (a b : UInt64) : List (MonitorEvent Bool oneCell.arraySize) :=
  [.registerThread false 0] ++ [.increment false .counterArray onlyCell a] ++ pollEvents 7 false 5 ++
    [.unregisterThread false] ++ [.registerThread true 6] ++ [.increment true .counterArray onlyCell b] ++
    pollEvents 7 true 9

def countedRecord (a timeDelta : UInt64) : HostRecord oneCell.arraySize :=
  ⟨7, (ThreadArrays.zero.bump onlyCell a .counterArray).counterArray, timeDelta, Vector.replicate _ 0,
    Vector.replicate _ 0⟩

theorem reusedHash_run (a b : UInt64) : ∃ s, MonitorRun (fun _ => 7) (reusedHash a b) s ∧
    s.log = [(false, countedRecord a 5), (true, countedRecord b 3)] := by
  have hnil : MonitorRun (fun _ => 7) ([] : List (MonitorEvent Bool oneCell.arraySize)) .initial := .nil
  have hregister := hnil.concat (e := .registerThread false 0) ⟨rfl, .inr fun _ h => by cases h⟩
  have hcount := hregister.concat (e := .increment false .counterArray onlyCell a) ⟨rfl, rfl⟩
  have hpoll := hcount.pollEvents rfl rfl rfl hcount.only_hash 5
  have hexit := hpoll.concat (e := .unregisterThread false) ⟨rfl, rfl, fun _ h => by cases h⟩
  have hreuse := hexit.concat (e := .registerThread true 6) ⟨rfl, .inr fun _ h => by cases h⟩
  have hcount' := hreuse.concat (e := .increment true .counterArray onlyCell b) ⟨rfl, rfl⟩
  have hpoll' := hcount'.pollEvents rfl rfl rfl hcount'.only_hash 9
  exact ⟨_, hpoll', rfl⟩

theorem readRecords_oneCell :
    readRecords oneCell.maxSize (ofBytes oneCell.regionLog) oneCell.vars = some ([], ⟨[], true⟩) :=
  readRecords_writtenLog [] clearedVars

/-- Counters that decrease between two records of a hash end `post_process`. -/
theorem not_exists_main_decrease : ¬ ∃ st, main oneCell [countedRecord 1 5, countedRecord 0 3] = .ok st := by
  rw [exists_main_iff readRecords_oneCell]
  intro hchain
  have hadvance := List.isChain_pair.mp (hchain 7) 0 (by decide)
  exact absurd hadvance (by decide)

/-- A thread that counted nothing leaves nothing to inherit. -/
theorem threadsApart_of_idle_predecessor :
    ∃ s, MonitorRun (fun _ => 7) (reusedHash 0 1) s ∧ ThreadsApart oneCell s := by
  obtain ⟨s, hrun, hlog⟩ := reusedHash_run 0 1
  refine ⟨s, hrun, (threadsApart_iff readRecords_oneCell hrun).mpr ⟨fun tid => ?_, ?_⟩⟩
  · rw [hlog]
    by_cases htid : tid = 7
    · subst htid
      exact List.isChain_pair.mpr (by decide)
    · simp [threadRecords, countedRecord, Ne.symm htid]
  · rintro t - c hc
    rw [hlog] at hc
    cases t with
    | false =>
      have hnone : inherited (fun _ => 7) false [(false, countedRecord 0 5), (true, countedRecord 1 3)] = none := by
        decide
      rw [hnone] at hc
      exact absurd hc (by simp)
    | true =>
      have hzero : inherited (fun _ => 7) true [(false, countedRecord 0 5), (true, countedRecord 1 3)] =
          some (Vector.replicate _ 0) := by decide
      rw [hzero, Option.mem_some_iff] at hc
      exact hc.symm

/-- The first thread counted one block, the second none: their difference is negative, and `post_process` stops. -/
theorem not_threadsApart_of_reused_hash :
    ∃ s, MonitorRun (fun _ => 7) (reusedHash 1 0) s ∧
      main oneCell (s.log.map Prod.snd) = .error .counterOverflow ∧ ¬ ThreadsApart oneCell s := by
  obtain ⟨s, hrun, hlog⟩ := reusedHash_run 1 0
  have hstop : ¬ ∃ st, main oneCell (s.log.map Prod.snd) = .ok st := by
    rw [hlog]
    exact not_exists_main_decrease
  refine ⟨s, hrun, ?_, ?_⟩
  · cases hmain : main oneCell (s.log.map Prod.snd) with
    | ok st => exact absurd ⟨st, hmain⟩ hstop
    | error stop => rw [main_eq_error readRecords_oneCell hmain]
  · rintro ⟨st, hst, -⟩
    exact hstop ⟨st, hst⟩

end ZRay
