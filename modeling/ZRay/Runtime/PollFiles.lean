import Mathlib
import ZRay.Log.HostFile
import ZRay.Runtime.HostMonitor

/-!
# The files of the poll thread

The poll thread appends to `zray_host_log.bin`, and puts the header in front of the first record of the process.
Beside each record it writes a row of `zray_host_poll.csv`, which it truncates at the first record of the process.
What a process logs in an empty directory is one header and its records (`ProcessRun.filesInv`), and the time
differences of a thread that stays registered add up to the time from its registration to its last poll.
-/

namespace ZRay

open ByteStream PostProcess

/-! ### The two files -/

/-- What the poll thread writes to `zray_host_log.bin` at a time. -/
inductive LogChunk where
  | header (counterWidth roiCount : UInt64)
  | record (n : Nat) (r : HostRecord n)

def LogChunk.bytes : LogChunk → List UInt8
  | .header counterWidth roiCount => hostHeader counterWidth roiCount
  | .record _ r => r.encode

/-- A row of `zray_host_poll.csv`. -/
structure SidecarRow where
  record : UInt64
  threadHash : UInt64
  pollTime : UInt64
  registered : UInt64
  deriving DecidableEq, Repr

inductive SidecarLine where
  | columns
  | row (r : SidecarRow)
  deriving DecidableEq, Repr

/-- The files in the working directory, and the variables of the process that guard them. -/
structure HostFiles where
  hostInit : Bool
  sidecarStarted : Bool
  record : UInt64
  logfile : List LogChunk
  sidecar : List SidecarLine

namespace HostFiles

/-- A directory without the files. -/
def empty : HostFiles := ⟨false, false, 0, [], []⟩

/-- A process starts: the files are as they were left. -/
def restart (f : HostFiles) : HostFiles := { f with hostInit := false, sidecarStarted := false, record := 0 }

/-- The body of the loop that writes what was polled of a thread; `time0` is the time of its poll before. -/
def writeRecord (counterWidth roiCount : UInt64) (f : HostFiles) {n : Nat} (r : HostRecord n)
    (pollTime time0 : UInt64) :
    HostFiles where
  hostInit := true
  sidecarStarted := true
  record := f.record + 1
  logfile := f.logfile ++ (if f.hostInit then [] else [.header counterWidth roiCount]) ++ [.record n r]
  sidecar := (if f.sidecarStarted then f.sidecar else [.columns]) ++ [.row ⟨f.record, r.tid, pollTime, time0⟩]

/-- The bytes of `zray_host_log.bin`. -/
def logBytes (f : HostFiles) : List UInt8 := f.logfile.flatMap LogChunk.bytes

/-- The rows of `zray_host_poll.csv`. -/
def rows (f : HostFiles) : List SidecarRow :=
  f.sidecar.filterMap fun line =>
    match line with
    | .columns => none
    | .row r => some r

end HostFiles

/-! ### A process -/

section

variable {ι : Type*} [DecidableEq ι] (hashID : ι → UInt64) (counterWidth roiCount : UInt64)

/-- The size of the arrays that are polled. -/
abbrev polledSize : Nat := (counterWidth * roiCount).toNat

/-- What a step of the monitor does to the files.  The source reads the arrays of all threads before it writes the
first record, all of it under one mutex. -/
def HostFiles.next (s : MonitorState ι (polledSize counterWidth roiCount)) (f : HostFiles) :
    MonitorEvent ι (polledSize counterWidth roiCount) → HostFiles
  | .pollThread _ now =>
    match s.phase with
    | .reading (tid :: _) =>
      match s.registeredThreads tid with
      | some roi => f.writeRecord counterWidth roiCount (s.record tid roi now) now roi.time0
      | none => f
    | _ => f
  | _ => f

/-- A process, started where the given files are: the events of its monitor, and the files after them. -/
inductive ProcessRun (f₀ : HostFiles) : List (MonitorEvent ι (polledSize counterWidth roiCount)) →
    MonitorState ι (polledSize counterWidth roiCount) → HostFiles → Prop
  | nil : ProcessRun f₀ [] .initial f₀.restart
  | concat {es : List (MonitorEvent ι (polledSize counterWidth roiCount))}
    {s : MonitorState ι (polledSize counterWidth roiCount)} {f : HostFiles}
    {e : MonitorEvent ι (polledSize counterWidth roiCount)} :
    ProcessRun f₀ es s f → e.Enabled s →
      ProcessRun f₀ (es ++ [e]) (s.next hashID e) (f.next counterWidth roiCount s e)

variable {hashID counterWidth roiCount} {f₀ f : HostFiles}
  {es : List (MonitorEvent ι (polledSize counterWidth roiCount))}
  {s : MonitorState ι (polledSize counterWidth roiCount)}

theorem ProcessRun.monitorRun (h : ProcessRun hashID counterWidth roiCount f₀ es s f) : MonitorRun hashID es s := by
  induction h with
  | nil => exact .nil
  | concat _ he ih => exact ih.concat he

/-- Every run of the monitor is one of a process. -/
theorem MonitorRun.exists_process (h : MonitorRun hashID es s) (f₀ : HostFiles) :
    ∃ f, ProcessRun hashID counterWidth roiCount f₀ es s f := by
  induction h with
  | nil => exact ⟨_, .nil⟩
  | concat _ he ih =>
    obtain ⟨f, hf⟩ := ih
    exact ⟨_, hf.concat he⟩

end

/-! ### What a process leaves in the files -/

/-- The pieces a process writes to the log. -/
def logChunks (counterWidth roiCount : UInt64) {n : Nat} : List (HostRecord n) → List LogChunk
  | [] => []
  | r :: records => .header counterWidth roiCount :: (r :: records).map (.record n)

/-- Row `k` describes a record: it has its number and its thread id, and its times differ by the time difference. -/
structure SidecarRow.Describes {n : Nat} (k : Nat) (row : SidecarRow) (r : HostRecord n) : Prop where
  record : row.record = UInt64.ofNat k
  threadHash : row.threadHash = r.tid
  timeDelta : row.pollTime - row.registered = r.timeDelta

/-- There is a row for each record, in order, and it describes it. -/
structure RowsDescribe {n : Nat} (rows : List SidecarRow) (records : List (HostRecord n)) : Prop where
  length : rows.length = records.length
  describes : ∀ (k : Nat) (row : SidecarRow) (r : HostRecord n), rows[k]? = some row → records[k]? = some r →
    row.Describes k r

/-- The sidecar of a process: without a record the lines that were there, else the head and its rows. -/
def sidecarLines (old : List SidecarLine) : List SidecarRow → List SidecarLine
  | [] => old
  | row :: rows => .columns :: (row :: rows).map .row

section

variable {n : Nat} {counterWidth roiCount : UInt64}

theorem logChunks_concat (records : List (HostRecord n)) (r : HostRecord n) :
    logChunks counterWidth roiCount (records ++ [r]) =
      logChunks counterWidth roiCount records ++
        (if records.isEmpty then [.header counterWidth roiCount] else []) ++ [.record n r] := by
  cases records <;> simp [logChunks]

theorem sidecarLines_concat (old : List SidecarLine) (rows : List SidecarRow) (row : SidecarRow) :
    sidecarLines old (rows ++ [row]) =
      (if rows.isEmpty then [.columns] else sidecarLines old rows) ++ [.row row] := by
  cases rows <;> simp [sidecarLines]

theorem flatMap_logChunks {records : List (HostRecord n)} (h : records ≠ []) :
    (logChunks counterWidth roiCount records).flatMap LogChunk.bytes =
      hostHeader counterWidth roiCount ++ records.flatMap HostRecord.encode := by
  cases records with
  | nil => exact absurd rfl h
  | cons r records =>
    rw [logChunks, List.flatMap_cons, List.flatMap_map]
    rfl

theorem RowsDescribe.concat {rows : List SidecarRow} {records : List (HostRecord n)} (h : RowsDescribe rows records)
    {row : SidecarRow} {r : HostRecord n} (hrow : row.Describes records.length r) :
    RowsDescribe (rows ++ [row]) (records ++ [r]) where
  length := by
    rw [List.length_append, List.length_append, h.length]
    rfl
  describes := by
    intro k row' r' hk hk'
    rcases Nat.lt_trichotomy k records.length with hlt | rfl | hgt
    · rw [List.getElem?_append_left (by rw [h.length]; exact hlt)] at hk
      rw [List.getElem?_append_left hlt] at hk'
      exact h.describes k row' r' hk hk'
    · rw [← h.length, List.getElem?_concat_length] at hk
      rw [List.getElem?_concat_length] at hk'
      obtain rfl := Option.some.inj hk
      obtain rfl := Option.some.inj hk'
      exact hrow
    · rw [List.getElem?_eq_none (by rw [List.length_append, List.length_singleton]; omega)] at hk'
      exact absurd hk' (by simp)

end

section

variable {ι : Type*} {hashID : ι → UInt64} {counterWidth roiCount : UInt64} {f₀ f : HostFiles}
  {es : List (MonitorEvent ι (polledSize counterWidth roiCount))}
  {s : MonitorState ι (polledSize counterWidth roiCount)}

/-- The records of a state's log, without the threads they were read from. -/
def MonitorState.records {n : Nat} (s : MonitorState ι n) : List (HostRecord n) := s.log.map Prod.snd

/-- The files of a process are those it was started with and what it logged. -/
structure FilesInv (f₀ : HostFiles) (s : MonitorState ι (polledSize counterWidth roiCount)) (f : HostFiles) :
    Prop where
  hostInit : f.hostInit = !s.records.isEmpty
  sidecarStarted : f.sidecarStarted = !s.records.isEmpty
  record : f.record = UInt64.ofNat s.records.length
  logfile : f.logfile = f₀.logfile ++ logChunks counterWidth roiCount s.records
  sidecar : ∃ rows, f.sidecar = sidecarLines f₀.sidecar rows ∧ RowsDescribe rows s.records

theorem FilesInv.of_records_eq (h : FilesInv f₀ s f) {s' : MonitorState ι (polledSize counterWidth roiCount)}
    (hs : s'.records = s.records) : FilesInv f₀ s' f := by
  obtain ⟨hinit, hstarted, hrecord, hlog, hsidecar⟩ := h
  exact ⟨hs ▸ hinit, hs ▸ hstarted, hs ▸ hrecord, hs ▸ hlog, hs ▸ hsidecar⟩

theorem FilesInv.writeRecord (h : FilesInv f₀ s f) {r : HostRecord (polledSize counterWidth roiCount)}
    {s' : MonitorState ι (polledSize counterWidth roiCount)} (hrecords : s'.records = s.records ++ [r])
    {pollTime time0 : UInt64} (hdelta : pollTime - time0 = r.timeDelta) :
    FilesInv f₀ s' (f.writeRecord counterWidth roiCount r pollTime time0) := by
  obtain ⟨rows, hsidecar, hrows⟩ := h.sidecar
  have hempty : rows.isEmpty = s.records.isEmpty := by
    rw [Bool.eq_iff_iff, List.isEmpty_iff_length_eq_zero, List.isEmpty_iff_length_eq_zero, hrows.length]
  refine ⟨by simp [HostFiles.writeRecord, hrecords], by simp [HostFiles.writeRecord, hrecords], ?_, ?_,
    rows ++ [⟨f.record, r.tid, pollTime, time0⟩], ?_, ?_⟩
  · rw [HostFiles.writeRecord, h.record, hrecords, List.length_append, List.length_singleton, UInt64.ofNat_add]
    rfl
  · rw [HostFiles.writeRecord, h.logfile, h.hostInit, hrecords, logChunks_concat]
    cases s.records.isEmpty <;> simp
  · rw [HostFiles.writeRecord, hsidecar, h.sidecarStarted, sidecarLines_concat, hempty]
    cases s.records.isEmpty <;> simp
  · rw [hrecords]
    exact hrows.concat ⟨h.record, rfl, hdelta⟩

variable [DecidableEq ι]

theorem records_registerThread {n : Nat} (hashID : ι → UInt64) (s : MonitorState ι n) (t : ι) (now : UInt64) :
    (s.registerThread hashID t now).records = s.records := by
  unfold MonitorState.registerThread
  split <;> rfl

theorem ProcessRun.filesInv (h : ProcessRun hashID counterWidth roiCount f₀ es s f) : FilesInv f₀ s f := by
  induction h with
  | nil => exact ⟨rfl, rfl, rfl, (List.append_nil _).symm, [], rfl, rfl, fun k row r hk => by simp at hk⟩
  | @concat es s f e h he ih =>
    cases e with
    | pollThread t now =>
      obtain ⟨tid, rest, roi, hphase, hroi, -, hnext⟩ := next_pollThread hashID he
      have hfiles : f.next counterWidth roiCount s (.pollThread t now) =
          f.writeRecord counterWidth roiCount (s.record tid roi now) now roi.time0 := by
        simp only [HostFiles.next, hphase, hroi]
      rw [hfiles]
      refine ih.writeRecord ?_ rfl
      rw [hnext]
      simp [MonitorState.records]
    | registerThread t now => exact ih.of_records_eq (records_registerThread hashID s t now)
    | increment => exact ih.of_records_eq rfl
    | unregisterThread => exact ih.of_records_eq rfl
    | pollStart => exact ih.of_records_eq rfl
    | pollEnd => exact ih.of_records_eq rfl
    | pollCheck => exact ih.of_records_eq rfl
    | stopHostProc => exact ih.of_records_eq rfl

end

/-! ### The time differences of a thread -/

section

variable {ι : Type*} [DecidableEq ι] {n : Nat} {hashID : ι → UInt64}

/-- The time of a thread's last poll, one event later. -/
def pollTimeStep (t : ι) (time0 : UInt64) : MonitorEvent ι n → UInt64
  | .pollThread t' now => if t' = t then now else time0
  | _ => time0

/-- The time of a thread's last poll, and before its first the time it was registered at. -/
def lastPollTime (t : ι) (registered : UInt64) (es : List (MonitorEvent ι n)) : UInt64 :=
  es.foldl (pollTimeStep t) registered

@[simp] theorem lastPollTime_concat (t : ι) (registered : UInt64) (es : List (MonitorEvent ι n))
    (e : MonitorEvent ι n) :
    lastPollTime t registered (es ++ [e]) = pollTimeStep t (lastPollTime t registered es) e := by
  rw [lastPollTime, List.foldl_append]
  rfl

/-- The entry of a thread stays in the map as long as nothing unregisters its hash: it has the time of its last poll,
and the time differences logged under the hash since then add up to it. -/
structure RegisteredSince (hashID : ι → UInt64) (t : ι) (registered : UInt64) (logged : Nat)
    (post : List (MonitorEvent ι n)) (s : MonitorState ι n) : Prop where
  entry : s.registeredThreads (hashID t) = some ⟨t, lastPollTime t registered post⟩
  logged_le : logged ≤ s.records.length
  sum : ((threadRecords (hashID t) (s.records.drop logged)).map HostRecord.timeDelta).sum =
    lastPollTime t registered post - registered

variable {t : ι} {registered : UInt64} {logged : Nat} {post : List (MonitorEvent ι n)} {s : MonitorState ι n}

theorem RegisteredSince.start (hashID : ι → UInt64) (hnew : s.accelInit t = false)
    (hnone : s.registeredThreads (hashID t) = none) :
    RegisteredSince hashID t registered s.records.length [] (s.next hashID (.registerThread t registered)) where
  entry := by
    simp [MonitorState.next, MonitorState.registerThread, hnew, hnone, lastPollTime]
  logged_le := (congrArg List.length (records_registerThread hashID s t registered)).ge
  sum := by
    rw [MonitorState.next, records_registerThread, List.drop_length, lastPollTime, List.foldl_nil, sub_self]
    rfl

/-- A step that logs nothing and leaves the entry alone. -/
theorem RegisteredSince.of_unlogged (h : RegisteredSince hashID t registered logged post s) {e : MonitorEvent ι n}
    {s' : MonitorState ι n} (hrecords : s'.records = s.records)
    (hentry : s'.registeredThreads (hashID t) = s.registeredThreads (hashID t))
    (he : pollTimeStep t (lastPollTime t registered post) e = lastPollTime t registered post) :
    RegisteredSince hashID t registered logged (post ++ [e]) s' where
  entry := by rw [hentry, h.entry, lastPollTime_concat, he]
  logged_le := by rw [hrecords]; exact h.logged_le
  sum := by rw [hrecords, h.sum, lastPollTime_concat, he]

theorem RegisteredSince.pollThread (h : RegisteredSince hashID t registered logged post s)
    (hinv : RegisteredInv hashID s) {t' : ι} {now : UInt64} (he : (MonitorEvent.pollThread t' now).Enabled s) :
    RegisteredSince hashID t registered logged (post ++ [.pollThread t' now])
      (s.next hashID (.pollThread t' now)) := by
  obtain ⟨tid, rest, roi, -, hroi, hthread, hnext⟩ := next_pollThread hashID he
  have hrecords : (s.next hashID (.pollThread t' now)).records = s.records ++ [s.record tid roi now] := by
    rw [hnext]
    simp [MonitorState.records]
  have hentry : (s.next hashID (.pollThread t' now)).registeredThreads =
      Function.update s.registeredThreads tid (some { roi with time0 := now }) := by
    rw [hnext]
  have hhash := hinv.hash tid roi hroi
  have hdrop : (s.records ++ [s.record tid roi now]).drop logged =
      s.records.drop logged ++ [s.record tid roi now] := List.drop_append_of_le_length h.logged_le
  have htid : (s.record tid roi now).tid = tid := rfl
  by_cases hsame : tid = hashID t
  · -- the thread's own poll: its entry says when it was polled before
    subst hsame
    rw [h.entry] at hroi
    obtain rfl := Option.some.inj hroi
    obtain rfl : t = t' := hthread
    refine ⟨?_, ?_, ?_⟩
    · rw [hentry, Function.update_self, lastPollTime_concat, pollTimeStep, if_pos rfl]
    · rw [hrecords, List.length_append]
      exact h.logged_le.trans (Nat.le_add_right _ _)
    · rw [hrecords, hdrop, threadRecords_concat, if_pos htid, List.map_append, List.sum_append, h.sum,
        lastPollTime_concat, pollTimeStep, if_pos rfl]
      simp [MonitorState.record]
  · have hne : t' ≠ t := by
      rintro rfl
      exact hsame (by rw [← hhash, hthread])
    refine ⟨?_, ?_, ?_⟩
    · rw [hentry, Function.update_of_ne (Ne.symm hsame), h.entry, lastPollTime_concat, pollTimeStep, if_neg hne]
    · rw [hrecords, List.length_append]
      exact h.logged_le.trans (Nat.le_add_right _ _)
    · rw [hrecords, hdrop, threadRecords_concat, htid, if_neg hsame, List.append_nil, h.sum, lastPollTime_concat,
        pollTimeStep, if_neg hne]

theorem RegisteredSince.next (h : RegisteredSince hashID t registered logged post s) (hinv : RegisteredInv hashID s)
    {e : MonitorEvent ι n} (he : e.Enabled s) (hkeep : ∀ t', e = .unregisterThread t' → hashID t' ≠ hashID t) :
    RegisteredSince hashID t registered logged (post ++ [e]) (s.next hashID e) := by
  cases e with
  | registerThread t' now =>
    refine h.of_unlogged (records_registerThread hashID s t' now) ?_ rfl
    simp only [MonitorState.next, MonitorState.registerThread]
    split
    · rfl
    · -- a second thread of the hash is only warned about
      by_cases hsame : hashID t' = hashID t
      · simp [hsame, h.entry]
      · dsimp only
        split
        · exact Function.update_of_ne (Ne.symm hsame) _ _
        · rfl
  | unregisterThread t' =>
    exact h.of_unlogged rfl (Function.update_of_ne (hkeep t' rfl).symm _ _) rfl
  | pollThread t' now => exact h.pollThread hinv he
  | increment => exact h.of_unlogged rfl rfl rfl
  | pollStart => exact h.of_unlogged rfl rfl rfl
  | pollEnd => exact h.of_unlogged rfl rfl rfl
  | pollCheck => exact h.of_unlogged rfl rfl rfl
  | stopHostProc => exact h.of_unlogged rfl rfl rfl

end

section

variable {ι : Type*} [DecidableEq ι] {n : Nat} {hashID : ι → UInt64} {pre post es : List (MonitorEvent ι n)}
  {s₀ s s' : MonitorState ι n}

theorem MonitorRun.unique (h : MonitorRun hashID es s) (h' : MonitorRun hashID es s') : s = s' := by
  induction h generalizing s' with
  | nil =>
    generalize hnil : ([] : List (MonitorEvent ι n)) = l at h'
    cases h' with
    | nil => rfl
    | concat => simp at hnil
  | concat _ _ ih =>
    obtain ⟨s₁, hs₁, -, rfl⟩ := h'.concat_inv
    rw [ih hs₁]

/-- From a registration on, as long as nothing unregisters the hash. -/
theorem MonitorRun.registeredSince {t : ι} {registered : UInt64} (hpre : MonitorRun hashID pre s₀)
    (hnew : s₀.accelInit t = false) (hnone : s₀.registeredThreads (hashID t) = none)
    (h : MonitorRun hashID (pre ++ .registerThread t registered :: post) s)
    (hkeep : ∀ t', .unregisterThread t' ∈ post → hashID t' ≠ hashID t) :
    RegisteredSince hashID t registered s₀.records.length post s := by
  induction post using List.reverseRecOn generalizing s with
  | nil =>
    obtain ⟨s₁, hs₁, -, rfl⟩ := h.concat_inv
    rw [← hpre.unique hs₁]
    exact .start hashID hnew hnone
  | append_singleton post e ih =>
    rw [← List.cons_append, ← List.append_assoc] at h
    obtain ⟨s₁, hs₁, he, rfl⟩ := h.concat_inv
    have hsince := ih hs₁ fun t' ht' => hkeep t' (List.mem_append_left _ ht')
    refine hsince.next hs₁.registeredInv he ?_
    rintro t' rfl
    exact hkeep t' (List.mem_append_right _ (List.mem_singleton_self _))

end

/-! ### Where no log was -/

section

variable {ι : Type*} [DecidableEq ι] {hashID : ι → UInt64} {counterWidth roiCount : UInt64} {f₀ f : HostFiles}
  {es : List (MonitorEvent ι (polledSize counterWidth roiCount))}
  {s : MonitorState ι (polledSize counterWidth roiCount)}

theorem ProcessRun.logBytes_eq (h : ProcessRun hashID counterWidth roiCount f₀ es s f) (hf₀ : f₀.logfile = [])
    (hs : s.records ≠ []) :
    f.logBytes = hostHeader counterWidth roiCount ++ s.records.flatMap HostRecord.encode := by
  rw [HostFiles.logBytes, h.filesInv.logfile, hf₀, List.nil_append, flatMap_logChunks hs]

theorem ProcessRun.logBytes_nil (h : ProcessRun hashID counterWidth roiCount f₀ es s f) (hf₀ : f₀.logfile = [])
    (hs : s.records = []) : f.logBytes = [] := by
  rw [HostFiles.logBytes, h.filesInv.logfile, hf₀, hs]
  rfl

end

end ZRay
