import ZRay.Runtime.PollFiles
import ZRay.System.ThreadIdentity

/-!
# The host log and its sidecar, from writer to reader

A process that starts where no log is leaves a log that `post_process` reads back, one header and the records in order
(`hostLog_roundTrip`).  The next process in the same directory appends a header and records to that log, but truncates
the sidecar: row `k` describes record `k` as long as one process at most has logged a record (`aligned_iff`).
-/

namespace ZRay

open ByteStream PostProcess

/-! ### One process -/

section

variable {ι : Type*} [DecidableEq ι] {hashID : ι → UInt64} {counterWidth roiCount : UInt64} {f₀ f : HostFiles}
  {es : List (MonitorEvent ι (polledSize counterWidth roiCount))}
  {s : MonitorState ι (polledSize counterWidth roiCount)}

/-- What a process logs where no log was, `main` reads as one header and the records in order, up to the end of the
file: it runs its loop on exactly these records, and the loop gets to the end when the region log can be read and no
counter of a thread id jumps between two records.  The time differences of a thread that stays registered add up to
the time of its last poll minus that of its registration. -/
theorem hostLog_roundTrip (hf₀ : f₀.logfile = []) (h : ProcessRun hashID counterWidth roiCount f₀ es s f)
    (inp : MainInput) :
    (s.records = [] →
      mainOfFile inp f.logBytes =
        ⟨inp.hostInput (word64 inp.counterWidth.1) (word64 inp.roiCount.1), .ok (⟨fun _ => none, []⟩, ⟨[], true⟩)⟩) ∧
    (s.records ≠ [] →
      parseHostLog inp f.logBytes = ⟨inp.hostInput counterWidth roiCount, .ok (s.records, ⟨[], true⟩)⟩ ∧
      mainOfFile inp f.logBytes =
        ⟨inp.hostInput counterWidth roiCount,
          (main (inp.hostInput counterWidth roiCount) s.records).map fun st => (st, ⟨[], true⟩)⟩) ∧
    (∀ entries rest, readRecords inp.maxSize (ofBytes inp.regionLog) inp.vars = some (entries, rest) →
      ((∃ st, main (inp.hostInput counterWidth roiCount) s.records = .ok st) ↔
        ∀ tid, (threadRecords tid s.records).IsChain Advances)) ∧
    ∀ pre s₀ t registered post, es = pre ++ .registerThread t registered :: post → MonitorRun hashID pre s₀ →
      s₀.accelInit t = false → s₀.registeredThreads (hashID t) = none →
      (∀ t', .unregisterThread t' ∈ post → hashID t' ≠ hashID t) →
      ((threadRecords (hashID t) (s.records.drop s₀.records.length)).map HostRecord.timeDelta).sum =
        lastPollTime t registered post - registered := by
  refine ⟨fun hs => ?_, fun hs => ?_, fun entries rest hread => ?_, ?_⟩
  · rw [h.logBytes_nil hf₀ hs]
    exact readHostLog_nil inp _ _ _
  · rw [h.logBytes_eq hf₀ hs]
    exact ⟨parseHostLog_written inp counterWidth roiCount s.records,
      readHostLog_written inp _ _ _ counterWidth roiCount s.records⟩
  · exact exists_main_iff hread
  · rintro pre s₀ t registered post rfl hpre hnew hnone hkeep
    exact (hpre.registeredSince hnew hnone h.monitorRun hkeep).sum

end

private theorem length_zeroWord : (List.replicate 8 (0 : UInt8)).length = 8 := rfl

/-- A region log without records, and variables that hold zeros. -/
def emptyInput : MainInput where
  maxSize := oneCell.maxSize
  regionLog := oneCell.regionLog
  vars := oneCell.vars
  counterWidth := ⟨List.replicate 8 0, length_zeroWord⟩
  roiCount := ⟨List.replicate 8 0, length_zeroWord⟩
  timeDelta := ⟨List.replicate 8 0, length_zeroWord⟩
  newArray := fun _ => 0

/-- A thread that counts nothing, and one of its hash after it: their records are read back. -/
theorem hostLog_reusedHash :
    ∃ s f, ProcessRun (fun _ => 7) oneCell.counterWidth oneCell.roiCount .empty (reusedHash 0 1) s f ∧
      s.records = [countedRecord 0 5, countedRecord 1 3] ∧
      parseHostLog emptyInput f.logBytes =
        ⟨emptyInput.hostInput oneCell.counterWidth oneCell.roiCount, .ok (s.records, ⟨[], true⟩)⟩ := by
  obtain ⟨s, hrun, hlog⟩ := reusedHash_run 0 1
  obtain ⟨f, hf⟩ := hrun.exists_process .empty
  have hrecords : s.records = [countedRecord 0 5, countedRecord 1 3] := by
    rw [MonitorState.records, hlog]
    rfl
  have hne : s.records ≠ [] := by simp [hrecords]
  exact ⟨s, f, hf, hrecords, ((hostLog_roundTrip rfl hf emptyInput).2.1 hne).1⟩

/-- A thread that counted a block, and one of its hash after it that counted none: `main` takes the difference for an
overflow and ends the program at the second record. -/
theorem not_hostLog_read_of_decrease :
    ∃ s f, ProcessRun (fun _ => 7) oneCell.counterWidth oneCell.roiCount .empty (reusedHash 1 0) s f ∧
      s.records = [countedRecord 1 5, countedRecord 0 3] ∧
      ¬ ∃ h st, mainOfFile emptyInput f.logBytes = ⟨h, .ok st⟩ := by
  obtain ⟨s, hrun, hlog⟩ := reusedHash_run 1 0
  obtain ⟨f, hf⟩ := hrun.exists_process .empty
  have hrecords : s.records = [countedRecord 1 5, countedRecord 0 3] := by
    rw [MonitorState.records, hlog]
    rfl
  refine ⟨s, f, hf, hrecords, ?_⟩
  have hne : s.records ≠ [] := by simp [hrecords]
  have hbytes : f.logBytes = hostHeader oneCell.counterWidth oneCell.roiCount ++
      [countedRecord 1 5, countedRecord 0 3].flatMap HostRecord.encode := hrecords ▸ hf.logBytes_eq rfl hne
  have hread : mainOfFile emptyInput f.logBytes =
      ⟨oneCell, (main oneCell [countedRecord 1 5, countedRecord 0 3]).map fun st => (st, ⟨[], true⟩)⟩ := by
    rw [hbytes]
    exact readHostLog_written emptyInput _ _ _ oneCell.counterWidth oneCell.roiCount _
  rintro ⟨h, st, hmain⟩
  rw [hread] at hmain
  obtain ⟨rfl, hst⟩ := Sigma.mk.inj_iff.mp hmain
  cases hrun : main oneCell [countedRecord 1 5, countedRecord 0 3] with
  | ok st' => exact not_exists_main_decrease ⟨st', hrun⟩
  | error stop =>
    rw [hrun] at hst
    exact absurd (eq_of_heq hst) (by simp [Except.map])

/-! ### One process after the other -/

/-- Programs run one after the other in a directory that had none of the files; the list has the number of records
each has logged.  The last one may still be running, and any of them may have been ended at any point. -/
inductive Session : List Nat → HostFiles → Prop
  | start : Session [] .empty
  | process {ι : Type} [DecidableEq ι] {hashID : ι → UInt64} {counterWidth roiCount : UInt64} {logged : List Nat}
    {f₀ f : HostFiles} {es : List (MonitorEvent ι (polledSize counterWidth roiCount))}
    {s : MonitorState ι (polledSize counterWidth roiCount)} :
    Session logged f₀ → ProcessRun hashID counterWidth roiCount f₀ es s f → Session (logged ++ [s.records.length]) f

/-- The log is parsed from its single header to its end, and row `k` of the sidecar describes record `k`. -/
def Aligned (f : HostFiles) : Prop :=
  (f.logfile = [] ∧ f.rows = []) ∨
    ∃ counterWidth roiCount, ∃ records : List (HostRecord (polledSize counterWidth roiCount)),
      records ≠ [] ∧ f.logfile = logChunks counterWidth roiCount records ∧
      (∀ inp, parseHostLog inp f.logBytes = ⟨inp.hostInput counterWidth roiCount, .ok (records, ⟨[], true⟩)⟩) ∧
      RowsDescribe f.rows records

/-- The processes that have logged a record. -/
def loggingProcesses (logged : List Nat) : Nat := logged.countP (0 < ·)

def LogChunk.isHeader : LogChunk → Bool
  | .header _ _ => true
  | .record _ _ => false

/-- The headers in the log. -/
def HostFiles.headers (f : HostFiles) : Nat := f.logfile.countP LogChunk.isHeader

section

variable {logged : List Nat} {f₀ f : HostFiles}

theorem countP_isHeader_logChunks {n : Nat} (counterWidth roiCount : UInt64) (records : List (HostRecord n)) :
    (logChunks counterWidth roiCount records).countP LogChunk.isHeader = if records = [] then 0 else 1 := by
  cases records with
  | nil => rfl
  | cons r records =>
    have hrecords : ((r :: records).map (LogChunk.record n)).countP LogChunk.isHeader = 0 := by
      rw [List.countP_eq_zero]
      intro c hc
      obtain ⟨r', -, rfl⟩ := List.mem_map.mp hc
      exact Bool.false_ne_true
    rw [logChunks, List.countP_cons, hrecords]
    rfl

theorem loggingProcesses_concat (logged : List Nat) (k : Nat) :
    loggingProcesses (logged ++ [k]) = loggingProcesses logged + if k = 0 then 0 else 1 := by
  rw [loggingProcesses, List.countP_append, List.countP_singleton, loggingProcesses]
  by_cases hk : k = 0
  · simp [hk]
  · simp [hk, Nat.pos_of_ne_zero hk]

/-- Each process that logs a record puts a header in front of it. -/
theorem Session.headers_eq (h : Session logged f) : f.headers = loggingProcesses logged := by
  induction h with
  | start => rfl
  | @process ι _ hashID counterWidth roiCount logged f₀ f es s _ hrun ih =>
    rw [HostFiles.headers, hrun.filesInv.logfile, List.countP_append, countP_isHeader_logChunks,
      loggingProcesses_concat, ← ih, HostFiles.headers]
    simp only [List.length_eq_zero_iff]

/-- The rows of the sidecar are those of the last process that logged a record. -/
theorem rows_sidecarLines {old : List SidecarLine} {rows : List SidecarRow} (h : f.sidecar = sidecarLines old rows)
    (hrows : rows ≠ []) : f.rows = rows := by
  cases rows with
  | nil => exact absurd rfl hrows
  | cons row rows =>
    rw [HostFiles.rows, h, sidecarLines, List.filterMap_cons, List.filterMap_map]
    exact List.filterMap_some

/-- What the files hold while one process at most has logged a record. -/
structure SingleLog (logged : List Nat) (f : HostFiles) : Prop where
  unlogged : loggingProcesses logged = 0 → f.logfile = [] ∧ f.sidecar = []
  logged : loggingProcesses logged = 1 → ∃ counterWidth roiCount,
    ∃ records : List (HostRecord (polledSize counterWidth roiCount)),
      records ≠ [] ∧ f.logfile = logChunks counterWidth roiCount records ∧ RowsDescribe f.rows records

theorem Session.singleLog (h : Session logged f) : SingleLog logged f := by
  induction h with
  | start => exact ⟨fun _ => ⟨rfl, rfl⟩, fun h => absurd h (by decide)⟩
  | @process ι _ hashID counterWidth roiCount logged f₀ f es s _ hrun ih =>
    obtain ⟨rows, hsidecar, hdescribe⟩ := hrun.filesInv.sidecar
    have hlog := hrun.filesInv.logfile
    by_cases hrecords : s.records = []
    · -- nothing logged: the files are as they were
      have hnorows : rows = [] := List.length_eq_zero_iff.mp (by rw [hdescribe.length, hrecords, List.length_nil])
      have hlog₀ : f.logfile = f₀.logfile := by rw [hlog, hrecords, logChunks, List.append_nil]
      have hsidecar₀ : f.sidecar = f₀.sidecar := by rw [hsidecar, hnorows, sidecarLines]
      have hrows₀ : f.rows = f₀.rows := by rw [HostFiles.rows, hsidecar₀, HostFiles.rows]
      rw [hrecords, List.length_nil]
      refine ⟨fun hcount => ?_, fun hcount => ?_⟩
      · rw [hlog₀, hsidecar₀]
        exact ih.unlogged (by rwa [loggingProcesses_concat, if_pos rfl] at hcount)
      · rw [hlog₀, hrows₀]
        exact ih.logged (by rwa [loggingProcesses_concat, if_pos rfl] at hcount)
    · have hlength : s.records.length ≠ 0 := fun h => hrecords (List.length_eq_zero_iff.mp h)
      refine ⟨fun hcount => ?_, fun hcount => ?_⟩ <;> rw [loggingProcesses_concat, if_neg hlength] at hcount
      · omega
      · have hrows : rows ≠ [] := fun h => hlength (by rw [← hdescribe.length, h, List.length_nil])
        rw [(ih.unlogged (by omega)).1, List.nil_append] at hlog
        exact ⟨counterWidth, roiCount, s.records, hrecords, hlog, rows_sidecarLines hsidecar hrows ▸ hdescribe⟩

theorem Aligned.headers_le (h : Aligned f) : f.headers ≤ 1 := by
  rcases h with ⟨hlog, -⟩ | ⟨counterWidth, roiCount, records, hne, hlog, -⟩
  · rw [HostFiles.headers, hlog]
    exact Nat.zero_le 1
  · rw [HostFiles.headers, hlog, countP_isHeader_logChunks, if_neg hne]

/-- After any step of any process, the sidecar describes the log exactly when one process at most has logged a
record. -/
theorem aligned_iff (h : Session logged f) : Aligned f ↔ loggingProcesses logged ≤ 1 := by
  constructor
  · intro hal
    rw [← h.headers_eq]
    exact hal.headers_le
  · intro hle
    rcases Nat.le_one_iff_eq_zero_or_eq_one.mp hle with hzero | hone
    · obtain ⟨hlog, hsidecar⟩ := h.singleLog.unlogged hzero
      exact .inl ⟨hlog, by rw [HostFiles.rows, hsidecar, List.filterMap_nil]⟩
    · obtain ⟨counterWidth, roiCount, records, hne, hlog, hrows⟩ := h.singleLog.logged hone
      refine .inr ⟨counterWidth, roiCount, records, hne, hlog, fun inp => ?_, hrows⟩
      rw [HostFiles.logBytes, hlog, flatMap_logChunks hne]
      exact parseHostLog_written inp counterWidth roiCount records

end

theorem reusedHash_process (a b : UInt64) (f₀ : HostFiles) :
    ∃ s f, ProcessRun (fun _ => 7) oneCell.counterWidth oneCell.roiCount f₀ (reusedHash a b) s f ∧
      s.records.length = 2 := by
  obtain ⟨s, hrun, hlog⟩ := reusedHash_run a b
  obtain ⟨f, hf⟩ := hrun.exists_process f₀
  have hlength : s.log.length = 2 := by
    rw [hlog]
    rfl
  exact ⟨s, f, hf, (List.length_map _).trans hlength⟩

/-- A process without a thread to poll, and one with two records after it. -/
theorem aligned_single_process : ∃ f, Session [0, 2] f ∧ Aligned f := by
  have hnil : ProcessRun (fun _ : Bool => 7) 1 1 .empty [] .initial HostFiles.empty.restart := .nil
  have hidle : Session ([] ++ [0]) HostFiles.empty.restart := Session.start.process hnil
  obtain ⟨s, f, hrun, hlength⟩ := reusedHash_process 0 1 HostFiles.empty.restart
  have hsession := hidle.process hrun
  rw [hlength] at hsession
  exact ⟨f, hsession, (aligned_iff hsession).mpr (by decide)⟩

/-- The same program twice: the log has two headers and the records of both runs, the sidecar the
rows of the second. -/
theorem not_aligned_second_process : ∃ f, Session [2, 2] f ∧ ¬ Aligned f := by
  obtain ⟨s₁, f₁, hrun₁, hlength₁⟩ := reusedHash_process 0 1 .empty
  obtain ⟨s₂, f₂, hrun₂, hlength₂⟩ := reusedHash_process 0 1 f₁
  have hsession := (Session.start.process hrun₁).process hrun₂
  rw [hlength₁, hlength₂] at hsession
  refine ⟨f₂, hsession, fun hal => ?_⟩
  have hheaders := hal.headers_le
  rw [hsession.headers_eq] at hheaders
  exact absurd hheaders (by decide)

end ZRay
