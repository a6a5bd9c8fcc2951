import ZRay.Log.ProfileData

/-!
# The region log

The pass writes one record for each counter it inserts: the raw `ProfileData`, a checksum over its bytes, the length
of the function's name and the name.  The runtime and `post_process` read the log with the same loop and differ in
what they do with a record, so the loop takes that as a parameter.  A record in front of a log is read back as it was
written and leaves the stream at the next one; the end of the log is the read that finds no profile.
-/

namespace ZRay

open ByteStream

/-! ### Writing -/

/-- What is written for a counter.  `maxSize` is `std::string::max_size()`, which no string exceeds. -/
structure LogRecord (maxSize : UInt64) where
  profile : ProfileData
  padding : Vector UInt8 6
  functionName : List UInt8
  functionName_le : functionName.length ≤ maxSize.toNat

/-- `insertCustomEvent` inserts a counter with increment one, `insertDynamicLoopEvent` one in front of a loop. -/
inductive CounterEvent where
  | insertCustomEvent
  | insertDynamicLoopEvent
  deriving DecidableEq, Repr

section

variable {maxSize : UInt64}

namespace LogRecord

variable (r : LogRecord maxSize)

def bytes : List UInt8 := r.profile.toBytes r.padding

def functionNameLen : UInt64 := UInt64.ofNat r.functionName.length

/-- The bytes written for a record. -/
def encode : List UInt8 :=
  r.bytes ++ (leBytes 4 (checksum r.bytes).toUInt32.toNat ++
    (leBytes 8 r.functionNameLen.toNat ++ r.functionName))

end LogRecord

/-- `insertCustomEvent`, as far as it writes to `PragmaRegionLogFile`. -/
def insertCustomEvent (log : List UInt8) (r : LogRecord maxSize) : List UInt8 :=
  log ++ r.encode

/-- `insertDynamicLoopEvent`, as far as it writes to `PragmaRegionLogFile`. -/
def insertDynamicLoopEvent (log : List UInt8) (r : LogRecord maxSize) : List UInt8 :=
  log ++ r.encode

/-- One of the two writers. -/
def CounterEvent.write : CounterEvent → List UInt8 → LogRecord maxSize → List UInt8
  | .insertCustomEvent => ZRay.insertCustomEvent
  | .insertDynamicLoopEvent => ZRay.insertDynamicLoopEvent

/-- The log after the given counters were inserted. -/
def writtenLog (events : List (CounterEvent × LogRecord maxSize)) : List UInt8 :=
  events.foldl (fun log e => e.1.write log e.2) []

theorem CounterEvent.write_eq (e : CounterEvent) (log : List UInt8) (r : LogRecord maxSize) :
    e.write log r = log ++ r.encode := by
  cases e <;> rfl

theorem writtenLog_eq (events : List (CounterEvent × LogRecord maxSize)) :
    writtenLog events = events.flatMap fun e => e.2.encode := by
  have h : ∀ log, events.foldl (fun log e => e.1.write log e.2) log = log ++ events.flatMap fun e => e.2.encode := by
    induction events with
    | nil => simp
    | cons e events ih =>
      intro log
      rw [List.foldl_cons, ih, CounterEvent.write_eq, List.flatMap_cons, List.append_assoc]
  exact h []

/-! ### Reading -/

/-- A record as the loop has it before it looks at the profile. -/
structure LogEntry where
  inProfile : ProfileData
  inCheck : Int32
  check : Int32
  functionName : List UInt8
  deriving DecidableEq, Repr

/-- The variables that live across the iterations of the loop, as bytes.  `inProfile` lives across them too, but a
record is looked at only after all bytes of its profile were read. -/
structure LogVars where
  inCheck : List UInt8
  functionNameLen : List UInt8
  length_inCheck : inCheck.length = 4
  length_functionNameLen : functionNameLen.length = 8

/-- What one round of the loop comes to. -/
inductive LogRound where
  /-- no further profile: the loop condition is false -/
  | done (s : ByteStream)
  /-- `std::length_error`, thrown by the constructor of `FunctionName` -/
  | lengthError
  | record (e : LogEntry) (s : ByteStream) (v : LogVars)

/-- The head and the reading part of the loop's body. -/
def readRecord (maxSize : UInt64) (s : ByteStream) (v : LogVars) : LogRound :=
  let inProfile := s.read (List.replicate ProfileData.size 0)
  if inProfile.1.fail then .done inProfile.1
  else
    let inCheck := inProfile.1.read v.inCheck
    let check := checksum inProfile.2
    let functionNameLen := inCheck.1.read v.functionNameLen
    if maxSize < word64 functionNameLen.2 then .lengthError
    else
      let functionName := functionNameLen.1.read (List.replicate (word64 functionNameLen.2).toNat 0)
      .record ⟨ProfileData.ofBytes inProfile.2, (word32 inCheck.2).toInt32, check, functionName.2⟩ functionName.1
        ⟨inCheck.2, functionNameLen.2, by rw [length_read, v.length_inCheck],
          by rw [length_read, v.length_functionNameLen]⟩

/-- A record takes at least the bytes of its profile off the stream. -/
theorem readRecord_rest {s s' : ByteStream} {v v' : LogVars} {e : LogEntry}
    (h : readRecord maxSize s v = .record e s' v') : s'.rest.length < s.rest.length := by
  unfold readRecord at h
  cases hfail : (s.read (List.replicate ProfileData.size 0)).1.fail with
  | true => simp [hfail] at h
  | false =>
    have hdrop := rest_read_of_not_fail hfail
    have h₂ := rest_read_le (s.read (List.replicate ProfileData.size 0)).1 v.inCheck
    have h₃ := rest_read_le ((s.read (List.replicate ProfileData.size 0)).1.read v.inCheck).1 v.functionNameLen
    have hsize : (List.replicate ProfileData.size (0 : UInt8)).length = 216 := List.length_replicate
    rw [if_neg (by rw [hfail]; exact Bool.false_ne_true)] at h
    dsimp only at h
    split at h
    · exact absurd h (by simp)
    · simp only [LogRound.record.injEq] at h
      obtain ⟨-, rfl, -⟩ := h
      refine lt_of_le_of_lt (rest_read_le _ _) ?_
      omega

/-- The loop: `body` is what it does with a record.  No value when `std::length_error` is thrown. -/
def readLoop (maxSize : UInt64) {σ : Type*} (body : σ → LogEntry → σ) (s : ByteStream) (v : LogVars) (a : σ) :
    Option (σ × ByteStream) :=
  match _h : readRecord maxSize s v with
  | .done s' => some (a, s')
  | .lengthError => none
  | .record e s' v' => readLoop maxSize body s' v' (body a e)
termination_by s.rest.length
decreasing_by exact readRecord_rest _h

/-- The records of a log, in order, and the stream at the end. -/
def readRecords (maxSize : UInt64) (s : ByteStream) (v : LogVars) : Option (List LogEntry × ByteStream) :=
  readLoop maxSize (fun es e => es ++ [e]) s v []

section

variable {σ : Type*} (body : σ → LogEntry → σ) {s s' : ByteStream} {v v' : LogVars} {e : LogEntry} (a : σ)

theorem readLoop_of_done (h : readRecord maxSize s v = .done s') : readLoop maxSize body s v a = some (a, s') := by
  rw [readLoop]
  split <;> simp_all

theorem readLoop_of_lengthError (h : readRecord maxSize s v = .lengthError) :
    readLoop maxSize body s v a = none := by
  rw [readLoop]
  split <;> simp_all

theorem readLoop_of_record (h : readRecord maxSize s v = .record e s' v') :
    readLoop maxSize body s v a = readLoop maxSize body s' v' (body a e) := by
  rw [readLoop]
  split <;> simp_all

/-- What the loop reads does not depend on what it does with the records. -/
theorem readLoop_foldl (s : ByteStream) (v : LogVars) (es : List LogEntry) :
    readLoop maxSize body s v (es.foldl body a) =
      (readLoop maxSize (fun es e => es ++ [e]) s v es).map fun r => (r.1.foldl body a, r.2) := by
  induction hn : s.rest.length using Nat.strong_induction_on generalizing s v es with
  | _ n ih =>
    cases h : readRecord maxSize s v with
    | done s' => simp [readLoop_of_done _ _ h]
    | lengthError => simp [readLoop_of_lengthError _ _ h]
    | record e s' v' =>
      have hlt : s'.rest.length < n := hn ▸ readRecord_rest h
      rw [readLoop_of_record _ _ h, readLoop_of_record _ _ h, ← ih _ hlt s' v' (es ++ [e]) rfl, List.foldl_append,
        List.foldl_cons, List.foldl_nil]

/-- The loop does its body for each record of the log, in order. -/
theorem readLoop_eq (s : ByteStream) (v : LogVars) :
    readLoop maxSize body s v a = (readRecords maxSize s v).map fun r => (r.1.foldl body a, r.2) :=
  readLoop_foldl body a s v []

end

/-! ### Records as they stand in a log -/

/-- A record as it stands in a log, with whatever checksum. -/
structure StoredRecord (maxSize : UInt64) where
  bytes : List UInt8
  inCheck : Int32
  functionName : List UInt8
  length_bytes : bytes.length = ProfileData.size
  functionName_le : functionName.length ≤ maxSize.toNat

namespace StoredRecord

variable (r : StoredRecord maxSize)

def functionNameLen : UInt64 := UInt64.ofNat r.functionName.length

def encode : List UInt8 :=
  r.bytes ++ (leBytes 4 r.inCheck.toUInt32.toNat ++ (leBytes 8 r.functionNameLen.toNat ++ r.functionName))

/-- What the loop gets to see of a record. -/
def entry : LogEntry := ⟨ProfileData.ofBytes r.bytes, r.inCheck, checksum r.bytes, r.functionName⟩

/-- The variables after a record was read. -/
def vars : LogVars :=
  ⟨leBytes 4 r.inCheck.toUInt32.toNat, leBytes 8 r.functionNameLen.toNat, length_leBytes 4 _, length_leBytes 8 _⟩

theorem functionNameLen_toNat : r.functionNameLen.toNat = r.functionName.length := by
  have hle := r.functionName_le
  have hlt := maxSize.toNat_lt
  rw [functionNameLen, UInt64.toNat_ofNat', Nat.mod_eq_of_lt (by omega)]

theorem functionNameLen_le : r.functionNameLen ≤ maxSize := by
  rw [UInt64.le_iff_toNat_le, functionNameLen_toNat]
  exact r.functionName_le

theorem length_encode : r.encode.length = 228 + r.functionName.length := by
  simp only [encode, List.length_append, length_leBytes, r.length_bytes, ProfileData.size]
  omega

end StoredRecord

/-- A record in front of the stream is read, and leaves the stream at what follows. -/
theorem readRecord_stored (r : StoredRecord maxSize) (rest : List UInt8) (v : LogVars) :
    readRecord maxSize (ofBytes (r.encode ++ rest)) v = .record r.entry (ofBytes rest) r.vars := by
  have hprofile : (List.replicate ProfileData.size (0 : UInt8)).length = r.bytes.length := by
    rw [List.length_replicate, r.length_bytes]
  have hcheck : v.inCheck.length = (leBytes 4 r.inCheck.toUInt32.toNat).length := by
    rw [v.length_inCheck, length_leBytes]
  have hlen : v.functionNameLen.length = (leBytes 8 r.functionNameLen.toNat).length := by
    rw [v.length_functionNameLen, length_leBytes]
  have hname : (List.replicate r.functionNameLen.toNat (0 : UInt8)).length = r.functionName.length := by
    rw [List.length_replicate, r.functionNameLen_toNat]
  have hfits : ¬ maxSize < r.functionNameLen := UInt64.not_lt.mpr r.functionNameLen_le
  unfold readRecord
  simp only [StoredRecord.encode, List.append_assoc, read_append hprofile, read_append hcheck, read_append hlen,
    word64_leBytes, read_append hname, if_neg hfits]
  simp [ofBytes, StoredRecord.entry, StoredRecord.vars]

/-- The variables after the given records were read. -/
def lastVars (rs : List (StoredRecord maxSize)) (v : LogVars) : LogVars := rs.foldl (fun _ r => r.vars) v

theorem readLoop_stored {σ : Type*} (body : σ → LogEntry → σ) (a : σ) (rs : List (StoredRecord maxSize))
    (rest : List UInt8) (v : LogVars) :
    readLoop maxSize body (ofBytes (rs.flatMap StoredRecord.encode ++ rest)) v a =
      readLoop maxSize body (ofBytes rest) (lastVars rs v) ((rs.map StoredRecord.entry).foldl body a) := by
  induction rs generalizing a v with
  | nil => rfl
  | cons r rs ih =>
    rw [List.flatMap_cons, List.append_assoc, readLoop_of_record body a (readRecord_stored r _ v), ih, List.map_cons,
      List.foldl_cons, lastVars, lastVars, List.foldl_cons]

/-! ### What was written is read back -/

/-- The record as it stands in the log. -/
def LogRecord.stored (r : LogRecord maxSize) : StoredRecord maxSize :=
  ⟨r.bytes, checksum r.bytes, r.functionName, ProfileData.length_toBytes _ _, r.functionName_le⟩

/-- What the loop gets to see of a record. -/
def LogRecord.entry (r : LogRecord maxSize) : LogEntry :=
  ⟨r.profile, checksum r.bytes, checksum r.bytes, r.functionName⟩

theorem LogRecord.entry_stored (r : LogRecord maxSize) : r.stored.entry = r.entry := by
  have hbytes : ProfileData.ofBytes r.bytes = r.profile := ProfileData.ofBytes_toBytes _ _
  simp only [StoredRecord.entry, LogRecord.entry, LogRecord.stored, hbytes]

theorem writtenLog_eq_stored (events : List (CounterEvent × LogRecord maxSize)) :
    writtenLog events = (events.map fun e => e.2.stored).flatMap StoredRecord.encode := by
  rw [writtenLog_eq, List.flatMap_map]
  rfl

theorem readRecord_nil (v : LogVars) : readRecord maxSize (ofBytes []) v = .done ⟨[], true⟩ := by
  simp [readRecord, read_nil, ProfileData.size]

theorem readLoop_writtenLog {σ : Type*} (body : σ → LogEntry → σ) (a : σ)
    (events : List (CounterEvent × LogRecord maxSize)) (v : LogVars) :
    readLoop maxSize body (ofBytes (writtenLog events)) v a =
      some ((events.map fun e => e.2.entry).foldl body a, ⟨[], true⟩) := by
  have h := readLoop_stored body a (events.map fun e => e.2.stored) [] v
  rw [List.append_nil, ← writtenLog_eq_stored, List.map_map] at h
  rw [h, readLoop_of_done body _ (readRecord_nil _)]
  simp only [Function.comp_def, LogRecord.entry_stored]

theorem readRecords_writtenLog (events : List (CounterEvent × LogRecord maxSize)) (v : LogVars) :
    readRecords maxSize (ofBytes (writtenLog events)) v = some (events.map fun e => e.2.entry, ⟨[], true⟩) := by
  have hfold : ∀ es as : List LogEntry, es.foldl (fun es e => es ++ [e]) as = as ++ es := by
    intro es
    induction es with
    | nil => simp
    | cons e es ih =>
      intro as
      rw [List.foldl_cons, ih, List.append_assoc, List.singleton_append]
  rw [readRecords, readLoop_writtenLog, hfold, List.nil_append]

end

end ZRay
