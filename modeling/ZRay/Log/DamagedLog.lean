import Mathlib
import ZRay.Log.ReadPdSets

/-!
# Damaged region logs

Only the read of the profile decides whether the loop goes on.  When the log ends behind a profile, the length of the
name keeps the bytes it held for the record before, the name is filled up with zeros, and the body runs on the record;
a checksum that does not match is reported and nothing else.  So a record that is damaged contributes like any other
(`readPdSets_intact_iff`), unless the group filter leaves it out anyway.
-/

namespace ZRay

open ByteStream

/-! ### A record of a log that may end anywhere -/

section

variable {maxSize : UInt64} {bytes : List UInt8} (v : LogVars)

/-- `FunctionNameLen` after it was read: what the log has of it, and the end of what it held before. -/
def nameLenRead (bytes : List UInt8) (v : LogVars) : UInt64 :=
  word64 ((bytes.drop 220).take 8 ++ v.functionNameLen.drop (bytes.length - 220))

/-- `FunctionName` after it was read. -/
def nameRead (bytes : List UInt8) (v : LogVars) : List UInt8 :=
  (bytes.drop 228).take (nameLenRead bytes v).toNat ++
    List.replicate ((nameLenRead bytes v).toNat - (bytes.length - 228)) 0

theorem read_profile (hsize : 216 ≤ bytes.length) :
    (ofBytes bytes).read (List.replicate ProfileData.size 0) = (ofBytes (bytes.drop 216), bytes.take 216) := by
  have hbuf : (List.replicate ProfileData.size (0 : UInt8)).length = (bytes.take 216).length := by
    rw [List.length_replicate, List.length_take, ProfileData.size]
    omega
  have h := @read_append (bytes.take 216) (bytes.drop 216) _ hbuf
  rwa [List.take_append_drop] at h

/-- `FunctionNameLen` is read four bytes behind the profile. -/
private theorem nameLen_read :
    word64 ((((ofBytes (bytes.drop 216)).read v.inCheck).1.read v.functionNameLen).2) = nameLenRead bytes v := by
  have hd := (drained_ofBytes (bytes.drop 216)).read v.inCheck
  rw [snd_read hd, rest_read (drained_ofBytes _), v.length_inCheck, v.length_functionNameLen, nameLenRead]
  simp [ofBytes, List.drop_drop]

theorem readRecord_of_lt (hsize : bytes.length < 216) :
    readRecord maxSize (ofBytes bytes) v = .done ⟨[], true⟩ := by
  have hbuf : (List.replicate ProfileData.size (0 : UInt8)).length = 216 := List.length_replicate
  have hread : (ofBytes bytes).read (List.replicate ProfileData.size 0) =
      (⟨[], true⟩, bytes ++ (List.replicate ProfileData.size 0).drop bytes.length) := by
    rw [ByteStream.read, ofBytes, if_neg (by simp), if_neg (by rw [hbuf]; simpa using hsize)]
  simp [readRecord, hread]

theorem readRecord_of_nameLen_gt (hsize : 216 ≤ bytes.length) (hlen : maxSize < nameLenRead bytes v) :
    readRecord maxSize (ofBytes bytes) v = .lengthError := by
  unfold readRecord
  simp only [read_profile hsize, nameLen_read]
  rw [if_neg (by simp [ofBytes]), if_pos hlen]

/-- A log with a profile in front is a record, however it goes on, when the name fits. -/
theorem readRecord_of_nameLen_le (hsize : 216 ≤ bytes.length) (hlen : nameLenRead bytes v ≤ maxSize) :
    ∃ inCheck v', readRecord maxSize (ofBytes bytes) v =
      .record ⟨ProfileData.ofBytes (bytes.take 216), inCheck, checksum (bytes.take 216), nameRead bytes v⟩
        ⟨bytes.drop (228 + (nameLenRead bytes v).toNat),
          decide (bytes.length < 228 + (nameLenRead bytes v).toNat)⟩ v' := by
  have hd₁ := drained_ofBytes (bytes.drop 216)
  have hd₂ := hd₁.read v.inCheck
  have hd₃ := hd₂.read v.functionNameLen
  have hrest : (((ofBytes (bytes.drop 216)).read v.inCheck).1.read v.functionNameLen).1.rest = bytes.drop 228 := by
    rw [rest_read hd₂, rest_read hd₁, v.length_inCheck, v.length_functionNameLen]
    simp [ofBytes, List.drop_drop]
  have hname : (List.replicate (nameLenRead bytes v).toNat (0 : UInt8)).length = (nameLenRead bytes v).toNat :=
    List.length_replicate
  have hsnd : ((((ofBytes (bytes.drop 216)).read v.inCheck).1.read v.functionNameLen).1.read
      (List.replicate (nameLenRead bytes v).toNat 0)).2 = nameRead bytes v := by
    rw [snd_read hd₃, hrest, hname, List.drop_replicate, List.length_drop, nameRead]
  have hfail : ((((ofBytes (bytes.drop 216)).read v.inCheck).1.read v.functionNameLen).1.read
      (List.replicate (nameLenRead bytes v).toNat 0)).1.fail =
        decide (bytes.length < 228 + (nameLenRead bytes v).toNat) := by
    rw [fail_read, hrest, fail_read, fail_read, rest_read hd₁, hname, v.length_inCheck, v.length_functionNameLen]
    simp only [ofBytes, List.length_drop, Bool.false_or, ← Bool.decide_or]
    exact decide_eq_decide.mpr (by omega)
  have hstream : ((((ofBytes (bytes.drop 216)).read v.inCheck).1.read v.functionNameLen).1.read
      (List.replicate (nameLenRead bytes v).toNat 0)).1 = ⟨bytes.drop (228 + (nameLenRead bytes v).toNat),
        decide (bytes.length < 228 + (nameLenRead bytes v).toNat)⟩ := by
    rw [← hfail, ByteStream.mk.injEq]
    refine ⟨?_, rfl⟩
    rw [rest_read hd₃, hrest, hname, List.drop_drop]
  unfold readRecord
  simp only [read_profile hsize, nameLen_read, hsnd, hstream]
  rw [if_neg (by simp [ofBytes]), if_neg (UInt64.not_lt.mpr hlen)]
  exact ⟨_, _, rfl⟩

end

/-! ### Damage -/

/-- What happens to a log: it ends after `p` bytes, or byte `j` of the profile of record `k` becomes `b`. -/
inductive Damage where
  | cut (p : Nat)
  | change (k j : Nat) (b : UInt8)
  deriving DecidableEq, Repr

namespace StoredRecord

variable {maxSize : UInt64} (r : StoredRecord maxSize)

/-- The record with one byte of its profile changed. -/
def changeByte (j : Nat) (b : UInt8) : StoredRecord maxSize :=
  { r with bytes := r.bytes.set j b, length_bytes := by rw [List.length_set, r.length_bytes] }

/-- The checksum of the record matches. -/
def intact : Bool := r.inCheck == checksum r.bytes

end StoredRecord

section

variable {maxSize : UInt64}

/-- The records within the first `p` bytes, and the bytes of the next one that are left. -/
def cutRecords : List (StoredRecord maxSize) → Nat → List (StoredRecord maxSize) × List UInt8
  | [], _ => ([], [])
  | r :: rs, p =>
    if r.encode.length ≤ p then
      let c := cutRecords rs (p - r.encode.length)
      (r :: c.1, c.2)
    else ([], r.encode.take p)

variable (events : List (CounterEvent × LogRecord maxSize))

/-- The records of a written log. -/
def storedRecords : List (StoredRecord maxSize) := events.map fun e => e.2.stored

/-- Where a record starts in a written log. -/
def recordStart (k : Nat) : Nat := (writtenLog (events.take k)).length

namespace Damage

/-- The log with the damage. -/
def apply : Damage → List UInt8
  | .cut p => (writtenLog events).take p
  | .change k j b => (writtenLog events).set (recordStart events k + j) b

/-- A change is one inside the profile of a record. -/
inductive Of : Damage → Prop
  | cut (p : Nat) : Of (.cut p)
  | change {k j : Nat} {b : UInt8} (hk : k < events.length) (hj : j < ProfileData.size)
      (hb : events[k].2.bytes[j]? ≠ some b) : Of (.change k j b)

/-- The records that are completely present. -/
def present : Damage → List (StoredRecord maxSize)
  | .cut p => (cutRecords (storedRecords events) p).1
  | .change k j b => (storedRecords events).modify k fun r => r.changeByte j b

/-- The records that are completely present and whose checksum matches, as the loop's body would see them. -/
def intactEntries (d : Damage) :
    List LogEntry := ((d.present events).filter StoredRecord.intact).map StoredRecord.entry

end Damage

end

/-- The two programs that read the log. -/
inductive LogReader where
  | runtime (activeGroupNumber : UInt64)
  | postProcess
  deriving DecidableEq, Repr

namespace LogReader

def selected : LogReader → ProfileData → Bool
  | .runtime activeGroupNumber => groupSelected activeGroupNumber
  | .postProcess => fun _ => true

def counted : LogReader → ProfileData → Bool
  | .runtime _ => fun _ => true
  | .postProcess => fun p => p.postDomSetID != 0

def readPdSets (maxSize : UInt64) (m : RuntimeArrays) (logFile : List UInt8) (v : LogVars) (l : RegionLists) :
    LogReader → Option RegionLists
  | .runtime activeGroupNumber => ZRay.readPdSets maxSize activeGroupNumber m logFile v l
  | .postProcess => PostProcess.readPdSets maxSize m logFile v l

/-- The body of the loop. -/
def body (reader : LogReader) (m : RuntimeArrays) : RegionLists → LogEntry → RegionLists :=
  recordStep reader.selected reader.counted m

theorem readPdSets_eq (reader : LogReader) (maxSize : UInt64) (m : RuntimeArrays) (logFile : List UInt8) (v : LogVars)
    (l : RegionLists) :
    reader.readPdSets maxSize m logFile v l =
      (readLoop maxSize (reader.body m) (ofBytes logFile) v l).map Prod.fst := by
  cases reader <;> rfl

end LogReader

/-! ### What a record leaves in the lists -/

/-- A record the loop takes into a list: an indirect one, or one that passes the filter. -/
def contributes (selected : ProfileData → Bool) (p : ProfileData) : Bool := p.isIndirect || selected p

/-- How many records were taken into the lists. -/
def RegionLists.recorded (l : RegionLists) : Nat := l.counts.length + l.indirectProfiles.length

section

variable (selected counted : ProfileData → Bool) (m : RuntimeArrays)

theorem recorded_recordStep (l : RegionLists) (e : LogEntry) :
    (recordStep selected counted m l e).recorded =
      l.recorded + if contributes selected e.inProfile then 1 else 0 := by
  unfold recordStep
  cases hind : e.inProfile.isIndirect with
  | true => simp [RegionLists.recorded, contributes, hind]; omega
  | false =>
    cases hsel : selected e.inProfile with
    | true => simp [RegionLists.recorded, contributes, hind, hsel]; omega
    | false => simp [contributes, hind, hsel]

theorem recordStep_of_not_contributes (l : RegionLists) {e : LogEntry}
    (h : contributes selected e.inProfile = false) : recordStep selected counted m l e = l := by
  rw [contributes, Bool.or_eq_false_iff] at h
  simp [recordStep, h.1, h.2]

theorem recorded_foldl_recordStep (es : List LogEntry) (l : RegionLists) :
    (es.foldl (recordStep selected counted m) l).recorded =
      l.recorded + es.countP fun e => contributes selected e.inProfile := by
  induction es generalizing l with
  | nil => rfl
  | cons e es ih =>
    rw [List.foldl_cons, ih, recorded_recordStep, List.countP_cons]
    omega

/-- Leaving out a record changes nothing exactly when it contributes nothing. -/
theorem foldl_recordStep_skip_iff (es es' : List LogEntry) (e : LogEntry) (l : RegionLists) :
    (es ++ e :: es').foldl (recordStep selected counted m) l = (es ++ es').foldl (recordStep selected counted m) l ↔
      contributes selected e.inProfile = false := by
  constructor
  · intro h
    have hrec := congrArg RegionLists.recorded h
    rw [recorded_foldl_recordStep, recorded_foldl_recordStep, List.countP_append, List.countP_append,
      List.countP_cons] at hrec
    by_contra hc
    rw [if_pos (by simpa using hc)] at hrec
    omega
  · intro h
    rw [List.foldl_append, List.foldl_cons, recordStep_of_not_contributes _ _ _ _ h, ← List.foldl_append]

end

/-! ### A log that was cut -/

section

variable {maxSize : UInt64}

theorem StoredRecord.intact_stored (r : LogRecord maxSize) : r.stored.intact = true := by
  simp [StoredRecord.intact, LogRecord.stored]

theorem flatMap_cutRecords (rs : List (StoredRecord maxSize)) (p : Nat) :
    (rs.flatMap StoredRecord.encode).take p =
      (cutRecords rs p).1.flatMap StoredRecord.encode ++ (cutRecords rs p).2 := by
  induction rs generalizing p with
  | nil => simp [cutRecords]
  | cons r rs ih =>
    rw [List.flatMap_cons, List.take_append, cutRecords]
    split
    · rename_i hle
      rw [List.take_of_length_le hle, ih, List.flatMap_cons, List.append_assoc]
    · rename_i hlt
      rw [show p - r.encode.length = 0 by omega]
      simp

theorem mem_of_mem_cutRecords {rs : List (StoredRecord maxSize)} {p : Nat} {r : StoredRecord maxSize}
    (h : r ∈ (cutRecords rs p).1) : r ∈ rs := by
  induction rs generalizing p with
  | nil => simp [cutRecords] at h
  | cons r' rs ih =>
    rw [cutRecords] at h
    split at h
    · rcases List.mem_cons.mp h with rfl | h
      · exact List.mem_cons_self
      · exact List.mem_cons_of_mem _ (ih h)
    · simp at h

/-- What is left behind the complete records is a part of one record. -/
theorem cutRecords_rest (rs : List (StoredRecord maxSize)) (p : Nat) :
    (cutRecords rs p).2 = [] ∨
      ∃ r : StoredRecord maxSize, ∃ t < r.encode.length, (cutRecords rs p).2 = r.encode.take t := by
  induction rs generalizing p with
  | nil => exact Or.inl rfl
  | cons r rs ih =>
    rw [cutRecords]
    split
    · exact ih _
    · exact Or.inr ⟨r, p, by omega, rfl⟩

/-- A part of a record has fewer bytes than its name length asks for, whether the length is complete or not. -/
theorem length_take_lt_nameLen (r : StoredRecord maxSize) {t : Nat} (ht : t < r.encode.length) (v : LogVars) :
    (r.encode.take t).length < 228 + (nameLenRead (r.encode.take t) v).toNat := by
  rw [List.length_take, min_eq_left ht.le]
  by_cases hhead : t < 228
  · omega
  · have hdrop : r.encode.drop 220 = leBytes 8 r.functionNameLen.toNat ++ r.functionName := by
      rw [StoredRecord.encode, ← List.append_assoc]
      refine List.drop_left' ?_
      rw [List.length_append, r.length_bytes, length_leBytes, ProfileData.size]
    have hlen : nameLenRead (r.encode.take t) v = r.functionNameLen := by
      rw [nameLenRead, List.drop_take, hdrop, List.take_take, min_eq_left (by omega),
        List.take_left' (length_leBytes 8 _), List.length_take, min_eq_left ht.le,
        List.drop_eq_nil_of_le (by rw [v.length_functionNameLen]; omega), List.append_nil, word64_leBytes]
    rw [hlen, r.functionNameLen_toNat, ← r.length_encode]
    exact ht

theorem nameLenRead_cutRecords_lt (rs : List (StoredRecord maxSize)) (p : Nat) (v : LogVars) :
    (cutRecords rs p).2.length < 228 + (nameLenRead (cutRecords rs p).2 v).toNat := by
  rcases cutRecords_rest rs p with hnil | ⟨r, t, ht, hrest⟩
  · rw [hnil, List.length_nil]
    omega
  · rw [hrest]
    exact length_take_lt_nameLen r ht v

theorem readRecord_failed (v : LogVars) : readRecord maxSize ⟨[], true⟩ v = .done ⟨[], true⟩ := by
  simp [readRecord, ByteStream.read]

section

variable {σ : Type*} (body : σ → LogEntry → σ) (a : σ) {rest : List UInt8} (v : LogVars)

/-- A log without a profile in front. -/
theorem readLoop_of_lt (hsize : rest.length < 216) :
    readLoop maxSize body (ofBytes rest) v a = some (a, ⟨[], true⟩) :=
  readLoop_of_done body a (readRecord_of_lt v hsize)

/-- A log with a profile in front and too few bytes behind it: the body runs once more. -/
theorem readLoop_of_short (hsize : 216 ≤ rest.length) (hlen : nameLenRead rest v ≤ maxSize)
    (hshort : rest.length < 228 + (nameLenRead rest v).toNat) :
    ∃ inCheck, readLoop maxSize body (ofBytes rest) v a =
      some (body a ⟨ProfileData.ofBytes (rest.take 216), inCheck, checksum (rest.take 216), nameRead rest v⟩,
        ⟨[], true⟩) := by
  obtain ⟨inCheck, v', hread⟩ := readRecord_of_nameLen_le v hsize hlen
  rw [List.drop_eq_nil_of_le hshort.le, decide_eq_true hshort] at hread
  refine ⟨inCheck, ?_⟩
  rw [readLoop_of_record body a hread, readLoop_of_done body _ (readRecord_failed v')]

end

end

/-! ### When the damage leaves nothing -/

section

variable {maxSize : UInt64} (events : List (CounterEvent × LogRecord maxSize))

/-- The record with the damage is left out: what is left of it ends within its profile, or the loop leaves out records
with this profile, and the name that is read for it can be allocated. -/
def Damage.Ignored (selected : ProfileData → Bool) (v : LogVars) : Damage → Prop
  | .cut p =>
    let c := cutRecords (storedRecords events) p
    216 ≤ c.2.length →
      contributes selected (ProfileData.ofBytes (c.2.take 216)) = false ∧ nameLenRead c.2 (lastVars c.1 v) ≤ maxSize
  | .change k j b =>
    ∀ hk : k < events.length, contributes selected (ProfileData.ofBytes (events[k].2.bytes.set j b)) = false

theorem writtenLog_eq_storedRecords : writtenLog events = (storedRecords events).flatMap StoredRecord.encode :=
  writtenLog_eq_stored events

theorem intact_of_mem_storedRecords {r : StoredRecord maxSize} (h : r ∈ storedRecords events) : r.intact = true := by
  obtain ⟨e, -, rfl⟩ := List.mem_map.mp h
  exact StoredRecord.intact_stored e.2

variable (reader : LogReader) (m : RuntimeArrays) (v : LogVars) (l : RegionLists)

theorem readPdSets_cut_iff (p : Nat) :
    reader.readPdSets maxSize m ((Damage.cut p).apply events) v l =
        some (((Damage.cut p).intactEntries events).foldl (reader.body m) l) ↔
      (Damage.cut p).Ignored events reader.selected v := by
  have hpresent : (Damage.cut p).intactEntries events =
      (cutRecords (storedRecords events) p).1.map StoredRecord.entry := by
    rw [Damage.intactEntries, Damage.present, List.filter_eq_self.mpr]
    exact fun r hr => intact_of_mem_storedRecords events (mem_of_mem_cutRecords hr)
  have hshort := nameLenRead_cutRecords_lt (storedRecords events) p
    (lastVars (cutRecords (storedRecords events) p).1 v)
  rw [hpresent, reader.readPdSets_eq, Damage.apply, writtenLog_eq_storedRecords, flatMap_cutRecords, readLoop_stored,
    Damage.Ignored]
  generalize (cutRecords (storedRecords events) p).2 = rest at hshort ⊢
  generalize lastVars (cutRecords (storedRecords events) p).1 v = v' at hshort ⊢
  generalize ((cutRecords (storedRecords events) p).1.map StoredRecord.entry).foldl (reader.body m) l = l'
  by_cases hsize : 216 ≤ rest.length
  · by_cases hlen : nameLenRead rest v' ≤ maxSize
    · obtain ⟨inCheck, hread⟩ := readLoop_of_short (reader.body m) l' v' hsize hlen hshort
      rw [hread, Option.map_some, Option.some_inj]
      -- the body of a single record, as a record behind none
      have hskip := foldl_recordStep_skip_iff reader.selected reader.counted m [] []
        ⟨ProfileData.ofBytes (rest.take 216), inCheck, checksum (rest.take 216), nameRead rest v'⟩ l'
      exact hskip.trans ⟨fun hc _ => ⟨hc, hlen⟩, fun h => (h hsize).1⟩
    · have hgt := UInt64.not_le.mp hlen
      rw [readLoop_of_lengthError _ _ (readRecord_of_nameLen_gt v' hsize hgt)]
      simp [hsize, hlen]
  · rw [readLoop_of_lt _ _ _ (by omega)]
    simp [hsize]

/-- A changed byte, seen from the records of the log. -/
theorem set_flatMap_encode (rs rs' : List (StoredRecord maxSize)) (r : StoredRecord maxSize) {j : Nat} (b : UInt8)
    (hj : j < ProfileData.size) :
    ((rs ++ r :: rs').flatMap StoredRecord.encode).set ((rs.flatMap StoredRecord.encode).length + j) b =
      (rs ++ r.changeByte j b :: rs').flatMap StoredRecord.encode := by
  obtain ⟨tail, hencode, hchanged⟩ : ∃ tail, r.encode = r.bytes ++ tail ∧
      (r.changeByte j b).encode = r.bytes.set j b ++ tail := ⟨_, rfl, rfl⟩
  have hlen : j < r.bytes.length := by
    rw [r.length_bytes]
    exact hj
  rw [List.flatMap_append, List.flatMap_append, List.flatMap_cons, List.flatMap_cons, hencode, hchanged,
    List.set_append_right _ _ (by omega), Nat.add_sub_cancel_left, List.append_assoc, List.append_assoc,
    List.set_append_left _ _ hlen]

/-- The checksum of a record whose profile was changed does not match. -/
theorem intact_changeByte (r : LogRecord maxSize) {j : Nat} {b : UInt8} (hj : j < ProfileData.size)
    (hb : r.bytes[j]? ≠ some b) : (r.stored.changeByte j b).intact = false := by
  have hlen : j < r.bytes.length := by
    rw [LogRecord.bytes, ProfileData.length_toBytes]
    exact hj
  have hne : r.bytes[j] ≠ b := by
    intro h
    exact hb (by rw [List.getElem?_eq_getElem hlen, h])
  simp only [StoredRecord.intact, StoredRecord.changeByte, LogRecord.stored, beq_eq_false_iff_ne]
  exact (checksum_set_ne hlen hne).symm

theorem readPdSets_change_iff {k j : Nat} {b : UInt8} (hk : k < events.length) (hj : j < ProfileData.size)
    (hb : events[k].2.bytes[j]? ≠ some b) :
    reader.readPdSets maxSize m ((Damage.change k j b).apply events) v l =
        some (((Damage.change k j b).intactEntries events).foldl (reader.body m) l) ↔
      (Damage.change k j b).Ignored events reader.selected v := by
  obtain ⟨rs, hrs⟩ : ∃ rs, rs = storedRecords events := ⟨_, rfl⟩
  have hlen : k < rs.length := by
    rw [hrs, storedRecords, List.length_map]
    exact hk
  have hget : rs[k] = events[k].2.stored := by
    simp only [hrs, storedRecords, List.getElem_map]
  have hsplit : rs = rs.take k ++ events[k].2.stored :: rs.drop (k + 1) := by
    rw [← hget, ← List.drop_eq_getElem_cons hlen, List.take_append_drop]
  have hstart : recordStart events k = ((rs.take k).flatMap StoredRecord.encode).length := by
    rw [recordStart, writtenLog_eq_storedRecords, hrs, storedRecords, storedRecords, List.map_take]
  have hchanged : (Damage.change k j b).present events =
      rs.take k ++ events[k].2.stored.changeByte j b :: rs.drop (k + 1) := by
    rw [Damage.present, ← hrs, List.modify_eq_take_cons_drop hlen, hget]
  have hlog : (Damage.change k j b).apply events =
      (rs.take k ++ events[k].2.stored.changeByte j b :: rs.drop (k + 1)).flatMap StoredRecord.encode := by
    rw [Damage.apply, writtenLog_eq_storedRecords, hstart, ← hrs, ← set_flatMap_encode _ _ _ b hj, ← hsplit]
  have hintact : ∀ r ∈ rs, r.intact = true := fun r hr => intact_of_mem_storedRecords events (hrs ▸ hr)
  have hentries : (Damage.change k j b).intactEntries events =
      (rs.take k).map StoredRecord.entry ++ (rs.drop (k + 1)).map StoredRecord.entry := by
    rw [Damage.intactEntries, hchanged, List.filter_append, List.filter_cons,
      if_neg (by rw [intact_changeByte events[k].2 hj hb]; exact Bool.false_ne_true),
      List.filter_eq_self.mpr fun r hr => hintact r (List.mem_of_mem_take hr),
      List.filter_eq_self.mpr fun r hr => hintact r (List.mem_of_mem_drop hr), List.map_append]
  have hread := readLoop_stored (reader.body m) l
    (rs.take k ++ events[k].2.stored.changeByte j b :: rs.drop (k + 1)) [] v
  rw [List.append_nil, ← hlog, readLoop_of_done _ _ (readRecord_nil _)] at hread
  rw [reader.readPdSets_eq, hread, Option.map_some, Option.some_inj, hentries, List.map_append, List.map_cons]
  have hskip := foldl_recordStep_skip_iff reader.selected reader.counted m ((rs.take k).map StoredRecord.entry)
    ((rs.drop (k + 1)).map StoredRecord.entry) (events[k].2.stored.changeByte j b).entry l
  exact hskip.trans ⟨fun hc _ => hc, fun h => h hk⟩

end

/-! ### Damaged logs are read like whole ones -/

section

variable {maxSize : UInt64} (events : List (CounterEvent × LogRecord maxSize)) (reader : LogReader)
  (m : RuntimeArrays) (v : LogVars) (l : RegionLists)

/-- Of a damaged log, the reader adds the records that are complete and whose checksum matches, and nothing else. -/
def ReadsIntact (d : Damage) : Prop :=
  reader.readPdSets maxSize m (d.apply events) v l = some ((d.intactEntries events).foldl (reader.body m) l)

theorem readPdSets_intact_iff {d : Damage} (hd : d.Of events) :
    ReadsIntact events reader m v l d ↔ d.Ignored events reader.selected v := by
  cases hd with
  | cut p => exact readPdSets_cut_iff events reader m v l p
  | change hk hj hb => exact readPdSets_change_iff events reader m v l hk hj hb

end

/-- Two direct records of group 0 and functions `f` and `ab`. -/
private def twoRecords : List (CounterEvent × LogRecord 100) := [
  (.insertCustomEvent, ⟨{ postDomSetID := 1 }, Vector.replicate 6 0, [102], by decide⟩),
  (.insertCustomEvent, ⟨{ postDomSetID := 2 }, Vector.replicate 6 0, [97, 98], by decide⟩)]

private def emptyArrays : RuntimeArrays where
  counterDimension := 3
  counterArray := fun _ => 0
  loadRuntimeArray := fun _ => 0
  storeRuntimeArray := fun _ => 0

private def zeroVars : LogVars := ⟨[0, 0, 0, 0], [0, 0, 0, 0, 0, 0, 0, 0], rfl, rfl⟩

/-- A group filter that leaves out the records leaves out the damaged one as well. -/
theorem readsIntact_filtered :
    ReadsIntact twoRecords (.runtime 7) emptyArrays zeroVars (RegionLists.fresh 1) (.cut 449) ∧
      ReadsIntact twoRecords (.runtime 7) emptyArrays zeroVars (RegionLists.fresh 1) (.change 1 0 5) :=
  ⟨(readPdSets_intact_iff twoRecords (.runtime 7) emptyArrays zeroVars (RegionLists.fresh 1) (.cut 449)).mpr
      (fun _ => by decide +kernel),
    (readPdSets_intact_iff twoRecords (.runtime 7) emptyArrays zeroVars (RegionLists.fresh 1)
      (.change (by decide) (by decide) (by decide +kernel))).mpr (fun _ => by decide +revert +kernel)⟩

/-- A log that ends behind the second profile: the record is added, with a name of the length of the first one's. -/
theorem not_readsIntact_cut :
    ¬ ReadsIntact twoRecords .postProcess emptyArrays zeroVars (RegionLists.fresh 1) (.cut 445) := by
  intro h
  have hignored := (readPdSets_cut_iff twoRecords .postProcess emptyArrays zeroVars (RegionLists.fresh 1) 445).mp h
  have hsize : 216 ≤ (cutRecords (storedRecords twoRecords) 445).2.length := by decide +kernel
  have hselected := (hignored hsize).1
  simp [contributes, LogReader.selected] at hselected

end ZRay
