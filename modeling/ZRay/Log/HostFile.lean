import ZRay.Log.HostLog

/-!
# The host log as a file

The poll thread writes the size of the arrays once, in front of the first record, and the arrays without their size.
`post_process` computes the size from that header and reads record after record, as long as there is a thread id.  A
header and records are read back as they were written, up to the end of the file.
-/

namespace ZRay

open ByteStream

/-! ### The format -/

/-- The head of the file: `COUNTER_WIDTH` and `ROI_COUNT`. -/
def hostHeader (counterWidth roiCount : UInt64) : List UInt8 :=
  leBytes 8 counterWidth.toNat ++ leBytes 8 roiCount.toNat

/-- The bytes of a record. -/
def HostRecord.encode {n : Nat} (r : HostRecord n) : List UInt8 :=
  leBytes 8 r.tid.toNat ++ (words64 r.counterArray.toList ++ (leBytes 8 r.timeDelta.toNat ++
    (words64 r.loadRuntimeArray.toList ++ words64 r.storeRuntimeArray.toList)))

/-- The array whose bytes these are. -/
def arrayOfBytes (n : Nat) (b : List UInt8) : Vector UInt64 n := Vector.ofFn fun i => wordAt b i

theorem arrayOfBytes_words64 {n : Nat} (a : Vector UInt64 n) : arrayOfBytes n (words64 a.toList) = a := by
  refine Vector.ext fun i hi => ?_
  have hword := wordAt_words64 a.toList [] (i := i) (by simpa using hi)
  rw [List.append_nil] at hword
  rw [arrayOfBytes, Vector.getElem_ofFn, hword, Vector.getElem_toList]

namespace PostProcess

/-! ### Reading -/

/-- The bytes of a variable of type `size_t`. -/
abbrev WordVar := { b : List UInt8 // b.length = 8 }

/-- `logfile.read` into a variable of type `size_t`. -/
def readWord (s : ByteStream) (old : WordVar) : ByteStream × WordVar :=
  ((s.read old.1).1, ⟨(s.read old.1).2, by rw [length_read, old.2]⟩)

theorem readWord_leBytes (x : UInt64) (rest : List UInt8) (old : WordVar) :
    readWord (ofBytes (leBytes 8 x.toNat ++ rest)) old =
      (ofBytes rest, ⟨leBytes 8 x.toNat, length_leBytes 8 _⟩) := by
  have hold : old.1.length = (leBytes 8 x.toNat).length := by rw [old.2, length_leBytes]
  simp only [readWord, read_append hold]

/-- A stream at its end leaves the variable as it is. -/
theorem readWord_end {s : ByteStream} (hs : s.rest = []) (old : WordVar) : readWord s old = (⟨[], true⟩, old) := by
  obtain ⟨rest, fail⟩ := s
  obtain rfl : rest = [] := hs
  cases fail with
  | true => rfl
  | false =>
    have hne : old.1 ≠ [] := List.ne_nil_of_length_pos (by rw [old.2]; omega)
    have hread := read_nil hne
    simp only [ofBytes] at hread
    simp only [readWord, hread]

/-- What `main` starts from besides the host log: the region log, and what its variables and the arrays it allocates
hold before they are read. -/
structure MainInput where
  maxSize : UInt64
  regionLog : List UInt8
  vars : LogVars
  counterWidth : WordVar
  roiCount : WordVar
  timeDelta : WordVar
  newArray : Nat → UInt8

/-- The input of the loop, with the head of the host log. -/
def MainInput.hostInput (inp : MainInput) (counterWidth roiCount : UInt64) : HostInput where
  maxSize := inp.maxSize
  regionLog := inp.regionLog
  vars := inp.vars
  counterWidth := counterWidth
  roiCount := roiCount

/-- What one round of the loop reads. -/
inductive HostRound (n : Nat) where
  /-- no further thread id: the loop condition is false -/
  | done (s : ByteStream)
  | record (r : HostRecord n) (s : ByteStream) (timeDelta : WordVar)

/-- The head of the loop and the reads in its body.  The counter array is cleared before it is read, the others are
not. -/
def readHostRecord (n : Nat) (newArray : Nat → UInt8) (s : ByteStream) (timeDelta : WordVar) : HostRound n :=
  let tid := s.read (List.replicate 8 0)
  if tid.1.fail then .done tid.1
  else
    let origCounterArray := tid.1.read (List.replicate (8 * n) 0)
    let delta := readWord origCounterArray.1 timeDelta
    let loadruntimeArray := delta.1.read ((List.range (8 * n)).map newArray)
    let storeruntimeArray := loadruntimeArray.1.read ((List.range (8 * n)).map newArray)
    .record
      ⟨word64 tid.2, arrayOfBytes n origCounterArray.2, word64 delta.2.1, arrayOfBytes n loadruntimeArray.2,
        arrayOfBytes n storeruntimeArray.2⟩
      storeruntimeArray.1 delta.2

section

variable {n : Nat} {newArray : Nat → UInt8}

/-- A record takes at least its thread id off the stream. -/
theorem readHostRecord_rest {s s' : ByteStream} {timeDelta timeDelta' : WordVar} {r : HostRecord n}
    (h : readHostRecord n newArray s timeDelta = .record r s' timeDelta') : s'.rest.length < s.rest.length := by
  unfold readHostRecord at h
  cases hfail : (s.read (List.replicate 8 0)).1.fail with
  | true => simp only [hfail, ↓reduceIte, reduceCtorEq] at h
  | false =>
    have hdrop := rest_read_of_not_fail hfail
    simp only [hfail, Bool.false_eq_true, ↓reduceIte, HostRound.record.injEq] at h
    obtain ⟨-, rfl, -⟩ := h
    refine lt_of_le_of_lt (((rest_read_le _ _).trans (rest_read_le _ _)).trans
      ((rest_read_le _ _).trans (rest_read_le _ _))) ?_
    rw [List.length_replicate] at hdrop
    omega

/-- The loop: `body` is what it does with a record, and may end the program. -/
def hostLoop (n : Nat) (newArray : Nat → UInt8) {σ : Type*} (body : σ → HostRecord n → Except HostStop σ)
    (s : ByteStream) (timeDelta : WordVar) (a : σ) : Except HostStop (σ × ByteStream) :=
  match _h : readHostRecord n newArray s timeDelta with
  | .done s' => .ok (a, s')
  | .record r s' timeDelta' => (body a r).bind fun a' => hostLoop n newArray body s' timeDelta' a'
termination_by s.rest.length
decreasing_by exact readHostRecord_rest _h

variable {σ : Type*} (body : σ → HostRecord n → Except HostStop σ) {s s' : ByteStream}
    {timeDelta timeDelta' : WordVar}
  {r : HostRecord n} (a : σ)

theorem hostLoop_of_done (h : readHostRecord n newArray s timeDelta = .done s') :
    hostLoop n newArray body s timeDelta a = .ok (a, s') := by
  rw [hostLoop]
  split <;> simp_all

theorem hostLoop_of_record (h : readHostRecord n newArray s timeDelta = .record r s' timeDelta') :
    hostLoop n newArray body s timeDelta a =
      (body a r).bind fun a' => hostLoop n newArray body s' timeDelta' a' := by
  rw [hostLoop]
  split <;> simp_all

/-- A record in front of the stream is read, and leaves the stream at what follows. -/
theorem readHostRecord_encode (newArray : Nat → UInt8) (r : HostRecord n) (rest : List UInt8) (timeDelta : WordVar) :
    ∃ timeDelta', readHostRecord n newArray (ofBytes (r.encode ++ rest)) timeDelta =
      .record r (ofBytes rest) timeDelta' := by
  have htid : (List.replicate 8 (0 : UInt8)).length = (leBytes 8 r.tid.toNat).length := by
    rw [List.length_replicate, length_leBytes]
  have hcleared : (List.replicate (8 * n) (0 : UInt8)).length = (words64 r.counterArray.toList).length := by
    rw [List.length_replicate, length_words64, Vector.length_toList]
  have hnew : ∀ a : Vector UInt64 n, ((List.range (8 * n)).map newArray).length = (words64 a.toList).length := by
    intro a
    rw [List.length_map, List.length_range, length_words64, Vector.length_toList]
  refine ⟨⟨leBytes 8 r.timeDelta.toNat, length_leBytes 8 _⟩, ?_⟩
  simp only [readHostRecord, HostRecord.encode, List.append_assoc, read_append htid, read_append hcleared,
    readWord_leBytes, read_append (hnew r.loadRuntimeArray), read_append (hnew r.storeRuntimeArray)]
  simp [ofBytes, arrayOfBytes_words64]

theorem readHostRecord_nil (timeDelta : WordVar) :
    readHostRecord n newArray (ofBytes []) timeDelta = .done ⟨[], true⟩ := by
  simp [readHostRecord, read_nil]

/-- The loop does its body for each of the records that were written, and ends at the end of the file. -/
theorem hostLoop_encode (newArray : Nat → UInt8) (records : List (HostRecord n)) (timeDelta : WordVar) :
    hostLoop n newArray body (ofBytes (records.flatMap HostRecord.encode)) timeDelta a =
      (records.foldlM body a).map fun a' => (a', ⟨[], true⟩) := by
  induction records generalizing a timeDelta with
  | nil => exact hostLoop_of_done body a (readHostRecord_nil timeDelta)
  | cons r records ih =>
    obtain ⟨timeDelta', hread⟩ := readHostRecord_encode newArray r (records.flatMap HostRecord.encode) timeDelta
    rw [List.flatMap_cons, hostLoop_of_record body a hread, List.foldlM_cons]
    cases h : body a r with
    | error e => rfl
    | ok a' => exact ih a' timeDelta'

end

/-! ### The whole file -/

/-- `main` with the body of its loop as a parameter.  The stream of a file that is not there fails at its first read,
as that of an empty file does. -/
def readHostLog (inp : MainInput) (σ : HostInput → Type*)
    (body : ∀ h : HostInput, σ h → HostRecord h.arraySize → Except HostStop (σ h)) (init : ∀ h, σ h)
    (logfile : List UInt8) : Σ h : HostInput, Except HostStop (σ h × ByteStream) :=
  let counterWidth := readWord (ofBytes logfile) inp.counterWidth
  let roiCount := readWord counterWidth.1 inp.roiCount
  let h := inp.hostInput (word64 counterWidth.2.1) (word64 roiCount.2.1)
  ⟨h, hostLoop h.arraySize inp.newArray (body h) roiCount.1 inp.timeDelta (init h)⟩

/-- `main` of `post_process`. -/
def mainOfFile (inp : MainInput) (logfile : List UInt8) :
    Σ h : HostInput, Except HostStop (HostState h.arraySize × ByteStream) :=
  readHostLog inp (fun h => HostState h.arraySize) mainStep (fun _ => ⟨fun _ => none, []⟩) logfile

/-- The records that the loop reads, without what its body does with them. -/
def parseHostLog (inp : MainInput) (logfile : List UInt8) :
    Σ h : HostInput, Except HostStop (List (HostRecord h.arraySize) × ByteStream) :=
  readHostLog inp (fun h => List (HostRecord h.arraySize)) (fun _ records r => .ok (records ++ [r])) (fun _ => [])
    logfile

section

variable (inp : MainInput) (σ : HostInput → Type*)
  (body : ∀ h : HostInput, σ h → HostRecord h.arraySize → Except HostStop (σ h)) (init : ∀ h, σ h)

theorem readHostLog_written (counterWidth roiCount : UInt64)
    (records : List (HostRecord (inp.hostInput counterWidth roiCount).arraySize)) :
    readHostLog inp σ body init (hostHeader counterWidth roiCount ++ records.flatMap HostRecord.encode) =
      ⟨inp.hostInput counterWidth roiCount,
        (records.foldlM (body _) (init _)).map fun a => (a, ⟨[], true⟩)⟩ := by
  rw [← hostLoop_encode (body _) (init _) inp.newArray records inp.timeDelta]
  unfold readHostLog
  rw [hostHeader, List.append_assoc, readWord_leBytes]
  dsimp only
  rw [readWord_leBytes]
  dsimp only
  rw [word64_leBytes, word64_leBytes]

theorem parseHostLog_written (inp : MainInput) (counterWidth roiCount : UInt64)
    (records : List (HostRecord (inp.hostInput counterWidth roiCount).arraySize)) :
    parseHostLog inp (hostHeader counterWidth roiCount ++ records.flatMap HostRecord.encode) =
      ⟨inp.hostInput counterWidth roiCount, .ok (records, ⟨[], true⟩)⟩ := by
  have hcollect : ∀ rs rs₀ : List (HostRecord (inp.hostInput counterWidth roiCount).arraySize),
      rs.foldlM (fun rs r => (.ok (rs ++ [r]) : Except HostStop _)) rs₀ = .ok (rs₀ ++ rs) := by
    intro rs
    induction rs with
    | nil =>
      intro rs₀
      rw [List.append_nil]
      rfl
    | cons r rs ih =>
      intro rs₀
      have hrest := ih (rs₀ ++ [r])
      rw [List.append_assoc, List.singleton_append] at hrest
      exact hrest
  rw [parseHostLog, readHostLog_written, hcollect]
  rfl

/-- With nothing logged, the size of the arrays is whatever the variables held, and the body never runs. -/
theorem readHostLog_nil :
    readHostLog inp σ body init [] =
      ⟨inp.hostInput (word64 inp.counterWidth.1) (word64 inp.roiCount.1), .ok (init _, ⟨[], true⟩)⟩ := by
  unfold readHostLog
  rw [readWord_end rfl]
  dsimp only
  rw [readWord_end rfl]
  dsimp only
  have hdone :
    readHostRecord (inp.hostInput (word64 inp.counterWidth.1) (word64 inp.roiCount.1)).arraySize inp.newArray
      ⟨[], true⟩ inp.timeDelta = .done ⟨[], true⟩ := by
    simp [readHostRecord, ByteStream.read]
  rw [hostLoop_of_done _ _ hdone]

end

end PostProcess

end ZRay
