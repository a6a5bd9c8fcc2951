import Mathlib
import ZRay.Log.RegionTotals

/-!
# The host log

The poll thread logs, for each registered thread, its cumulative arrays.  `post_process` keeps the last counters of
each thread id and hands the difference to `zray_finalize`, one epoch for each record; a difference that is negative
as a `long long` ends the program.  The runtime arrays are handed on as they were logged.
-/

namespace ZRay

open ByteStream

/-- What is logged for a thread at a poll; `n` is the size of the arrays. -/
structure HostRecord (n : Nat) where
  tid : UInt64
  counterArray : Vector UInt64 n
  timeDelta : UInt64
  loadRuntimeArray : Vector UInt64 n
  storeRuntimeArray : Vector UInt64 n
  deriving DecidableEq

/-- The memory around an array; what is outside is not the array's. -/
def cellAt {n : Nat} (a : Vector UInt64 n) (i : Int) : UInt64 := if 0 ≤ i then a.toList.getD i.toNat 0 else 0

/-- The records of one thread id. -/
def threadRecords {n : Nat} (tid : UInt64) (records : List (HostRecord n)) : List (HostRecord n) :=
  records.filter (·.tid == tid)

namespace PostProcess

/-- What `main` works with besides the records: the region log and the head of the host log. -/
structure HostInput where
  maxSize : UInt64
  regionLog : List UInt8
  vars : LogVars
  counterWidth : UInt64
  roiCount : UInt64

def HostInput.arraySize (inp : HostInput) : Nat := (inp.counterWidth * inp.roiCount).toNat

/-- One epoch: what is handed to `zray_finalize`, and the totals it computes. -/
structure Epoch (n : Nat) where
  tid : UInt64
  counterArray : Vector UInt64 n
  timeDelta : UInt64
  lists : RegionLists
  deriving DecidableEq

/-- `CounterLogs` and the epochs processed so far. -/
structure HostState (n : Nat) where
  counterLogs : UInt64 → Option (Vector UInt64 n)
  epochs : List (Epoch n)

/-- Why `post_process` stops before the end of the host log. -/
inductive HostStop where
  /-- `exit(1)` after "overflow in counter delta" -/
  | counterOverflow
  /-- `std::length_error` while reading the region log -/
  | lengthError
  deriving DecidableEq, Repr

/-- The arrays handed to `zray_finalize`. -/
def arraysOf (counterWidth : UInt64) {n : Nat} (counterArray loadRuntimeArray storeRuntimeArray : Vector UInt64 n) :
    RuntimeArrays where
  counterDimension := counterWidth
  counterArray := cellAt counterArray
  loadRuntimeArray := cellAt loadRuntimeArray
  storeRuntimeArray := cellAt storeRuntimeArray

/-- The counters since the last record of the thread: all of them at its first. -/
def counterDelta {n : Nat} (origCounterArray : Vector UInt64 n) (logged : Option (Vector UInt64 n)) :
    Vector UInt64 n :=
  match logged with
  | none => origCounterArray
  | some previous => origCounterArray.zipWith (· - ·) previous

/-- `(long long) counterArray[i] < 0` for some cell, which is looked at when there are counters to subtract. -/
def deltaOverflows {n : Nat} (origCounterArray : Vector UInt64 n) (logged : Option (Vector UInt64 n)) : Bool :=
  logged.isSome && (counterDelta origCounterArray logged).toList.any fun x => x.toInt64 < 0

/-- The body of `main`'s loop. -/
def mainStep (inp : HostInput) (st : HostState inp.arraySize) (record : HostRecord inp.arraySize) :
    Except HostStop (HostState inp.arraySize) :=
  let logged := st.counterLogs record.tid
  let counterArray := counterDelta record.counterArray logged
  if deltaOverflows record.counterArray logged then .error .counterOverflow
  else
    match zrayFinalize inp.maxSize
        (arraysOf inp.counterWidth counterArray record.loadRuntimeArray record.storeRuntimeArray)
        inp.regionLog inp.vars inp.roiCount.toNat with
    | none => .error .lengthError
    | some lists =>
      .ok
        { counterLogs := Function.update st.counterLogs record.tid (some record.counterArray)
          epochs := st.epochs ++ [⟨record.tid, counterArray, record.timeDelta, lists⟩] }

/-- `main`: the epochs in the order of the records. -/
def main (inp : HostInput) (records : List (HostRecord inp.arraySize)) :
    Except HostStop (HostState inp.arraySize) :=
  records.foldlM (mainStep inp) ⟨fun _ => none, []⟩

/-! ### One record after the others -/

variable {inp : HostInput} {records : List (HostRecord inp.arraySize)} {record : HostRecord inp.arraySize}

theorem main_concat (inp : HostInput) (records : List (HostRecord inp.arraySize))
    (record : HostRecord inp.arraySize) :
    main inp (records ++ [record]) = (main inp records).bind fun st => mainStep inp st record := by
  simp only [main, List.foldlM_append, List.foldlM_cons, List.foldlM_nil, bind_pure]
  rfl

/-- The last counters logged for a thread id. -/
def lastLogged {n : Nat} (tid : UInt64) (records : List (HostRecord n)) : Option (Vector UInt64 n) :=
  ((threadRecords tid records).getLast?).map HostRecord.counterArray

theorem threadRecords_concat {n : Nat} (tid : UInt64) (records : List (HostRecord n)) (record : HostRecord n) :
    threadRecords tid (records ++ [record]) =
      threadRecords tid records ++ if record.tid = tid then [record] else [] := by
  by_cases h : record.tid = tid <;> simp [threadRecords, h]

theorem lastLogged_concat {n : Nat} (tid : UInt64) (records : List (HostRecord n)) (record : HostRecord n) :
    lastLogged tid (records ++ [record]) =
      if record.tid = tid then some record.counterArray else lastLogged tid records := by
  rw [lastLogged, threadRecords_concat, lastLogged]
  by_cases h : record.tid = tid <;> simp [h]

/-- What one record does, when the program goes on. -/
theorem mainStep_eq_ok_iff {st st' : HostState inp.arraySize} :
    mainStep inp st record = .ok st' ↔
      deltaOverflows record.counterArray (st.counterLogs record.tid) = false ∧
      ∃ lists, zrayFinalize inp.maxSize
          (arraysOf inp.counterWidth (counterDelta record.counterArray (st.counterLogs record.tid))
            record.loadRuntimeArray record.storeRuntimeArray)
          inp.regionLog inp.vars inp.roiCount.toNat = some lists ∧
        st' =
          { counterLogs := Function.update st.counterLogs record.tid (some record.counterArray)
            epochs := st.epochs ++
              [⟨record.tid, counterDelta record.counterArray (st.counterLogs record.tid), record.timeDelta,
                lists⟩] } := by
  simp only [mainStep]
  by_cases hover : deltaOverflows record.counterArray (st.counterLogs record.tid) = true
  · rw [if_pos hover, hover]
    simp
  · have hfalse : deltaOverflows record.counterArray (st.counterLogs record.tid) = false := by
      simpa using hover
    rw [if_neg hover, hfalse]
    split
    · rename_i hnone
      simp [hnone]
    · rename_i lists hlists
      simp only [hlists, Except.ok.injEq, Option.some.injEq, true_and, exists_eq_left', eq_comm]

theorem main_concat_eq_ok_iff {st' : HostState inp.arraySize} :
    main inp (records ++ [record]) = .ok st' ↔
      ∃ st, main inp records = .ok st ∧ mainStep inp st record = .ok st' := by
  rw [main_concat]
  cases main inp records with
  | error e => simp [Except.bind]
  | ok st => simp [Except.bind]

/-- `CounterLogs` has the last counters logged for each thread id. -/
theorem counterLogs_main {st : HostState inp.arraySize} (h : main inp records = .ok st) (tid : UInt64) :
    st.counterLogs tid = lastLogged tid records := by
  induction records using List.reverseRecOn generalizing st with
  | nil =>
    obtain rfl : st = ⟨fun _ => none, []⟩ := (Except.ok.inj h).symm
    rfl
  | append_singleton records record ih =>
    obtain ⟨st₀, hst₀, hstep⟩ := main_concat_eq_ok_iff.mp h
    obtain ⟨-, lists, -, rfl⟩ := mainStep_eq_ok_iff.mp hstep
    rw [lastLogged_concat]
    by_cases htid : record.tid = tid
    · subst htid
      simp
    · rw [if_neg htid, ← ih hst₀]
      exact Function.update_of_ne (Ne.symm htid) _ _

/-- Between two records of a thread no counter grows by `2 ^ 63` or more. -/
def Advances {n : Nat} (a b : HostRecord n) : Prop :=
  ∀ i (h : i < n), (b.counterArray[i] - a.counterArray[i]).toNat < 2 ^ 63

instance {n : Nat} (a b : HostRecord n) : Decidable (Advances a b) :=
  inferInstanceAs (Decidable (∀ i (h : i < n), (b.counterArray[i] - a.counterArray[i]).toNat < 2 ^ 63))

theorem toInt64_neg_iff (x : UInt64) : x.toInt64 < 0 ↔ 2 ^ 63 ≤ x.toNat := by
  have hneg : x.toInt64 < 0 ↔ x.toBitVec.toInt < 0 := Int64.lt_iff_toInt_lt
  rw [hneg, BitVec.toInt_neg_iff, UInt64.toNat_toBitVec]
  omega

theorem deltaOverflows_eq_false_iff {n : Nat} (a b : HostRecord n) :
    deltaOverflows b.counterArray (some a.counterArray) = false ↔ Advances a b := by
  simp only [deltaOverflows, Option.isSome_some, Bool.true_and, List.any_eq_false, decide_eq_true_eq,
    toInt64_neg_iff, counterDelta]
  constructor
  · intro h i hi
    have hmem := h (b.counterArray[i] - a.counterArray[i]) (by
      rw [List.mem_iff_getElem]
      exact ⟨i, by simpa using hi, by simp⟩)
    omega
  · intro h x hx
    obtain ⟨i, hi, rfl⟩ := List.mem_iff_getElem.mp hx
    have hlt := h i (by simpa using hi)
    simp
    omega

/-! ### When the whole log is read -/

section

variable {es : List LogEntry} {s : ByteStream}

/-- With a region log that can be read, `zray_finalize` returns. -/
theorem zrayFinalize_eq (hread : readRecords inp.maxSize (ofBytes inp.regionLog) inp.vars = some (es, s))
    (m : RuntimeArrays) (n : Nat) :
    zrayFinalize inp.maxSize m inp.regionLog inp.vars n =
      some (applyIndirectCounts m
        (es.foldl (recordStep (fun _ => true) (fun p => p.postDomSetID != 0) m) (RegionLists.fresh n))) := by
  rw [zrayFinalize, readPdSets, readLoop_eq, hread, Option.map_some, Option.map_some, Option.map_some]

theorem deltaOverflows_lastLogged (records : List (HostRecord inp.arraySize)) (record : HostRecord inp.arraySize) :
    deltaOverflows record.counterArray (lastLogged record.tid records) = false ↔
      ∀ a ∈ (threadRecords record.tid records).getLast?, Advances a record := by
  rw [lastLogged]
  cases h : (threadRecords record.tid records).getLast? with
  | none => simp [deltaOverflows]
  | some a => simp [deltaOverflows_eq_false_iff]

theorem threadRecords_chain_concat (records : List (HostRecord inp.arraySize)) (record : HostRecord inp.arraySize) :
    (∀ tid, (threadRecords tid (records ++ [record])).IsChain Advances) ↔
      (∀ tid, (threadRecords tid records).IsChain Advances) ∧
        ∀ a ∈ (threadRecords record.tid records).getLast?, Advances a record := by
  constructor
  · intro h
    refine ⟨fun tid => ?_, ?_⟩
    · have hchain := h tid
      rw [threadRecords_concat] at hchain
      exact (List.isChain_append.mp hchain).1
    · have hchain := h record.tid
      rw [threadRecords_concat, if_pos rfl] at hchain
      intro a ha
      exact (List.isChain_append.mp hchain).2.2 a ha record rfl
  · rintro ⟨h, hlast⟩ tid
    rw [threadRecords_concat]
    by_cases htid : record.tid = tid
    · subst htid
      rw [if_pos rfl]
      refine List.isChain_append.mpr ⟨h _, List.isChain_singleton _, ?_⟩
      intro a ha b hb
      obtain rfl : record = b := by simpa using hb
      exact hlast a ha
    · rw [if_neg htid, List.append_nil]
      exact h tid

/-- The whole log is read exactly when no counter jumps between two records of a thread id. -/
theorem exists_main_iff (hread : readRecords inp.maxSize (ofBytes inp.regionLog) inp.vars = some (es, s)) :
    (∃ st, main inp records = .ok st) ↔ ∀ tid, (threadRecords tid records).IsChain Advances := by
  induction records using List.reverseRecOn with
  | nil => exact ⟨fun _ _ => List.isChain_nil, fun _ => ⟨_, rfl⟩⟩
  | append_singleton records record ih =>
    rw [threadRecords_chain_concat, ← ih, ← deltaOverflows_lastLogged]
    constructor
    · rintro ⟨st', h⟩
      obtain ⟨st, hst, hstep⟩ := main_concat_eq_ok_iff.mp h
      rw [← counterLogs_main hst]
      exact ⟨⟨st, hst⟩, (mainStep_eq_ok_iff.mp hstep).1⟩
    · rintro ⟨⟨st, hst⟩, hover⟩
      rw [← counterLogs_main hst] at hover
      exact ⟨_, main_concat_eq_ok_iff.mpr
        ⟨st, hst, mainStep_eq_ok_iff.mpr ⟨hover, _, zrayFinalize_eq hread _ _, rfl⟩⟩⟩

/-- Otherwise the program stops on the overflow of a counter difference. -/
theorem main_eq_error (hread : readRecords inp.maxSize (ofBytes inp.regionLog) inp.vars = some (es, s))
    {stop : HostStop} (h : main inp records = .error stop) : stop = .counterOverflow := by
  induction records using List.reverseRecOn generalizing stop with
  | nil => exact absurd h (by simp [main, pure, Except.pure])
  | append_singleton records record ih =>
    rw [main_concat] at h
    cases hmain : main inp records with
    | error e =>
      rw [hmain] at h
      obtain rfl : e = stop := Except.error.inj h
      exact ih hmain
    | ok st =>
      rw [hmain] at h
      have hstep : mainStep inp st record = .error stop := h
      simp only [mainStep, zrayFinalize_eq hread] at hstep
      split at hstep
      · exact (Except.error.inj hstep).symm
      · exact absurd hstep (by simp)

end

end PostProcess

end ZRay
