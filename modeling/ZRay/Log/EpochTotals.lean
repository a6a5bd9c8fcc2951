import Mathlib
import ZRay.Log.HostLog

/-!
# The epochs of a thread

The totals of an epoch are a sum that the counters scale and a sum that they do not, over the runtime arrays and over
`SplitCounters`.  The counters of the epochs of a thread are differences, so the scaled sums telescope to the one of
the counters logged last.  The runtime arrays are cumulative in every epoch, so the other sums are all added: the
epochs add up to the totals of the last record exactly when the unscaled sums of the earlier ones come to nothing.
-/

namespace ZRay.PostProcess

open ByteStream

/-! ### The two parts of a total -/

/-- The sum over what the records of a region add, for given amounts. -/
def weightedTotal (m : RuntimeArrays) (es : List LogEntry) (n : Nat) (r : UInt64)
    (amount : ProfileData → Int → UInt64) : UInt64 :=
  ((es.filter (LogEntry.directOf (fun _ => true) r.toNat)).map fun e =>
    amount e.inProfile (m.index e.inProfile.postDomSetID e.inProfile.pragmaRegionID)).sum +
  timesIndirect (fun _ => true) es n r.toNat • ((es.filter (·.inProfile.isIndirect)).map fun e =>
    amount e.inProfile (m.index e.inProfile.postDomSetID r)).sum

/-- What the counters contribute to a field of a region. -/
def counterTotal (m : RuntimeArrays) (es : List LogEntry) (n : Nat) (r : UInt64) (f : SummedField) : UInt64 :=
  weightedTotal m es n r fun p i => p.scaled f * m.counterArray i

/-- What is added to a field of a region whatever the counters say. -/
def unscaledTotal (m : RuntimeArrays) (es : List LogEntry) (n : Nat) (r : UInt64) (f : SummedField) : UInt64 :=
  weightedTotal m es n r fun p i => m.unscaled f p i

section

variable {m m₁ m₂ : RuntimeArrays} {es : List LogEntry} {n : Nat} {r : UInt64} {f : SummedField}

theorem weightedTotal_add (hd₁ : m₁.counterDimension = m.counterDimension)
    (hd₂ : m₂.counterDimension = m.counterDimension) {a a₁ a₂ : ProfileData → Int → UInt64}
    (h : ∀ p i, a p i = a₁ p i + a₂ p i) :
    weightedTotal m es n r a = weightedTotal m₁ es n r a₁ + weightedTotal m₂ es n r a₂ := by
  have hindex₁ : ∀ k q, m₁.index k q = m.index k q := fun k q => by rw [RuntimeArrays.index, hd₁]; rfl
  have hindex₂ : ∀ k q, m₂.index k q = m.index k q := fun k q => by rw [RuntimeArrays.index, hd₂]; rfl
  have hsum : ∀ (p : LogEntry → Bool) (index : LogEntry → Int),
      ((es.filter p).map fun e => a e.inProfile (index e)).sum =
        ((es.filter p).map fun e => a₁ e.inProfile (index e)).sum +
          ((es.filter p).map fun e => a₂ e.inProfile (index e)).sum := by
    intro p index
    rw [← List.sum_map_add]
    exact congrArg List.sum (List.map_congr_left fun e _ => h e.inProfile _)
  simp only [weightedTotal, hindex₁, hindex₂, hsum, smul_add]
  exact add_add_add_comm _ _ _ _

theorem total_eq_add {counted : ProfileData → Bool} (hr : r.toNat < n) :
    (applyIndirectCounts m (es.foldl (recordStep (fun _ => true) counted m) (RegionLists.fresh n))).total r.toNat f =
      counterTotal m es n r f + unscaledTotal m es n r f := by
  rw [total_finalize _ counted m es hr f, UInt64.ofNat_toNat, counterTotal, unscaledTotal,
    ← weightedTotal_add (m := m) (a := fun p i => m.added f p i) rfl rfl]
  · rfl
  · exact m.added_eq f

end

/-! ### One thread's epochs -/

theorem cellAt_zipWith_sub {n : Nat} (a b : Vector UInt64 n) (i : Int) :
    cellAt (a.zipWith (· - ·) b) i + cellAt b i = cellAt a i := by
  unfold cellAt
  by_cases hi : 0 ≤ i
  · simp only [if_pos hi]
    by_cases hn : i.toNat < n
    · rw [List.getD_eq_getElem _ _ (by simpa using hn), List.getD_eq_getElem _ _ (by simpa using hn),
        List.getD_eq_getElem _ _ (by simpa using hn)]
      simp
    · rw [List.getD_eq_default _ _ (by simpa using hn), List.getD_eq_default _ _ (by simpa using hn),
        List.getD_eq_default _ _ (by simpa using hn), add_zero]
  · simp only [if_neg hi, add_zero]

section

variable {inp : HostInput} {records : List (HostRecord inp.arraySize)} {es : List LogEntry}

/-- The arrays of a record as they were logged. -/
def loggedArrays (inp : HostInput) (record : HostRecord inp.arraySize) : RuntimeArrays :=
  arraysOf inp.counterWidth record.counterArray record.loadRuntimeArray record.storeRuntimeArray

/-- What the counters logged last contribute. -/
def lastCounterTotal (inp : HostInput) (es : List LogEntry) (r : UInt64) (f : SummedField) :
    Option (Vector UInt64 inp.arraySize) → UInt64
  | none => 0
  | some c => counterTotal (arraysOf inp.counterWidth c c c) es inp.roiCount.toNat r f

/-- What a record adds whatever its counters say. -/
def recordUnscaled (inp : HostInput) (es : List LogEntry) (r : UInt64) (f : SummedField)
    (record : HostRecord inp.arraySize) : UInt64 :=
  unscaledTotal (loggedArrays inp record) es inp.roiCount.toNat r f

/-- The counters of an epoch, added to the ones logged before, are those of its record. -/
theorem lastCounterTotal_step (es : List LogEntry) (r : UInt64) (f : SummedField) (record : HostRecord inp.arraySize)
    (logged : Option (Vector UInt64 inp.arraySize)) (load store : Vector UInt64 inp.arraySize) :
    lastCounterTotal inp es r f logged +
        counterTotal (arraysOf inp.counterWidth (counterDelta record.counterArray logged) load store) es
          inp.roiCount.toNat r f =
      lastCounterTotal inp es r f (some record.counterArray) := by
  cases logged with
  | none => exact zero_add _
  | some previous =>
    set m := arraysOf inp.counterWidth record.counterArray load store with hm
    set m₁ := arraysOf inp.counterWidth previous previous previous with hm₁
    set m₂ := arraysOf inp.counterWidth (counterDelta record.counterArray (some previous)) load store with hm₂
    have hcells : ∀ i, m.counterArray i = m₁.counterArray i + m₂.counterArray i := by
      intro i
      rw [add_comm]
      exact (cellAt_zipWith_sub record.counterArray previous i).symm
    have hsum : counterTotal m es inp.roiCount.toNat r f =
        counterTotal m₁ es inp.roiCount.toNat r f + counterTotal m₂ es inp.roiCount.toNat r f := by
      unfold counterTotal
      refine weightedTotal_add ?_ ?_ fun p i => ?_
      · rw [hm, hm₁, arraysOf, arraysOf]
      · rw [hm, hm₂, arraysOf, arraysOf]
      · rw [hcells, UInt64.mul_add]
    rw [lastCounterTotal, lastCounterTotal, ← hm₁, ← hsum]
    rfl

/-- The totals of a thread's epochs: the counters logged last, and the unscaled sums of every record. -/
theorem sum_total_epochs {s : ByteStream} {st : HostState inp.arraySize}
    (hread : readRecords inp.maxSize (ofBytes inp.regionLog) inp.vars = some (es, s))
    (h : main inp records = .ok st) (tid : UInt64) {r : UInt64} (hr : r.toNat < inp.roiCount.toNat)
    (f : SummedField) :
    ((st.epochs.filter (·.tid == tid)).map fun e => e.lists.total r.toNat f).sum =
      lastCounterTotal inp es r f (lastLogged tid records) +
        ((threadRecords tid records).map (recordUnscaled inp es r f)).sum := by
  induction records using List.reverseRecOn generalizing st with
  | nil =>
    obtain rfl : st = ⟨fun _ => none, []⟩ := (Except.ok.inj h).symm
    simp [lastLogged, threadRecords, lastCounterTotal]
  | append_singleton records record ih =>
    obtain ⟨st₀, hst₀, hstep⟩ := main_concat_eq_ok_iff.mp h
    obtain ⟨-, lists, hlists, rfl⟩ := mainStep_eq_ok_iff.mp hstep
    have hprevious := ih hst₀
    rw [lastLogged_concat, threadRecords_concat, List.filter_append]
    by_cases htid : record.tid = tid
    · subst htid
      rw [counterLogs_main hst₀, zrayFinalize_eq hread] at hlists
      obtain rfl := Option.some.inj hlists
      have hnew := lastCounterTotal_step es r f record (lastLogged record.tid records) record.loadRuntimeArray
        record.storeRuntimeArray
      simp only [beq_self_eq_true, List.filter_cons_of_pos, List.filter_nil, List.map_append, List.map_cons,
        List.map_nil, List.sum_append, List.sum_cons, List.sum_nil, add_zero, if_pos, hprevious,
        total_eq_add hr, ← hnew]
      exact add_add_add_comm _ _ _ _
    · rw [if_neg htid, if_neg htid, List.append_nil, ← hprevious]
      simp [htid]

end

/-! ### The epochs of a thread add up -/

/-- What is reported of a region: the fields, and the two sums over them. -/
inductive Column where
  | field (f : SummedField)
  | readBytes
  | writtenBytes
  deriving DecidableEq, Repr

def reported (l : RegionLists) (r : Nat) : Column → UInt64
  | .field f => l.total r f
  | .readBytes => l.total r .bytesRead + l.total r .intrinsicLoad
  | .writtenBytes => l.total r .bytesWritten + l.total r .intrinsicStore

/-- The whole log is read, and for each thread the reports of its epochs add up to the report computed once from the
arrays logged last. -/
def EpochsAddUp (inp : HostInput) (records : List (HostRecord inp.arraySize)) : Prop :=
  ∃ st, main inp records = .ok st ∧
    ∀ tid last, (threadRecords tid records).getLast? = some last →
      ∃ once, zrayFinalize inp.maxSize (loggedArrays inp last) inp.regionLog inp.vars inp.roiCount.toNat = some once ∧
        ∀ r : UInt64, r.toNat < inp.roiCount.toNat → ∀ c : Column,
          ((st.epochs.filter (·.tid == tid)).map fun e => reported e.lists r.toNat c).sum = reported once r.toNat c

theorem sum_reported {n : Nat} (epochs : List (Epoch n)) (r : Nat) (c : Column) :
    (epochs.map fun e => reported e.lists r c).sum =
      match c with
      | .field f => (epochs.map fun e => e.lists.total r f).sum
      | .readBytes =>
        (epochs.map fun e => e.lists.total r .bytesRead).sum +
          (epochs.map fun e => e.lists.total r .intrinsicLoad).sum
      | .writtenBytes =>
        (epochs.map fun e => e.lists.total r .bytesWritten).sum +
          (epochs.map fun e => e.lists.total r .intrinsicStore).sum := by
  cases c with
  | field f => rfl
  | readBytes => exact List.sum_map_add
  | writtenBytes => exact List.sum_map_add

/-- The epochs of a thread exceed the total computed once by the unscaled sums of the earlier records. -/
theorem sum_total_epochs_eq {inp : HostInput} {es : List LogEntry} {s : ByteStream}
    {records : List (HostRecord inp.arraySize)} {st : HostState inp.arraySize}
    (hread : readRecords inp.maxSize (ofBytes inp.regionLog) inp.vars = some (es, s))
    (hst : main inp records = .ok st) {tid : UInt64} {last : HostRecord inp.arraySize}
    (hlast : (threadRecords tid records).getLast? = some last) {r : UInt64}
    (hr : r.toNat < inp.roiCount.toNat) {once : RegionLists}
    (honce : zrayFinalize inp.maxSize (loggedArrays inp last) inp.regionLog inp.vars inp.roiCount.toNat = some once)
    (f : SummedField) :
    ((st.epochs.filter (·.tid == tid)).map fun e => e.lists.total r.toNat f).sum =
      ((threadRecords tid records).dropLast.map (recordUnscaled inp es r f)).sum + once.total r.toNat f := by
  have hlogged : lastLogged tid records = some last.counterArray := by rw [lastLogged, hlast]; rfl
  have hsame : lastCounterTotal inp es r f (some last.counterArray) =
      counterTotal (loggedArrays inp last) es inp.roiCount.toNat r f := rfl
  have hrecords : threadRecords tid records = (threadRecords tid records).dropLast ++ [last] :=
    (List.dropLast_append_getLast? last hlast).symm
  rw [zrayFinalize_eq hread] at honce
  obtain rfl := Option.some.inj honce
  rw [sum_total_epochs hread hst tid hr f, total_eq_add hr, hlogged, hsame]
  conv_lhs => rw [hrecords]
  rw [List.map_append, List.map_singleton, List.sum_append, List.sum_singleton, recordUnscaled, add_left_comm]

/-- The epochs of every thread add up exactly when no counter jumps by `2 ^ 63` or more between two records of a
thread and the unscaled sums of a thread's records before the last come to nothing in every region. -/
theorem epochsAddUp_iff {inp : HostInput} {es : List LogEntry} {s : ByteStream}
    (hread : readRecords inp.maxSize (ofBytes inp.regionLog) inp.vars = some (es, s))
    (records : List (HostRecord inp.arraySize)) :
    EpochsAddUp inp records ↔
      (∀ tid, (threadRecords tid records).IsChain Advances) ∧
        ∀ tid, ∀ r : UInt64, r.toNat < inp.roiCount.toNat → ∀ f,
          ((threadRecords tid records).dropLast.map (recordUnscaled inp es r f)).sum = 0 := by
  constructor
  · rintro ⟨st, hst, hsum⟩
    refine ⟨(exists_main_iff hread).mp ⟨st, hst⟩, fun tid r hr f => ?_⟩
    cases hlast : (threadRecords tid records).getLast? with
    | none => simp [List.getLast?_eq_none_iff.mp hlast]
    | some last =>
      obtain ⟨once, honce, hcolumns⟩ := hsum tid last hlast
      have hsum := sum_total_epochs_eq hread hst hlast hr honce f
      exact add_eq_right.mp (hsum.symm.trans (hcolumns r hr (.field f)))
  · rintro ⟨hchain, hzero⟩
    obtain ⟨st, hst⟩ := (exists_main_iff hread).mpr hchain
    refine ⟨st, hst, fun tid last hlast => ⟨_, zrayFinalize_eq hread _ _, fun r hr c => ?_⟩⟩
    have hfield := fun f => sum_total_epochs_eq hread hst hlast hr (zrayFinalize_eq hread _ _) f
    simp only [hzero tid r hr, zero_add] at hfield
    rw [sum_reported]
    cases c <;> simp only [hfield, reported]

/-! ### One thread polled twice -/

/-- One region with one counter, of a block that reads four bytes. -/
def polledInput : HostInput where
  maxSize := 0
  regionLog := writtenLog [sampleRecord { bytesRead := 4 }]
  vars := clearedVars
  counterWidth := 1
  roiCount := 1

/-- A record of thread 7: the visits of the block and the bytes an intrinsic loaded, so far. -/
def polledRecord (visits loaded : UInt64) : HostRecord polledInput.arraySize where
  tid := 7
  counterArray := Vector.replicate _ visits
  timeDelta := 10
  loadRuntimeArray := Vector.replicate _ loaded
  storeRuntimeArray := Vector.replicate _ 0

/-- The block alone: two epochs add up. -/
theorem epochsAddUp_of_counters : EpochsAddUp polledInput [polledRecord 1 0, polledRecord 3 0] := by
  refine (epochsAddUp_iff (readRecords_writtenLog _ _) _).mpr ⟨?_, ?_⟩
  · intro tid
    by_cases htid : 7 = tid
    · subst htid
      exact List.isChain_pair.mpr (by decide)
    · simp [threadRecords, polledRecord, htid]
  · intro tid r hr f
    obtain rfl : r = 0 := UInt64.toNat_inj.mp (Nat.lt_one_iff.mp hr)
    by_cases htid : 7 = tid
    · subst htid
      cases f <;> decide
    · simp [threadRecords, polledRecord, htid]

/-- An intrinsic that loaded eight bytes before the first poll is reported in both epochs. -/
theorem not_epochsAddUp_of_intrinsic_loads :
    ¬ EpochsAddUp polledInput [polledRecord 1 8, polledRecord 3 8] := by
  rintro ⟨st, hst, hsum⟩
  have hlast : (threadRecords 7 [polledRecord 1 8, polledRecord 3 8]).getLast? = some (polledRecord 3 8) := by decide
  have hregion : (0 : UInt64).toNat < polledInput.roiCount.toNat := by decide
  obtain ⟨once, honce, hcolumns⟩ := hsum 7 _ hlast
  have hexcess := sum_total_epochs_eq (readRecords_writtenLog _ _) hst hlast hregion honce .intrinsicLoad
  have hzero := add_eq_right.mp (hexcess.symm.trans (hcolumns 0 hregion (.field .intrinsicLoad)))
  exact absurd hzero (by decide)

end ZRay.PostProcess
