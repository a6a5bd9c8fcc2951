import ZRay.System.HostFiles
import ZRay.Log.EpochTotals

/-!
# What the host log reports of a thread

The thread counts, the poll thread logs what it has counted so far, and `post_process` hands differences on.
When no other thread had the hash of a thread, its differences telescope, and the report of an epoch is additive
in the counters: the epochs of the thread and the report of what it counted after its last poll come to the
report of its own arrays (`epochs_add_unlogged`).
-/

namespace ZRay

open ByteStream PostProcess

/-- A field that the counters alone determine. -/
def SummedField.FromCounters (f : SummedField) : Prop := f ≠ .splitCounters ∧ f ≠ .intrinsicLoad ∧ f ≠ .intrinsicStore

/-- What `zray_finalize` of `post_process` makes of the arrays of a thread. -/
def PostProcess.report (inp : HostInput) (a : ThreadArrays inp.arraySize) : Option RegionLists :=
  zrayFinalize inp.maxSize (arraysOf inp.counterWidth a.counterArray a.loadRuntimeArray a.storeRuntimeArray)
    inp.regionLog inp.vars inp.roiCount.toNat

section

variable {inp : HostInput} {es : List LogEntry} {f : SummedField}

theorem unscaledTotal_eq_zero (hf : f.FromCounters) (m : RuntimeArrays) (n : Nat) (r : UInt64) :
    unscaledTotal m es n r f = 0 := by
  obtain ⟨hsplit, hload, hstore⟩ := hf
  have hnone : ∀ p i, m.unscaled f p i = 0 := by
    intro p i
    cases f <;> first | rfl | contradiction
  simp [unscaledTotal, weightedTotal, hnone]

theorem cellAt_add {n : Nat} {u v w : Vector UInt64 n} (h : ∀ i : Fin n, u.get i = v.get i + w.get i) (i : Int) :
    cellAt u i = cellAt v i + cellAt w i := by
  unfold cellAt
  by_cases hi : 0 ≤ i
  · simp only [if_pos hi]
    by_cases hn : i.toNat < n
    · rw [List.getD_eq_getElem _ _ (by simpa using hn), List.getD_eq_getElem _ _ (by simpa using hn),
        List.getD_eq_getElem _ _ (by simpa using hn)]
      simpa [Vector.get_eq_getElem] using h ⟨i.toNat, hn⟩
    · rw [List.getD_eq_default _ _ (by simpa using hn), List.getD_eq_default _ _ (by simpa using hn),
        List.getD_eq_default _ _ (by simpa using hn), add_zero]
  · simp only [if_neg hi, add_zero]

/-- The report is additive in the counters. -/
theorem counterTotal_add {n : Nat} {u v w : Vector UInt64 n} (h : ∀ i : Fin n, u.get i = v.get i + w.get i)
    (counterWidth : UInt64) (ul us vl vs wl ws : Vector UInt64 n) (regions : Nat) (r : UInt64) :
    counterTotal (arraysOf counterWidth u ul us) es regions r f =
      counterTotal (arraysOf counterWidth v vl vs) es regions r f +
        counterTotal (arraysOf counterWidth w wl ws) es regions r f := by
  unfold counterTotal
  refine weightedTotal_add ?_ ?_ fun p i => ?_
  · rw [arraysOf, arraysOf]
  · rw [arraysOf, arraysOf]
  · show p.scaled f * cellAt u i = p.scaled f * cellAt v i + p.scaled f * cellAt w i
    rw [cellAt_add h, UInt64.mul_add]

variable (inp) in
theorem report_total {s : ByteStream}
    (hread : readRecords inp.maxSize (ofBytes inp.regionLog) inp.vars = some (es, s)) (hf : f.FromCounters)
    (a : ThreadArrays inp.arraySize) :
    ∃ lists, report inp a = some lists ∧
      ∀ r : UInt64, r.toNat < inp.roiCount.toNat → lists.total r.toNat f =
        counterTotal (arraysOf inp.counterWidth a.counterArray a.loadRuntimeArray a.storeRuntimeArray) es
          inp.roiCount.toNat r f := by
  refine ⟨_, PostProcess.zrayFinalize_eq hread _ _, fun r hr => ?_⟩
  rw [total_eq_add hr, unscaledTotal_eq_zero hf, add_zero]

theorem cellAt_zero {n : Nat} (i : Int) : cellAt (Vector.replicate n (0 : UInt64)) i = 0 := by
  unfold cellAt
  by_cases hi : 0 ≤ i
  · rw [if_pos hi, Vector.toList_replicate]
    by_cases hn : i.toNat < n
    · rw [List.getD_eq_getElem _ _ (by simpa using hn), List.getElem_replicate]
    · rw [List.getD_eq_default _ _ (by simpa using hn)]
  · rw [if_neg hi]

theorem counterTotal_zero (load store : Vector UInt64 inp.arraySize) (regions : Nat) (r : UInt64) :
    counterTotal (arraysOf inp.counterWidth (Vector.replicate _ 0) load store) es regions r f = 0 := by
  have hzero : ∀ (p : ProfileData) (i : Int), p.scaled f *
      (arraysOf inp.counterWidth (Vector.replicate inp.arraySize 0) load store).counterArray i = 0 := by
    intro p i
    show p.scaled f * cellAt (Vector.replicate inp.arraySize 0) i = 0
    rw [cellAt_zero, UInt64.mul_zero]
  simp [counterTotal, weightedTotal, hzero]

/-- A thread id without a record has zeros for its last counters. -/
theorem lastCounterTotal_eq (logged : Option (Vector UInt64 inp.arraySize)) (r : UInt64)
    (load store : Vector UInt64 inp.arraySize) :
    lastCounterTotal inp es r f logged =
      counterTotal (arraysOf inp.counterWidth (logged.getD (Vector.replicate _ 0)) load store) es
        inp.roiCount.toNat r f := by
  cases logged with
  | some v => rfl
  | none => exact (counterTotal_zero load store _ r).symm

/-- What a thread counted after its last poll, in arrays of their own. -/
def unloggedArrays {ι : Type*} [DecidableEq ι] {n : Nat} (t : ι) (events : List (MonitorEvent ι n)) :
    ThreadArrays n :=
  { ThreadArrays.zero with counterArray := Vector.ofFn (unlogged t events) }

variable (inp) in
/-- A thread that was polled after its last increment has nothing unreported. -/
theorem report_unlogged_eq_zero {ι : Type*} [DecidableEq ι] {t : ι} {events : List (MonitorEvent ι inp.arraySize)}
    (hnone : ∀ cell, unlogged t events cell = 0) {s : ByteStream}
    (hread : readRecords inp.maxSize (ofBytes inp.regionLog) inp.vars = some (es, s)) (hf : f.FromCounters)
    {lost : RegionLists} (hlost : report inp (unloggedArrays t events) = some lost) {r : UInt64}
    (hr : r.toNat < inp.roiCount.toNat) : lost.total r.toNat f = 0 := by
  obtain ⟨lost', hlost', htotal⟩ := report_total inp hread hf (unloggedArrays t events)
  obtain rfl := Option.some.inj (hlost'.symm.trans hlost)
  have harray : (unloggedArrays t events).counterArray = Vector.replicate _ 0 := by
    refine Vector.ext fun i hi => ?_
    simp [unloggedArrays, hnone]
  rw [htotal r hr, harray]
  exact counterTotal_zero _ _ _ r

end

section

variable {ι : Type*} [DecidableEq ι] {hashID : ι → UInt64}

omit [DecidableEq ι] in
theorem OneAfterAnother.tid_eq {n : Nat} {log : List (ι × HostRecord n)} (h : OneAfterAnother hashID log) {t : ι}
    {record : HostRecord n} (hmem : (t, record) ∈ log) : record.tid = hashID t := by
  induction h with
  | nil => simp at hmem
  | @concat log t' record' _ htid _ ih =>
    rw [List.mem_append, List.mem_singleton, Prod.mk.injEq] at hmem
    rcases hmem with hmem | ⟨rfl, rfl⟩
    · exact ih hmem
    · exact htid

/-- The last record of a hash that one thread alone had is that thread's. -/
theorem lastLogged_of_unique {n : Nat} {s : MonitorState ι n} (hinv : LogInv hashID s) {t : ι}
    (hunique : ∀ t', s.accelInit t' = true → hashID t' = hashID t → t' = t) :
    (lastLogged (hashID t) s.records).getD (Vector.replicate n 0) = lastCounters t s.log := by
  rw [MonitorState.records, lastLogged_eq]
  cases hlast : lastOfHash (hashID t) s.log with
  | none =>
    have hnot : ¬ Logged t s.log := by
      rintro ⟨record, hmem⟩
      rw [lastOfHash, List.getLast?_eq_none_iff, List.filter_eq_nil_iff] at hlast
      exact hlast _ hmem (by simpa using hinv.order.tid_eq hmem)
    rw [lastCounters_of_not_logged hnot]
    rfl
  | some e =>
    obtain ⟨t', last⟩ := e
    have hmem := List.mem_of_getLast? hlast
    rw [List.mem_filter] at hmem
    have hhash : hashID t' = hashID t := by
      rw [← hinv.order.tid_eq hmem.1]
      simpa using hmem.2
    obtain rfl := hunique t' (hinv.accelInit t' ⟨last, hmem.1⟩) hhash
    rw [lastCounters_of_lastOfHash hinv.order hlast]
    rfl

variable {counterWidth roiCount : UInt64} {f₀ f : HostFiles}
  {events : List (MonitorEvent ι (polledSize counterWidth roiCount))}
  {s : MonitorState ι (polledSize counterWidth roiCount)}

/-- The file is read as the records that were logged. -/
theorem mainOfFile_logged (hf₀ : f₀.logfile = []) (h : ProcessRun hashID counterWidth roiCount f₀ events s f)
    (hlogged : s.records ≠ []) (inp : MainInput) :
    mainOfFile inp f.logBytes = ⟨inp.hostInput counterWidth roiCount,
      (main (inp.hostInput counterWidth roiCount) s.records).map fun st => (st, ⟨[], true⟩)⟩ := by
  rw [h.logBytes_eq hf₀ hlogged]
  exact readHostLog_written inp _ _ _ counterWidth roiCount s.records

theorem mainOfFile_of_main (hf₀ : f₀.logfile = []) (h : ProcessRun hashID counterWidth roiCount f₀ events s f)
    (hlogged : s.records ≠ []) {inp : MainInput} {st : HostState (inp.hostInput counterWidth roiCount).arraySize}
    (hst : main (inp.hostInput counterWidth roiCount) s.records = .ok st) :
    mainOfFile inp f.logBytes = ⟨inp.hostInput counterWidth roiCount, .ok (st, ⟨[], true⟩)⟩ := by
  rw [mainOfFile_logged hf₀ h hlogged, hst]
  rfl

/-- What the counters contribute to the epochs of a thread whose hash no other thread had, and what those it counted
after its last poll would, come to what its own counters do. -/
theorem sum_epochs_add_counterTotal (hf₀ : f₀.logfile = [])
    (h : ProcessRun hashID counterWidth roiCount f₀ events s f) (hlogged : s.records ≠ []) {inp : MainInput}
    {es : List LogEntry} {rest rest' : ByteStream}
    (hread : readRecords inp.maxSize (ofBytes inp.regionLog) inp.vars = some (es, rest))
    {st : HostState (inp.hostInput counterWidth roiCount).arraySize}
    (hmain : mainOfFile inp f.logBytes = ⟨inp.hostInput counterWidth roiCount, .ok (st, rest')⟩) {t : ι}
    (hunique : ∀ t', s.accelInit t' = true → hashID t' = hashID t → t' = t) {fld : SummedField}
    (hfld : fld.FromCounters) {r : UInt64} (hr : r.toNat < roiCount.toNat) :
    ((st.epochs.filter (·.tid == hashID t)).map fun e => e.lists.total r.toNat fld).sum +
        counterTotal (arraysOf counterWidth (unloggedArrays t events).counterArray
          (unloggedArrays t events).loadRuntimeArray (unloggedArrays t events).storeRuntimeArray) es roiCount.toNat r
          fld =
      counterTotal (arraysOf counterWidth (s.arrays t).counterArray (s.arrays t).loadRuntimeArray
        (s.arrays t).storeRuntimeArray) es roiCount.toNat r fld := by
  -- `main` got to the end of the records
  have hst : main (inp.hostInput counterWidth roiCount) s.records = .ok st := by
    rw [mainOfFile_logged hf₀ h hlogged] at hmain
    have hok := eq_of_heq (Sigma.mk.inj hmain).2
    cases hrun : main (inp.hostInput counterWidth roiCount) s.records with
    | error e =>
      rw [hrun] at hok
      exact absurd hok (by simp [Except.map])
    | ok st' =>
      rw [hrun] at hok
      rw [(Prod.mk.inj (Except.ok.inj hok)).1]
  have hepochs := sum_total_epochs hread hst (hashID t) hr fld
  have hunscaled : ((threadRecords (hashID t) s.records).map
      (recordUnscaled (inp.hostInput counterWidth roiCount) es r fld)).sum = 0 := by
    refine List.sum_eq_zero fun x hx => ?_
    obtain ⟨record, -, rfl⟩ := List.mem_map.mp hx
    exact unscaledTotal_eq_zero hfld _ _ _
  have hlast : lastCounterTotal (inp.hostInput counterWidth roiCount) es r fld (lastLogged (hashID t) s.records) =
      counterTotal (arraysOf counterWidth (lastCounters t s.log) (lastCounters t s.log) (lastCounters t s.log)) es
        roiCount.toNat r fld := by
    rw [← lastLogged_of_unique h.monitorRun.logInv hunique]
    exact lastCounterTotal_eq _ _ _ _
  have hcells : ∀ i, (s.arrays t).counterArray.get i =
      (lastCounters t s.log).get i + (unloggedArrays t events).counterArray.get i := by
    intro i
    have hcell := h.monitorRun.counters_eq t i
    simpa [Vector.get_eq_getElem, unloggedArrays] using hcell
  have hreported := hepochs.trans ((congrArg₂ (· + ·) hlast hunscaled).trans (add_zero _))
  rw [hreported]
  exact (counterTotal_add hcells _ _ _ _ _ _ _ _ _).symm

/-- When `post_process` gets to the end of the log of a process, the epochs of a thread whose hash no other thread
had, and the report of what it counted after its last poll, come to the report of its arrays. -/
theorem epochs_add_unlogged (hf₀ : f₀.logfile = []) (h : ProcessRun hashID counterWidth roiCount f₀ events s f)
    (hlogged : s.records ≠ []) {inp : MainInput} {es : List LogEntry} {rest rest' : ByteStream}
    (hread : readRecords inp.maxSize (ofBytes inp.regionLog) inp.vars = some (es, rest))
    {st : HostState (inp.hostInput counterWidth roiCount).arraySize}
    (hmain : mainOfFile inp f.logBytes = ⟨inp.hostInput counterWidth roiCount, .ok (st, rest')⟩) {t : ι}
    (hunique : ∀ t', s.accelInit t' = true → hashID t' = hashID t → t' = t) {fld : SummedField}
    (hfld : fld.FromCounters) :
    ∃ own lost, report (inp.hostInput counterWidth roiCount) (s.arrays t) = some own ∧
      report (inp.hostInput counterWidth roiCount) (unloggedArrays t events) = some lost ∧
      ∀ r : UInt64, r.toNat < roiCount.toNat →
        ((st.epochs.filter (·.tid == hashID t)).map fun e => e.lists.total r.toNat fld).sum + lost.total r.toNat fld =
          own.total r.toNat fld := by
  obtain ⟨own, hown, hownTotal⟩ := report_total (inp.hostInput counterWidth roiCount) hread hfld (s.arrays t)
  obtain ⟨lost, hlost, hlostTotal⟩ :=
    report_total (inp.hostInput counterWidth roiCount) hread hfld (unloggedArrays t events)
  refine ⟨own, lost, hown, hlost, fun r hr => ?_⟩
  rw [hlostTotal r hr, hownTotal r hr]
  exact sum_epochs_add_counterTotal hf₀ h hlogged hread hmain hunique hfld hr

end

/-! ### A thread polled twice, and ended after it counted once more -/

/-- A region log with one block that reads four bytes. -/
def readingInput : MainInput := { emptyInput with regionLog := writtenLog [sampleRecord { bytesRead := 4 }] }

def readingCell : Fin (polledSize 1 1) := ⟨0, by decide⟩

/-- The block runs twice before the first poll, three times before the second and once after it. -/
def polledTwice : List (MonitorEvent Unit (polledSize 1 1)) :=
  [.registerThread () 0] ++ [.increment () .counterArray readingCell 2] ++ pollEvents 7 () 5 ++
    [.increment () .counterArray readingCell 3] ++ pollEvents 7 () 9 ++ [.increment () .counterArray readingCell 1]

def polledTwiceRecord (visits timeDelta : UInt64) : HostRecord (polledSize 1 1) :=
  ⟨7, Vector.replicate _ visits, timeDelta, Vector.replicate _ 0, Vector.replicate _ 0⟩

theorem polledTwice_run : ∃ s, MonitorRun mainHash polledTwice s ∧
    s.records = [polledTwiceRecord 2 5, polledTwiceRecord 5 4] ∧
    s.arrays () = ⟨Vector.replicate _ 6, Vector.replicate _ 0, Vector.replicate _ 0⟩ := by
  have hnil : MonitorRun mainHash ([] : List (MonitorEvent Unit (polledSize 1 1))) .initial := .nil
  have hregister := hnil.concat (e := .registerThread () 0) ⟨rfl, .inr fun _ h => by cases h⟩
  have hcount := hregister.concat (e := .increment () .counterArray readingCell 2) ⟨rfl, rfl⟩
  have hpoll := hcount.pollEvents rfl rfl rfl hcount.only_hash 5
  have hcount' := hpoll.concat (e := .increment () .counterArray readingCell 3) ⟨rfl, rfl⟩
  have hpoll' := hcount'.pollEvents rfl rfl rfl hcount'.only_hash 9
  have hlast := hpoll'.concat (e := .increment () .counterArray readingCell 1) ⟨rfl, rfl⟩
  exact ⟨_, hlast, by decide, by decide⟩

theorem polledTwice_advances (tid : UInt64) :
    (threadRecords tid [polledTwiceRecord 2 5, polledTwiceRecord 5 4]).IsChain Advances := by
  by_cases htid : tid = 7
  · subst htid
    exact List.isChain_pair.mpr (by decide)
  · simp [threadRecords, polledTwiceRecord, Ne.symm htid]

/-- The two epochs report 20 bytes, and the four of the last run of the block are lost. -/
theorem epochs_add_unlogged_polledTwice :
    ∃ s f st rest, ProcessRun mainHash 1 1 .empty polledTwice s f ∧
      mainOfFile readingInput f.logBytes = ⟨readingInput.hostInput 1 1, .ok (st, rest)⟩ ∧
      ((st.epochs.filter (·.tid == 7)).map fun e => e.lists.total 0 .bytesRead).sum + 4 = 24 := by
  obtain ⟨s, hrun, hrecords, harrays⟩ := polledTwice_run
  obtain ⟨f, hf⟩ := hrun.exists_process .empty
  have hread : readRecords readingInput.maxSize (ofBytes readingInput.regionLog) readingInput.vars =
      some ([sampleRecord { bytesRead := 4 }].map fun e => e.2.entry, ⟨[], true⟩) := readRecords_writtenLog _ _
  have hlogged : s.records ≠ [] := by simp [hrecords]
  have hend : ∃ st, main (readingInput.hostInput 1 1) s.records = .ok st := by
    rw [hrecords]
    exact (exists_main_iff hread).mpr polledTwice_advances
  obtain ⟨st, hst⟩ := hend
  have hmain := mainOfFile_of_main rfl hf hlogged hst
  have hscaled : SummedField.bytesRead.FromCounters := ⟨by decide, by decide, by decide⟩
  obtain ⟨own, lost, hown, hlost, htotal⟩ := epochs_add_unlogged rfl hf hlogged hread hmain (t := ())
    (fun _ _ _ => rfl) hscaled
  have hownBytes : own.total 0 .bytesRead = 24 := by
    rw [harrays] at hown
    obtain rfl := Option.some.inj (hown.symm.trans (PostProcess.zrayFinalize_eq hread _ _))
    decide
  have hlostBytes : lost.total 0 .bytesRead = 4 := by
    obtain rfl := Option.some.inj (hlost.symm.trans (PostProcess.zrayFinalize_eq hread _ _))
    decide
  have hsum := htotal 0 (by decide)
  rw [show own.total (0 : UInt64).toNat .bytesRead = 24 from hownBytes,
    show lost.total (0 : UInt64).toNat .bytesRead = 4 from hlostBytes] at hsum
  exact ⟨s, f, st, _, hf, hmain, hsum⟩

end ZRay
