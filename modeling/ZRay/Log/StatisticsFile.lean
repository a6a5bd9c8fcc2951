import ZRay.Log.CsvReport

/-!
# The statistics files

`zray_application_stats.csv` of the runtime and of `post_process`.  Whoever reads the file after a run gets the rows
back that the calls wrote, each with a field for every column name, and the numbers in them add up.  In the runtime's
file every call has its own thread iteration, and a region's row says what the call computed for it
(`csv_rows_add_up`).  In the file of `post_process` the column holds the thread id.  There the rows of the regions
have an empty field more, so their instruction counts stand one column further right than the names, and the rows of a
thread come to the sum of its epochs (`PostProcess.csv_rows_of_epochs`).
-/

namespace ZRay

open ByteStream

/-! ### The rows of a region, in the runtime -/

/-- What the text depends on besides the profiles: the name in `/proc/self/comm`, and how a stream prints the two
bandwidths, which are doubles, of a profile, its counter increments and its time. -/
structure CsvOutput where
  appName : List Char
  bandwidths : ProfileData → UInt64 → UInt64 → List Char × List Char

structure CsvOutput.Clean (out : CsvOutput) : Prop where
  appName : Csv.CleanField out.appName
  readBW : ∀ p count time, Csv.CleanField (out.bandwidths p count time).1
  writeBW : ∀ p count time, Csv.CleanField (out.bandwidths p count time).2

/-- The column names of the runtime. -/
def csvHeader : List (List Char) :=
  ["App name", "Thread Iter", "Entry type", "Region", "Group ID", "Counter Index", "Function", "Time Elapsed (ns)",
    "Total Insns", "Counter Insns", "ZRay Counters Incremented", "Estimated Load BW (MB/s)",
    "Estimated Store BW (MB/s)", "Read Bytes", "Written Bytes", "Loads", "Stores", "Int Insns", "FP Insns",
    "Cast Inst", "Global Read", "Global Write", "Stack Read", "Stack Write", "Heap Read", "Heap Write",
    "Intrinsic Load", "Instrinsic Store"].map String.toList

/-- What `write_basicblock_csv` and `apply_indirect_counts` write. -/
def blockRow (out : CsvOutput) (logIteration : UInt64) (m : RuntimeArrays) (entryType : List Char) (e : BlockEntry) :
    List (List Char) :=
  [out.appName, number logIteration, entryType, number e.profile.pragmaRegionID, number e.profile.groupNumber,
    printSigned e.index, bytesText e.functionName, "NA".toList, number e.profile.totalInstCount,
    number e.profile.counterInstCount,
    number (m.counterArray e.index + m.loadRuntimeArray e.index + m.storeRuntimeArray e.index), "NA".toList,
    "NA".toList] ++ (mixColumns e.profile).map number

/-- What `zray_finalize` writes of a region; `LogIteration` has been increased by then, and 1 is subtracted again. -/
def regionRow (out : CsvOutput) (logIteration : UInt64) (totalTimeElapsed : Nat → UInt64) (i : Nat) (count : UInt64)
    (q : List UInt8 × ProfileData) : List (List Char) :=
  [out.appName, number logIteration, "Region".toList, Nat.toDigits 10 i, number q.2.groupNumber, "NA".toList,
    bytesText q.1, number (totalTimeElapsed i), number q.2.totalInstCount, number q.2.counterInstCount, number count,
    (out.bandwidths q.2 count (totalTimeElapsed i)).1, (out.bandwidths q.2 count (totalTimeElapsed i)).2] ++
    (mixColumns q.2).map number

def finalizeLayout (out : CsvOutput) (logIteration : UInt64) (m : RuntimeArrays) (totalTimeElapsed : Nat → UInt64) :
    CsvLayout where
  iteration := logIteration
  blockRow := blockRow out logIteration m
  regionRow := regionRow out logIteration totalTimeElapsed

/-- The columns that both kinds of rows fill from a profile. -/
def csvColumns : List CsvColumn :=
  [⟨8, 8, [.totalInstCount]⟩, ⟨9, 9, [.counterInstCount]⟩, ⟨13, 13, [.bytesRead, .intrinsicLoad]⟩,
    ⟨14, 14, [.bytesWritten, .intrinsicStore]⟩, ⟨15, 15, [.loadCount]⟩, ⟨16, 16, [.storeCount]⟩,
    ⟨17, 17, [.intInstructionCount]⟩, ⟨18, 18, [.fpInstructionCount]⟩, ⟨19, 19, [.castInstructionCount]⟩,
    ⟨20, 20, [.globalOpReadCount]⟩, ⟨21, 21, [.globalOpWriteCount]⟩, ⟨22, 22, [.stackReadCount]⟩,
    ⟨23, 23, [.stackWriteCount]⟩, ⟨24, 24, [.heapReadCount]⟩, ⟨25, 25, [.heapWriteCount]⟩, ⟨26, 26, [.intrinsicLoad]⟩,
    ⟨27, 27, [.intrinsicStore]⟩]

theorem sound_finalizeLayout (out : CsvOutput) (logIteration : UInt64) (m : RuntimeArrays)
    (totalTimeElapsed : Nat → UInt64) : (finalizeLayout out logIteration m totalTimeElapsed).Sound csvColumns where
  block_key _ _ := rfl
  block_type _ _ := rfl
  block_index _ _ := rfl
  block_cell := by
    intro c hc t e
    simp only [csvColumns, List.mem_cons, List.not_mem_nil, or_false] at hc
    rcases hc with rfl | rfl | rfl | rfl | rfl | rfl | rfl | rfl | rfl | rfl | rfl | rfl |
      rfl | rfl | rfl | rfl | rfl <;>
      simp [finalizeLayout, blockRow, mixColumns, fieldOf, CsvColumn.of, ProfileData.get]
  region_key _ _ _ := rfl
  region_type _ _ _ := rfl
  region_id _ _ _ := rfl
  region_cell := by
    intro c hc i n q
    simp only [csvColumns, List.mem_cons, List.not_mem_nil, or_false] at hc
    rcases hc with rfl | rfl | rfl | rfl | rfl | rfl | rfl | rfl | rfl | rfl | rfl | rfl |
      rfl | rfl | rfl | rfl | rfl <;>
      simp [finalizeLayout, regionRow, mixColumns, fieldOf, CsvColumn.of, ProfileData.get]

theorem cleanField_mixColumns (p : ProfileData) : ∀ field ∈ (mixColumns p).map number, Csv.CleanField field := by
  intro field hfield
  obtain ⟨x, -, rfl⟩ := List.mem_map.mp hfield
  exact cleanField_toDigits x.toNat

theorem cleanField_number (x : UInt64) : Csv.CleanField (number x) := cleanField_toDigits x.toNat

theorem fits_finalizeLayout {out : CsvOutput} (hout : out.Clean) (logIteration : UInt64) (m : RuntimeArrays)
    (totalTimeElapsed : Nat → UInt64) : (finalizeLayout out logIteration m totalTimeElapsed).Fits csvHeader where
  block := by
    intro t ht e hname
    have hlabels : ∀ t ∈ ["Basic Block".toList, "Cloned Basic Block".toList], Csv.CleanField t := by decide
    have htype := hlabels t ht
    refine ⟨⟨by simp [finalizeLayout, blockRow], fun field hfield => ?_⟩, rfl⟩
    simp only [finalizeLayout, blockRow, List.mem_append, List.mem_cons, List.not_mem_nil, or_false] at hfield
    rcases hfield with (rfl | rfl | rfl | rfl | rfl | rfl | rfl | rfl | rfl | rfl | rfl | rfl | rfl) | hfield
    all_goals first
      | exact hout.appName
      | exact cleanField_number _
      | exact htype
      | exact cleanField_printSigned _
      | exact hname
      | exact cleanField_mixColumns _ _ hfield
      | exact (by decide)
  region := by
    intro i n q hname
    refine ⟨⟨by simp [finalizeLayout, regionRow], fun field hfield => ?_⟩, rfl⟩
    simp only [finalizeLayout, regionRow, List.mem_append, List.mem_cons, List.not_mem_nil, or_false] at hfield
    rcases hfield with (rfl | rfl | rfl | rfl | rfl | rfl | rfl | rfl | rfl | rfl | rfl | rfl | rfl) | hfield
    all_goals first
      | exact hout.appName
      | exact cleanField_number _
      | exact cleanField_toDigits _
      | exact hname
      | exact hout.readBW _ _ _
      | exact hout.writeBW _ _ _
      | exact cleanField_mixColumns _ _ hfield
      | exact (by decide)

/-! ### The runtime's calls -/

/-- What all calls of the process share: the limit of strings, `ActiveGroupNumber`, `zray_region_log.bin`,
`ZRAY_CounterDimension` and `PragmaRegionCount`. -/
structure FinalizeInput where
  maxSize : UInt64
  activeGroupNumber : UInt64
  regionLog : List UInt8
  counterDimension : UInt64
  pragmaRegionCount : UInt64

/-- What a call of `zray_finalize` finds: the arrays and the times of its thread, and the variables of
`read_pd_sets`, which nothing initialises. -/
structure FinalizeCall where
  counterArray : Int → UInt64
  loadRuntimeArray : Int → UInt64
  storeRuntimeArray : Int → UInt64
  totalTimeElapsed : Nat → UInt64
  vars : LogVars

def FinalizeInput.arrays (inp : FinalizeInput) (call : FinalizeCall) : RuntimeArrays where
  counterDimension := inp.counterDimension
  counterArray := call.counterArray
  loadRuntimeArray := call.loadRuntimeArray
  storeRuntimeArray := call.storeRuntimeArray

/-- `zray_finalize`: the totals, and the file. -/
def zrayFinalizeCsv (inp : FinalizeInput) (out : CsvOutput) (csv : CsvFile) (call : FinalizeCall) :
    Option (RegionLists × CsvFile) :=
  (readPdSets inp.maxSize inp.activeGroupNumber (inp.arrays call) inp.regionLog call.vars
      (RegionLists.fresh inp.pragmaRegionCount.toNat)).map fun l =>
    (applyIndirectCounts (inp.arrays call) l,
      csv.write csvHeader
        (callRows (finalizeLayout out csv.logIteration (inp.arrays call) call.totalTimeElapsed) (inp.arrays call) l))

/-- The threads' calls, one after the other: `log_mutex` is held for a whole call. -/
def zrayFinalizeAll (inp : FinalizeInput) (out : CsvOutput) (csv : CsvFile) (calls : List FinalizeCall) :
    Option CsvFile :=
  calls.foldlM (fun csv call => (zrayFinalizeCsv inp out csv call).map Prod.snd) csv

/-- Writing the rows does not disturb the totals. -/
theorem zrayFinalizeCsv_fst (inp : FinalizeInput) (out : CsvOutput) (csv : CsvFile) (call : FinalizeCall) :
    (zrayFinalizeCsv inp out csv call).map Prod.fst =
      zrayFinalize inp.maxSize inp.activeGroupNumber (inp.arrays call) inp.regionLog call.vars
        inp.pragmaRegionCount.toNat := by
  rw [zrayFinalizeCsv, Option.map_map, zrayFinalize]
  rfl

/-- The call reads the whole region log, whose names can stand in a row, and whose counters have their cells in the
rows of their regions. -/
def FinalizeInput.Covers (inp : FinalizeInput) (call : FinalizeCall) : Prop :=
  ∃ es s, readRecords inp.maxSize (ofBytes inp.regionLog) call.vars = some (es, s) ∧ NamesClean es ∧
    WithinRows (groupSelected inp.activeGroupNumber) inp.counterDimension es inp.pragmaRegionCount.toNat

section

variable {inp : FinalizeInput} {out : CsvOutput}

/-- One call: its rows are appended under the next iteration, and they add up to its totals. -/
theorem zrayFinalizeCsv_eq (hout : out.Clean) {call : FinalizeCall} (h : inp.Covers call) (csv : CsvFile) :
    ∃ written : CsvCall,
      zrayFinalizeCsv inp out csv call = some (written.applied, csv.write csvHeader written.rows) ∧
      written.layout.iteration = csv.logIteration ∧
      zrayFinalize inp.maxSize inp.activeGroupNumber (inp.arrays call) inp.regionLog call.vars
        inp.pragmaRegionCount.toNat = some written.applied ∧
      written.Sums inp.counterDimension.toNat inp.pragmaRegionCount.toNat csvHeader csvColumns := by
  obtain ⟨es, s, hread, hnames, hrows⟩ := h
  have hn : inp.pragmaRegionCount.toNat ≤ 2 ^ 64 := by
    have hlt := inp.pragmaRegionCount.toNat_lt
    omega
  have hlists : readPdSets inp.maxSize inp.activeGroupNumber (inp.arrays call) inp.regionLog call.vars
      (RegionLists.fresh inp.pragmaRegionCount.toNat) =
      some (es.foldl (recordStep (groupSelected inp.activeGroupNumber) (fun _ => true) (inp.arrays call))
        (RegionLists.fresh inp.pragmaRegionCount.toNat)) := by
    rw [readPdSets, readLoop_eq, hread]
    rfl
  refine ⟨⟨finalizeLayout out csv.logIteration (inp.arrays call) call.totalTimeElapsed, inp.arrays call,
    es.foldl (recordStep (groupSelected inp.activeGroupNumber) (fun _ => true) (inp.arrays call))
      (RegionLists.fresh inp.pragmaRegionCount.toNat)⟩, ?_, rfl, ?_, ?_⟩
  · rw [zrayFinalizeCsv, hlists]
    rfl
  · rw [zrayFinalize, hlists]
    rfl
  · exact sums_callRows (m := inp.arrays call) (sound_finalizeLayout _ _ _ _) (fits_finalizeLayout hout _ _ _) hnames
      hrows hn _

/-- All calls: the rows of each stand in the file, under its own iteration. -/
theorem zrayFinalizeAll_eq (hout : out.Clean) {calls : List FinalizeCall} (h : ∀ call ∈ calls, inp.Covers call)
    (old : List Char) :
    ∃ written : List CsvCall,
      zrayFinalizeAll inp out ⟨0, old⟩ calls = some (CsvFile.writeAll csvHeader ⟨0, old⟩ written) ∧
      written.map (fun w => (w.layout.iteration, some w.applied)) = calls.zipIdx.map (fun q =>
        (UInt64.ofNat q.2, zrayFinalize inp.maxSize inp.activeGroupNumber (inp.arrays q.1) inp.regionLog q.1.vars
          inp.pragmaRegionCount.toNat)) ∧
      ∀ w ∈ written,
        w.Sums inp.counterDimension.toNat inp.pragmaRegionCount.toNat csvHeader csvColumns := by
  induction calls using List.reverseRecOn with
  | nil => exact ⟨[], rfl, rfl, by simp⟩
  | append_singleton calls call ih =>
    obtain ⟨written, hall, hmap, hsums⟩ := ih fun c hc => h c (List.mem_append_left _ hc)
    have hlen : written.length = calls.length := by simpa using congrArg List.length hmap
    obtain ⟨w, hcall, hiteration, htotal, hw⟩ :=
      zrayFinalizeCsv_eq hout (h call (by simp)) (CsvFile.writeAll csvHeader ⟨0, old⟩ written)
    rw [logIteration_writeAll, zero_add, hlen] at hiteration
    refine ⟨written ++ [w], ?_, ?_, ?_⟩
    · rw [zrayFinalizeAll] at hall ⊢
      rw [List.foldlM_append, hall, writeAll_concat]
      simp [hcall]
    · rw [List.map_append, hmap, List.zipIdx_append, List.map_append]
      simp [hiteration, htotal]
    · intro w' hw'
      rcases List.mem_append.mp hw' with hw' | hw'
      · exact hsums w' hw'
      · rw [List.mem_singleton.mp hw']
        exact hw

/-- Calls that are numbered through: one has a given number. -/
theorem filter_iteration {written : List CsvCall}
    (h : ∀ j (hj : j < written.length), written[j].layout.iteration = UInt64.ofNat j)
    (hlen : written.length ≤ 2 ^ 64) {k : Nat} (hk : k < written.length) :
    (written.filter fun w => UInt64.ofNat k == w.layout.iteration) = [written[k]] := by
  have hof : ∀ {j}, j < written.length → (UInt64.ofNat j).toNat = j := by
    intro j hj
    apply UInt64.toNat_ofNat_of_lt'
    show j < 2 ^ 64
    omega
  have hfilter : (written.zipIdx.filter fun q => UInt64.ofNat k == q.1.layout.iteration) =
      written.zipIdx.filter fun q => decide (q.2 = 0 + k) := by
    refine List.filter_congr fun q hq => ?_
    obtain ⟨hlt, hget⟩ := List.mem_zipIdx' hq
    rw [hget, h q.2 hlt, Nat.zero_add, Bool.eq_iff_iff, beq_iff_eq, decide_eq_true_eq]
    constructor
    · intro heq
      have hnat := congrArg UInt64.toNat heq
      rw [hof hk, hof hlt] at hnat
      omega
    · intro heq
      rw [heq]
  calc written.filter (fun w => UInt64.ofNat k == w.layout.iteration)
      = (written.zipIdx.map Prod.fst).filter fun w => UInt64.ofNat k == w.layout.iteration := by
        rw [List.zipIdx_map_fst]
    _ = (written.zipIdx.filter fun q => UInt64.ofNat k == q.1.layout.iteration).map Prod.fst := List.filter_map
    _ = [written[k]] := by rw [hfilter, filter_zipIdx_snd written 0 k hk, List.map_singleton]

end

/-! ### Two threads with a group selected -/

def namedOutput : CsvOutput where
  appName := "a.out".toList
  bandwidths := fun _ _ _ => ("0".toList, "0".toList)

theorem clean_namedOutput : namedOutput.Clean where
  appName := by decide
  readBW _ _ _ := by
    show Csv.CleanField "0".toList
    decide
  writeBW _ _ _ := by
    show Csv.CleanField "0".toList
    decide

def groupedInput : FinalizeInput where
  maxSize := 0
  activeGroupNumber := 1
  regionLog := writtenLog groupedEvents
  counterDimension := 2
  pragmaRegionCount := 2

def groupedCall : FinalizeCall where
  counterArray := groupedArrays.counterArray
  loadRuntimeArray := fun _ => 0
  storeRuntimeArray := fun _ => 0
  totalTimeElapsed := fun _ => 1000
  vars := clearedVars

theorem covers_groupedCall : groupedInput.Covers groupedCall := by
  refine ⟨_, _, readRecords_writtenLog groupedEvents clearedVars, ?_, ?_, ?_, by decide⟩
  · intro e he
    simp only [groupedEvents, List.map_cons, List.map_nil, List.mem_cons, List.not_mem_nil, or_false] at he
    rcases he with rfl | rfl | rfl <;> decide
  · intro e he
    simp only [groupedEvents, List.map_cons, List.map_nil, List.mem_cons, List.not_mem_nil, or_false] at he
    rcases he with rfl | rfl | rfl <;> decide
  · intro e he
    simp only [groupedEvents, List.map_cons, List.map_nil, List.mem_cons, List.not_mem_nil, or_false] at he
    rcases he with rfl | rfl | rfl <;> decide

end ZRay

namespace ZRay.PostProcess

open ByteStream

/-! ### The rows of a region, in `post_process` -/

/-- The column names of `post_process`; two of them begin with a blank. -/
def hostCsvHeader : List (List Char) :=
  ["App name", "Thread Iter", "Entry type", "Region", "Group ID", "Counter Index", "Function", "Time Elapsed (ns)",
    "Total Insns", "Counter Insns", "Counter Value", " Load Runtime Array Value", " Store Runtime Array Value",
    "Estimated Load BW (MB/s)", "Estimated Store BW (MB/s)", "Read Bytes", "Written Bytes", "Loads", "Stores",
    "Int Insns", "FP Insns", "Cast Inst", "Global Read", "Global Write", "Stack Read", "Stack Write", "Heap Read",
    "Heap Write", "Intrinsic Load", "Instrinsic Store"].map String.toList

/-- What `write_basicblock_csv` and `apply_indirect_counts` write, without hardware counters. -/
def hostBlockRow (out : CsvOutput) (tid : UInt64) (m : RuntimeArrays) (entryType : List Char) (e : BlockEntry) :
    List (List Char) :=
  [out.appName, number tid, entryType, number e.profile.pragmaRegionID, number e.profile.groupNumber,
    printSigned e.index, bytesText e.functionName, "NA".toList, number e.profile.totalInstCount,
    number e.profile.counterInstCount, number (m.counterArray e.index), number (m.loadRuntimeArray e.index),
    number (m.storeRuntimeArray e.index), "NA".toList, "NA".toList] ++ (mixColumns e.profile).map number

/-- What `zray_finalize` writes of a region.  Behind the time stand two commas, and only one
`NA` follows the count. -/
def hostRegionRow (out : CsvOutput) (tid timeDelta : UInt64) (i : Nat) (count : UInt64)
    (q : List UInt8 × ProfileData) : List (List Char) :=
  [out.appName, number tid, "Region".toList, Nat.toDigits 10 i, number q.2.groupNumber, "NA".toList, bytesText q.1,
    number timeDelta, [], number q.2.totalInstCount, number q.2.counterInstCount, number count, "NA".toList,
    (out.bandwidths q.2 count timeDelta).1, (out.bandwidths q.2 count timeDelta).2] ++ (mixColumns q.2).map number

def hostLayout (out : CsvOutput) (tid : UInt64) (m : RuntimeArrays) (timeDelta : UInt64) : CsvLayout where
  iteration := tid
  blockRow := hostBlockRow out tid m
  regionRow := hostRegionRow out tid timeDelta

/-- The columns of counts.  The rows of the regions have the first two one column further right. -/
def hostColumns : List CsvColumn :=
  [⟨8, 9, [.totalInstCount]⟩, ⟨9, 10, [.counterInstCount]⟩, ⟨15, 15, [.bytesRead, .intrinsicLoad]⟩,
    ⟨16, 16, [.bytesWritten, .intrinsicStore]⟩, ⟨17, 17, [.loadCount]⟩, ⟨18, 18, [.storeCount]⟩,
    ⟨19, 19, [.intInstructionCount]⟩, ⟨20, 20, [.fpInstructionCount]⟩, ⟨21, 21, [.castInstructionCount]⟩,
    ⟨22, 22, [.globalOpReadCount]⟩, ⟨23, 23, [.globalOpWriteCount]⟩, ⟨24, 24, [.stackReadCount]⟩,
    ⟨25, 25, [.stackWriteCount]⟩, ⟨26, 26, [.heapReadCount]⟩, ⟨27, 27, [.heapWriteCount]⟩, ⟨28, 28, [.intrinsicLoad]⟩,
    ⟨29, 29, [.intrinsicStore]⟩]

theorem sound_hostLayout (out : CsvOutput) (tid : UInt64) (m : RuntimeArrays) (timeDelta : UInt64) :
    (hostLayout out tid m timeDelta).Sound hostColumns where
  block_key _ _ := rfl
  block_type _ _ := rfl
  block_index _ _ := rfl
  block_cell := by
    intro c hc t e
    simp only [hostColumns, List.mem_cons, List.not_mem_nil, or_false] at hc
    rcases hc with rfl | rfl | rfl | rfl | rfl | rfl | rfl | rfl | rfl | rfl | rfl | rfl |
      rfl | rfl | rfl | rfl | rfl <;>
      simp [hostLayout, hostBlockRow, mixColumns, fieldOf, CsvColumn.of, ProfileData.get]
  region_key _ _ _ := rfl
  region_type _ _ _ := rfl
  region_id _ _ _ := rfl
  region_cell := by
    intro c hc i n q
    simp only [hostColumns, List.mem_cons, List.not_mem_nil, or_false] at hc
    rcases hc with rfl | rfl | rfl | rfl | rfl | rfl | rfl | rfl | rfl | rfl | rfl | rfl |
      rfl | rfl | rfl | rfl | rfl <;>
      simp [hostLayout, hostRegionRow, mixColumns, fieldOf, CsvColumn.of, ProfileData.get]

theorem fits_hostLayout {out : CsvOutput} (hout : out.Clean) (tid : UInt64) (m : RuntimeArrays) (timeDelta : UInt64) :
    (hostLayout out tid m timeDelta).Fits hostCsvHeader where
  block := by
    intro t ht e hname
    have hlabels : ∀ t ∈ ["Basic Block".toList, "Cloned Basic Block".toList], Csv.CleanField t := by decide
    have htype := hlabels t ht
    refine ⟨⟨by simp [hostLayout, hostBlockRow], fun field hfield => ?_⟩, rfl⟩
    simp only [hostLayout, hostBlockRow, List.mem_append, List.mem_cons, List.not_mem_nil, or_false] at hfield
    rcases hfield with
      (rfl | rfl | rfl | rfl | rfl | rfl | rfl | rfl | rfl | rfl | rfl | rfl | rfl | rfl | rfl) | hfield
    all_goals first
      | exact hout.appName
      | exact cleanField_number _
      | exact htype
      | exact cleanField_printSigned _
      | exact hname
      | exact cleanField_mixColumns _ _ hfield
      | exact (by decide)
  region := by
    intro i n q hname
    refine ⟨⟨by simp [hostLayout, hostRegionRow], fun field hfield => ?_⟩, rfl⟩
    simp only [hostLayout, hostRegionRow, List.mem_append, List.mem_cons, List.not_mem_nil, or_false] at hfield
    rcases hfield with
      (rfl | rfl | rfl | rfl | rfl | rfl | rfl | rfl | rfl | rfl | rfl | rfl | rfl | rfl | rfl) | hfield
    all_goals first
      | exact hout.appName
      | exact cleanField_number _
      | exact cleanField_toDigits _
      | exact hname
      | exact hout.readBW _ _ _
      | exact hout.writeBW _ _ _
      | exact cleanField_mixColumns _ _ hfield
      | exact (by decide)

/-! ### The epochs' rows -/

/-- The body of `main`'s loop, with the file that `zray_finalize` appends to. -/
def mainStepCsv (inp : HostInput) (out : CsvOutput) (s : HostState inp.arraySize × CsvFile)
    (record : HostRecord inp.arraySize) : Except HostStop (HostState inp.arraySize × CsvFile) :=
  let logged := s.1.counterLogs record.tid
  let counterArray := counterDelta record.counterArray logged
  let arrays := arraysOf inp.counterWidth counterArray record.loadRuntimeArray record.storeRuntimeArray
  if deltaOverflows record.counterArray logged then .error .counterOverflow
  else
    match PostProcess.readPdSets inp.maxSize arrays inp.regionLog inp.vars (RegionLists.fresh inp.roiCount.toNat) with
    | none => .error .lengthError
    | some l =>
      .ok
        ({ counterLogs := Function.update s.1.counterLogs record.tid (some record.counterArray)
           epochs := s.1.epochs ++ [⟨record.tid, counterArray, record.timeDelta, applyIndirectCounts arrays l⟩] },
          s.2.write hostCsvHeader (callRows (hostLayout out record.tid arrays record.timeDelta) arrays l))

/-- `main`, with the file; `old` is what stands in it before. -/
def mainCsv (inp : HostInput) (out : CsvOutput) (old : List Char) (records : List (HostRecord inp.arraySize)) :
    Except HostStop (HostState inp.arraySize × CsvFile) :=
  records.foldlM (mainStepCsv inp out) (⟨fun _ => none, []⟩, ⟨0, old⟩)

/-- The rows do not disturb the epochs. -/
theorem mainStepCsv_fst (inp : HostInput) (out : CsvOutput) (s : HostState inp.arraySize × CsvFile)
    (record : HostRecord inp.arraySize) : (mainStepCsv inp out s record).map Prod.fst = mainStep inp s.1 record := by
  simp only [mainStepCsv, mainStep, PostProcess.zrayFinalize]
  split
  · rfl
  · cases PostProcess.readPdSets inp.maxSize
        (arraysOf inp.counterWidth (counterDelta record.counterArray (s.1.counterLogs record.tid))
          record.loadRuntimeArray record.storeRuntimeArray)
        inp.regionLog inp.vars (RegionLists.fresh inp.roiCount.toNat) <;> rfl

section

variable {inp : HostInput} {out : CsvOutput} {records : List (HostRecord inp.arraySize)} {es : List LogEntry}
  {rest : ByteStream}

/-- One record: the rows of its epoch are appended under its thread id, and they add up to the epoch's totals. -/
theorem mainStepCsv_eq (hout : out.Clean)
    (hread : readRecords inp.maxSize (ofBytes inp.regionLog) inp.vars = some (es, rest)) (hnames : NamesClean es)
    (hrows : WithinRows (fun _ => true) inp.counterWidth es inp.roiCount.toNat)
    {s : HostState inp.arraySize × CsvFile} {record : HostRecord inp.arraySize} {st : HostState inp.arraySize}
    (h : mainStep inp s.1 record = .ok st) :
    ∃ (e : Epoch inp.arraySize) (w : CsvCall),
      mainStepCsv inp out s record = .ok (st, s.2.write hostCsvHeader w.rows) ∧ st.epochs = s.1.epochs ++ [e] ∧
      w.layout.iteration = e.tid ∧ w.applied = e.lists ∧
      w.Sums inp.counterWidth.toNat inp.roiCount.toNat hostCsvHeader hostColumns := by
  obtain ⟨hover, lists, hlists, rfl⟩ := mainStep_eq_ok_iff.mp h
  set m := arraysOf inp.counterWidth (counterDelta record.counterArray (s.1.counterLogs record.tid))
    record.loadRuntimeArray record.storeRuntimeArray with hm
  have hn : inp.roiCount.toNat ≤ 2 ^ 64 := by
    have hlt := inp.roiCount.toNat_lt
    omega
  have hpd : PostProcess.readPdSets inp.maxSize m inp.regionLog inp.vars (RegionLists.fresh inp.roiCount.toNat) =
      some (es.foldl (recordStep (fun _ => true) (fun p => p.postDomSetID != 0) m)
        (RegionLists.fresh inp.roiCount.toNat)) := by
    rw [PostProcess.readPdSets, readLoop_eq, hread]
    rfl
  rw [PostProcess.zrayFinalize, hpd, Option.map_some] at hlists
  obtain rfl := Option.some.inj hlists
  refine ⟨⟨record.tid, counterDelta record.counterArray (s.1.counterLogs record.tid), record.timeDelta, _⟩,
    ⟨hostLayout out record.tid m record.timeDelta, m,
      es.foldl (recordStep (fun _ => true) (fun p => p.postDomSetID != 0) m) (RegionLists.fresh inp.roiCount.toNat)⟩,
    ?_, rfl, rfl, rfl, ?_⟩
  · simp only [mainStepCsv]
    rw [if_neg (by rw [hover]; exact Bool.false_ne_true), ← hm, hpd]
    rfl
  · exact sums_callRows (m := m) (sound_hostLayout _ _ _ _) (fits_hostLayout hout _ _ _) hnames hrows hn _

/-- The whole log: every epoch has its rows in the file. -/
theorem mainCsv_eq (hout : out.Clean)
    (hread : readRecords inp.maxSize (ofBytes inp.regionLog) inp.vars = some (es, rest)) (hnames : NamesClean es)
    (hrows : WithinRows (fun _ => true) inp.counterWidth es inp.roiCount.toNat) (old : List Char)
    {st : HostState inp.arraySize} (h : main inp records = .ok st) :
    ∃ written : List CsvCall,
      mainCsv inp out old records = .ok (st, CsvFile.writeAll hostCsvHeader ⟨0, old⟩ written) ∧
      written.map (fun w => (w.layout.iteration, w.applied)) = st.epochs.map (fun e => (e.tid, e.lists)) ∧
      written.length = records.length ∧
      ∀ w ∈ written, w.Sums inp.counterWidth.toNat inp.roiCount.toNat hostCsvHeader hostColumns := by
  induction records using List.reverseRecOn generalizing st with
  | nil =>
    obtain rfl : st = ⟨fun _ => none, []⟩ := (Except.ok.inj h).symm
    exact ⟨[], rfl, rfl, rfl, by simp⟩
  | append_singleton records record ih =>
    obtain ⟨st₀, hst₀, hstep⟩ := main_concat_eq_ok_iff.mp h
    obtain ⟨written, hall, hmap, hlen, hsums⟩ := ih hst₀
    obtain ⟨e, w, hcsv, hepochs, htid, hlists, hw⟩ :=
      mainStepCsv_eq (s := (st₀, CsvFile.writeAll hostCsvHeader ⟨0, old⟩ written)) hout hread hnames hrows hstep
    refine ⟨written ++ [w], ?_, ?_, ?_, ?_⟩
    · rw [mainCsv] at hall ⊢
      rw [List.foldlM_append, hall, writeAll_concat]
      simp only [List.foldlM_cons, List.foldlM_nil, bind_pure]
      exact hcsv
    · rw [List.map_append, hmap, hepochs, List.map_append, List.map_singleton, List.map_singleton, htid, hlists]
    · rw [List.length_append, List.length_append, hlen]
      rfl
    · intro w' hw'
      rcases List.mem_append.mp hw' with hw' | hw'
      · exact hsums w' hw'
      · rw [List.mem_singleton.mp hw']
        exact hw

/-- The file of `post_process`: whoever reads it gets the column names and rows with a field for each of them.  For
every thread, region and column of counts, the rows of the region come to the sum over the thread's epochs, and so do
the rows of the counters whose cells lie in the region's row of the arrays. -/
theorem csv_rows_of_epochs (hout : out.Clean)
    (hread : readRecords inp.maxSize (ofBytes inp.regionLog) inp.vars = some (es, rest)) (hnames : NamesClean es)
    (hrows : WithinRows (fun _ => true) inp.counterWidth es inp.roiCount.toNat)
    (hchain : ∀ tid, (threadRecords tid records).IsChain Advances) (hne : records ≠ [])
    (hlen : records.length ≤ 2 ^ 64) (old : List Char) :
    ∃ st csv rows, main inp records = .ok st ∧ mainCsv inp out old records = .ok (st, csv) ∧
      Csv.parse csv.text = hostCsvHeader :: rows ∧ (∀ row ∈ rows, row.length = hostCsvHeader.length) ∧
      ∀ tid, ∀ i < inp.roiCount.toNat, ∀ c ∈ hostColumns,
        regionSum tid i c.region rows =
          ((st.epochs.filter fun e => tid == e.tid).map fun e => e.lists.column i c).sum ∧
        blockSum inp.counterWidth.toNat tid i c.block rows =
          ((st.epochs.filter fun e => tid == e.tid).map fun e => e.lists.column i c).sum := by
  obtain ⟨st, hst⟩ := (exists_main_iff hread).mpr hchain
  obtain ⟨written, hall, hmap, hsize, hsums⟩ := mainCsv_eq hout hread hnames hrows old hst
  have hnonempty : written ≠ [] := by
    rintro rfl
    exact hne (List.eq_nil_of_length_eq_zero hsize.symm)
  have hholds := holds_writeAll hsums hnonempty (by omega) old
  refine ⟨st, _, written.flatMap CsvCall.rows, hst, hall, hholds.parse (by decide),
    fun row hrow => (hholds.2 row hrow).2, fun tid i hi c hc => ?_⟩
  have hepochs : ((written.filter fun w => tid == w.layout.iteration).map fun w => w.applied.column i c) =
      (st.epochs.filter fun e => tid == e.tid).map fun e => e.lists.column i c := by
    have hpairs :=
      congrArg (fun l => (l.filter fun q : UInt64 × RegionLists => tid == q.1).map fun q => q.2.column i c)
      hmap
    simpa only [List.filter_map, List.map_map, Function.comp_def] using hpairs
  rw [regionSum_flatMap hsums tid hi hc, blockSum_flatMap hsums tid hi hc, hepochs]
  exact ⟨rfl, rfl⟩

end

/-! ### One thread polled twice, in the file -/

theorem polledRecord_advances (tid : UInt64) :
    (threadRecords tid [polledRecord 1 8, polledRecord 3 8]).IsChain Advances := by
  by_cases htid : tid = 7
  · subst htid
    exact List.isChain_pair.mpr (by decide)
  · simp [threadRecords, polledRecord, Ne.symm htid]

/-- Two epochs, of one and of two visits, which both report the eight bytes of an intrinsic. -/
theorem csv_rows_of_epochs_polled :
    ∃ st csv rows, mainCsv polledInput namedOutput [] [polledRecord 1 8, polledRecord 3 8] = .ok (st, csv) ∧
      Csv.parse csv.text = hostCsvHeader :: rows ∧ regionSum 7 0 15 rows = 28 ∧ blockSum 1 7 0 15 rows = 28 := by
  have hread : readRecords polledInput.maxSize (ofBytes polledInput.regionLog) polledInput.vars =
      some ([sampleRecord { bytesRead := 4 }].map fun e => e.2.entry, ⟨[], true⟩) := readRecords_writtenLog _ _
  have hnames : NamesClean ([sampleRecord { bytesRead := 4 }].map fun e => e.2.entry) := by
    intro e he
    rw [List.map_singleton, List.mem_singleton] at he
    rw [he]
    decide
  have hrows : WithinRows (fun _ => true) polledInput.counterWidth
      ([sampleRecord { bytesRead := 4 }].map fun e => e.2.entry) polledInput.roiCount.toNat := by
    refine ⟨?_, ?_, by decide⟩ <;> intro e he <;> rw [List.map_singleton, List.mem_singleton] at he <;> rw [he] <;>
      decide
  obtain ⟨st, csv, rows, hst, hcsv, hparse, -, hsums⟩ := csv_rows_of_epochs clean_namedOutput hread hnames hrows
    polledRecord_advances (List.cons_ne_nil _ _) (by decide) []
  obtain ⟨hregion, hblock⟩ := hsums 7 0 (by decide) ⟨15, 15, [.bytesRead, .intrinsicLoad]⟩ (by simp [hostColumns])
  have hbytes := sum_total_epochs hread hst 7 (r := 0) (by decide) .bytesRead
  have hloaded := sum_total_epochs hread hst 7 (r := 0) (by decide) .intrinsicLoad
  have htotal : ((st.epochs.filter fun e => 7 == e.tid).map fun e =>
      e.lists.column 0 ⟨15, 15, [.bytesRead, .intrinsicLoad]⟩).sum = 28 := by
    have hkey : (fun e : Epoch polledInput.arraySize => 7 == e.tid) = fun e => e.tid == 7 := by
      funext e
      exact BEq.comm
    have hcolumn : ∀ l : RegionLists, l.column 0 ⟨15, 15, [.bytesRead, .intrinsicLoad]⟩ =
        l.total (0 : UInt64).toNat .bytesRead + l.total (0 : UInt64).toNat .intrinsicLoad := by
      intro l
      simp [RegionLists.column]
    simp only [hkey, hcolumn]
    rw [List.sum_map_add, hbytes, hloaded]
    decide
  rw [htotal] at hregion hblock
  exact ⟨st, csv, rows, hcsv, hparse, hregion, hblock⟩

end ZRay.PostProcess
