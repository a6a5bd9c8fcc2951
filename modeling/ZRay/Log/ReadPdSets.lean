import ZRay.Log.RegionLog

/-!
# Reading the post-dominance sets

`read_pd_sets` and `apply_indirect_counts`, which the runtime and `post_process` share but for the group filter and
the entries counted: the profile of a counter, scaled by the counter's value in a region's row, is added to the
region.  A direct record names its region.  An indirect one, of a cloned function, is added to every region in a
second pass, which takes a region's row from the id that the first pass stored in the region's profile.
-/

namespace ZRay

open ByteStream

/-- `operator+`: the sums of the counts; the ids are those of `X`, and the flags are not set. -/
def ProfileData.add (X Y : ProfileData) : ProfileData where
  groupNumber := X.groupNumber
  pragmaRegionID := X.pragmaRegionID
  loadCount := X.loadCount + Y.loadCount
  floatLoadCount := X.floatLoadCount + Y.floatLoadCount
  storeCount := X.storeCount + Y.storeCount
  floatStoreCount := X.floatStoreCount + Y.floatStoreCount
  bytesRead := X.bytesRead + Y.bytesRead
  bytesWritten := X.bytesWritten + Y.bytesWritten
  intInstructionCount := X.intInstructionCount + Y.intInstructionCount
  fpInstructionCount := X.fpInstructionCount + Y.fpInstructionCount
  termInstructionCount := X.termInstructionCount + Y.termInstructionCount
  memInstructionCount := X.memInstructionCount + Y.memInstructionCount
  castInstructionCount := X.castInstructionCount + Y.castInstructionCount
  globalOpReadCount := X.globalOpReadCount + Y.globalOpReadCount
  globalOpWriteCount := X.globalOpWriteCount + Y.globalOpWriteCount
  stackReadCount := X.stackReadCount + Y.stackReadCount
  stackWriteCount := X.stackWriteCount + Y.stackWriteCount
  heapReadCount := X.heapReadCount + Y.heapReadCount
  heapWriteCount := X.heapWriteCount + Y.heapWriteCount
  otherInstCount := X.otherInstCount + Y.otherInstCount
  intrinsicLoad := X.intrinsicLoad + Y.intrinsicLoad
  intrinsicStore := X.intrinsicStore + Y.intrinsicStore
  totalInstCount := X.totalInstCount + Y.totalInstCount
  splitCounters := X.splitCounters + Y.splitCounters
  counterInstCount := X.counterInstCount + Y.counterInstCount

/-- The arrays of a thread around the pointers to them, and `ZRAY_CounterDimension`, the width of a region's row. -/
structure RuntimeArrays where
  counterDimension : UInt64
  counterArray : Int → UInt64
  loadRuntimeArray : Int → UInt64
  storeRuntimeArray : Int → UInt64

namespace RuntimeArrays

variable (m : RuntimeArrays)

/-- `int index`: the cell of a counter in a region's row, cut down to an `int`. -/
def index (postDomSetID pragmaRegionID : UInt64) : Int :=
  (postDomSetID + m.counterDimension * pragmaRegionID).toUInt32.toInt32.toInt

/-- `ApplyCounter`: the counts of one visit times the visits counted. -/
def applyCounter (p : ProfileData) (index : Int) : ProfileData :=
  { p with
    loadCount := p.loadCount * m.counterArray index
    floatLoadCount := p.floatLoadCount * m.counterArray index
    storeCount := p.storeCount * m.counterArray index
    floatStoreCount := p.floatStoreCount * m.counterArray index
    bytesRead := p.bytesRead * m.counterArray index
    bytesWritten := p.bytesWritten * m.counterArray index
    intInstructionCount := p.intInstructionCount * m.counterArray index
    fpInstructionCount := p.fpInstructionCount * m.counterArray index
    termInstructionCount := p.termInstructionCount * m.counterArray index
    memInstructionCount := p.memInstructionCount * m.counterArray index
    castInstructionCount := p.castInstructionCount * m.counterArray index
    globalOpReadCount := p.globalOpReadCount * m.counterArray index
    globalOpWriteCount := p.globalOpWriteCount * m.counterArray index
    stackReadCount := p.stackReadCount * m.counterArray index
    stackWriteCount := p.stackWriteCount * m.counterArray index
    heapReadCount := p.heapReadCount * m.counterArray index
    heapWriteCount := p.heapWriteCount * m.counterArray index
    otherInstCount := p.otherInstCount * m.counterArray index
    intrinsicLoad := p.intrinsicLoad * m.counterArray index
    intrinsicStore := p.intrinsicStore * m.counterArray index
    totalInstCount := p.totalInstCount * m.counterArray index
    counterInstCount := p.counterInstCount * m.counterArray index }

/-- `ApplyCounter`, and the runtime data added. -/
def applyArrays (p : ProfileData) (index : Int) : ProfileData :=
  let inProfile := m.applyCounter p index
  { inProfile with
    intrinsicLoad := inProfile.intrinsicLoad + m.loadRuntimeArray index
    intrinsicStore := inProfile.intrinsicStore + m.storeRuntimeArray index }

end RuntimeArrays

/-- The lists the totals are collected in.  An index outside a list changes nothing; in the source it is undefined. -/
structure RegionLists where
  regionProfileList : List (List UInt8 × ProfileData)
  regionProfileCounts : List UInt64
  counts : List (List UInt8 × ProfileData) := []
  indirectProfiles : List (List UInt8 × ProfileData) := []
  deriving DecidableEq, Repr

/-- Fresh lists for the given number of regions. -/
def RegionLists.fresh (pragmaRegionCount : Nat) : RegionLists where
  regionProfileList := List.replicate pragmaRegionCount ([], {})
  regionProfileCounts := List.replicate pragmaRegionCount 0

/-! ### `read_pd_sets` -/

/-- `RegionProfileList[r].second = RegionProfileList[r].second + p`. -/
def addProfile (l : List (List UInt8 × ProfileData)) (r : UInt64) (p : ProfileData) :
    List (List UInt8 × ProfileData) :=
  l.modify r.toNat fun q => (q.1, q.2.add p)

/-- `RegionProfileCounts[r] += c`. -/
def addCount (l : List UInt64) (r c : UInt64) : List UInt64 :=
  l.modify r.toNat (· + c)

/-- The body of the loop in `read_pd_sets` after a record was read.  `selected` is the group filter, `counted` the
condition under which the counter goes to `RegionProfileCounts`. -/
def recordStep (selected counted : ProfileData → Bool) (m : RuntimeArrays) (l : RegionLists) (e : LogEntry) :
    RegionLists :=
  if e.inProfile.isIndirect then
    { l with indirectProfiles := l.indirectProfiles ++ [(e.functionName, e.inProfile)] }
  else if selected e.inProfile then
    let index := m.index e.inProfile.postDomSetID e.inProfile.pragmaRegionID
    let inProfile := m.applyArrays e.inProfile index
    let named := l.regionProfileList.modify inProfile.pragmaRegionID.toNat fun q =>
      (e.functionName,
        { q.2 with groupNumber := inProfile.groupNumber, pragmaRegionID := inProfile.pragmaRegionID })
    { l with
      regionProfileList := addProfile named inProfile.pragmaRegionID inProfile
      regionProfileCounts :=
        if counted inProfile then addCount l.regionProfileCounts inProfile.pragmaRegionID (m.counterArray index)
        else l.regionProfileCounts
      counts := l.counts ++ [(e.functionName, inProfile)] }
  else l

/-- The group filter of the runtime. -/
def groupSelected (activeGroupNumber : UInt64) (p : ProfileData) : Bool :=
  !(activeGroupNumber != 0 && p.groupNumber != activeGroupNumber)

/-- `read_pd_sets` of the runtime.  `v` is what the variables of the loop hold at first. -/
def readPdSets (maxSize activeGroupNumber : UInt64) (m : RuntimeArrays) (logFile : List UInt8) (v : LogVars)
    (l : RegionLists) : Option RegionLists :=
  (readLoop maxSize (recordStep (groupSelected activeGroupNumber) (fun _ => true) m) (ofBytes logFile) v l).map
    Prod.fst

/-- `read_pd_sets` of `post_process`, which has no groups and leaves the first set of a region out of the counts. -/
def PostProcess.readPdSets (maxSize : UInt64) (m : RuntimeArrays) (logFile : List UInt8) (v : LogVars)
    (l : RegionLists) : Option RegionLists :=
  (readLoop maxSize (recordStep (fun _ => true) (fun p => p.postDomSetID != 0) m) (ofBytes logFile) v l).map Prod.fst

/-! ### `apply_indirect_counts` -/

/-- The inner loop's body: an indirect record added to the region whose profile was copied. -/
def indirectStep (m : RuntimeArrays) (pragmaRegionID : UInt64) (l : RegionLists)
    (indirProf : List UInt8 × ProfileData) : RegionLists :=
  let index := m.index indirProf.2.postDomSetID pragmaRegionID
  let tmpProf := m.applyArrays indirProf.2 index
  { l with
    regionProfileList := addProfile l.regionProfileList pragmaRegionID tmpProf
    regionProfileCounts := addCount l.regionProfileCounts pragmaRegionID (m.counterArray index) }

/-- `apply_indirect_counts`.  The outer loop copies each entry of the list when it gets to it. -/
def applyIndirectCounts (m : RuntimeArrays) (l : RegionLists) : RegionLists :=
  (List.range l.regionProfileList.length).foldl (fun l i =>
    let regionProfile := l.regionProfileList.getD i ([], {})
    l.indirectProfiles.foldl (indirectStep m regionProfile.2.pragmaRegionID) l) l

/-- `zray_finalize` of the runtime, as far as it computes the totals. -/
def zrayFinalize (maxSize activeGroupNumber : UInt64) (m : RuntimeArrays) (logFile : List UInt8) (v : LogVars)
    (pragmaRegionCount : Nat) : Option RegionLists :=
  (readPdSets maxSize activeGroupNumber m logFile v (RegionLists.fresh pragmaRegionCount)).map
    (applyIndirectCounts m)

/-- `zray_finalize` of `post_process`, as far as it computes the totals. -/
def PostProcess.zrayFinalize (maxSize : UInt64) (m : RuntimeArrays) (logFile : List UInt8) (v : LogVars)
    (pragmaRegionCount : Nat) : Option RegionLists :=
  (PostProcess.readPdSets maxSize m logFile v (RegionLists.fresh pragmaRegionCount)).map (applyIndirectCounts m)

/-! ### The fields that are summed -/

/-- The members that `operator+` adds. -/
inductive SummedField where
  | loadCount
  | floatLoadCount
  | storeCount
  | floatStoreCount
  | bytesRead
  | bytesWritten
  | intInstructionCount
  | fpInstructionCount
  | termInstructionCount
  | memInstructionCount
  | castInstructionCount
  | globalOpReadCount
  | globalOpWriteCount
  | stackReadCount
  | stackWriteCount
  | heapReadCount
  | heapWriteCount
  | otherInstCount
  | intrinsicLoad
  | intrinsicStore
  | totalInstCount
  | splitCounters
  | counterInstCount
  deriving DecidableEq, Repr

def ProfileData.get (p : ProfileData) : SummedField → UInt64
  | .loadCount => p.loadCount
  | .floatLoadCount => p.floatLoadCount
  | .storeCount => p.storeCount
  | .floatStoreCount => p.floatStoreCount
  | .bytesRead => p.bytesRead
  | .bytesWritten => p.bytesWritten
  | .intInstructionCount => p.intInstructionCount
  | .fpInstructionCount => p.fpInstructionCount
  | .termInstructionCount => p.termInstructionCount
  | .memInstructionCount => p.memInstructionCount
  | .castInstructionCount => p.castInstructionCount
  | .globalOpReadCount => p.globalOpReadCount
  | .globalOpWriteCount => p.globalOpWriteCount
  | .stackReadCount => p.stackReadCount
  | .stackWriteCount => p.stackWriteCount
  | .heapReadCount => p.heapReadCount
  | .heapWriteCount => p.heapWriteCount
  | .otherInstCount => p.otherInstCount
  | .intrinsicLoad => p.intrinsicLoad
  | .intrinsicStore => p.intrinsicStore
  | .totalInstCount => p.totalInstCount
  | .splitCounters => p.splitCounters
  | .counterInstCount => p.counterInstCount

@[simp] theorem ProfileData.get_add (X Y : ProfileData) (f : SummedField) : (X.add Y).get f = X.get f + Y.get f := by
  cases f <;> rfl

@[simp] theorem ProfileData.get_default (f : SummedField) : ({} : ProfileData).get f = 0 := by
  cases f <;> rfl

/-! ### The round trip -/

/-- What the writers put into the log, both readers decode in order and up to the end of the log, and each checksum
comes out as it was stored. -/
theorem regionLog_roundTrip {maxSize : UInt64} (events : List (CounterEvent × LogRecord maxSize)) (v : LogVars) :
    ∃ entries : List LogEntry,
      entries.map (fun e => (e.inProfile, e.functionName)) =
        events.map (fun e => (e.2.profile, e.2.functionName)) ∧
      (∀ e ∈ entries, e.inCheck = e.check) ∧
      readRecords maxSize (ofBytes (writtenLog events)) v = some (entries, ⟨[], true⟩) ∧
      (∀ activeGroupNumber m l, readPdSets maxSize activeGroupNumber m (writtenLog events) v l =
        some (entries.foldl (recordStep (groupSelected activeGroupNumber) (fun _ => true) m) l)) ∧
      (∀ m l, PostProcess.readPdSets maxSize m (writtenLog events) v l =
        some (entries.foldl (recordStep (fun _ => true) (fun p => p.postDomSetID != 0) m) l)) := by
  refine ⟨events.map fun e => e.2.entry, ?_, ?_, readRecords_writtenLog events v, ?_, ?_⟩
  · rw [List.map_map]
    rfl
  · intro e he
    obtain ⟨r, -, rfl⟩ := List.mem_map.mp he
    rfl
  · intro activeGroupNumber m l
    rw [readPdSets, readLoop_writtenLog, Option.map_some]
  · intro m l
    rw [PostProcess.readPdSets, readLoop_writtenLog, Option.map_some]

end ZRay
