import ZRay.Log.RegionLog
import ZRay.Pass.BlockSizes
import ZRay.Pass.Clones
import ZRay.Pass.TagBlocks

/-!
# Emission

The whole pass on the code it changes, from the recorded regions on: the instructions of the program, the calls that
the pass puts between them, and the region log.  Whether counters are emitted (`-zraycounters`) is asked for in
`insertCounterArrayInc` and in `insertDynamicLoopEvent`; the increments that `recordInst` puts behind a memory
intrinsic whose size is known at run time only do not ask.

Sizes of blocks, the calls to be cloned and the profiles are read off the code as it is at the time, with whatever the
pass has put there.  What LLVM computes (dominators, loops, trip counts, the blocks made by splitting an edge, the
code of a trip count) is a parameter, `LLVM`.
-/

namespace ZRay.Pass.Emission

open Clones (CallInst)

variable {α β ν χ : Type*}

/-! ### Code -/

/-- The switches of the pass. -/
structure EmissionOptions extends PassOptions where
  fullScan : Bool := false
  enableHostMonitor : Bool := false
  applyMIRPass : Bool := false
  applyCounters : Bool := true

/-- An instruction of the program.  A call or invoke is another instruction when another function is called. -/
structure ProgramInst (α ν : Type*) where
  call : Option (CallInst α) := none
  withCall : Option (CallInst α) → Instruction ν

def ProgramInst.toInstruction (I : ProgramInst α ν) : Instruction ν := I.withCall I.call

/-- The instructions that make a trip count of a backedge-taken count: the cast to `i64` and the addition of 1. -/
inductive TripCountOp where
  | zExt
  | trunc
  | add
  deriving DecidableEq, Repr

/-- An instruction of the program, a call that the pass has put into the code, or an instruction of a trip count. -/
inductive Item (α ν : Type*) where
  | program (I : ProgramInst α ν)
  | emitted (call : EmittedCall ν)
  | tripCount (op : TripCountOp) (id : ν) (operand : Operand ν)

def TripCountOp.opcode : TripCountOp → Opcode
  | .zExt => .zExt
  | .trunc => .trunc
  | .add => .add

def TripCountOp.operands (operand : Operand ν) : TripCountOp → List (Operand ν)
  | .zExt | .trunc => [operand]
  | .add => [operand, EmittedCall.word]

/-- The item as `recordInst` sees it. -/
def Item.toInstruction [Inhabited ν] : Item α ν → Instruction ν
  | .program I => I.toInstruction
  | .emitted call => call.toInstruction default none
  | .tripCount op id operand => { id := id, opcode := op.opcode, operands := op.operands operand }

/-- A basic block: the `phi`s and the pad of an exception handler, what follows from the first insertion point on, and
the terminator. -/
structure Block (α ν : Type*) where
  heads : List (Instruction ν) := []
  body : List (Item α ν) := []
  terminator : ProgramInst α ν

def Block.size (b : Block α ν) : Nat := b.heads.length + b.body.length + 1

/-- The value of a backedge-taken count: a constant, or an operand of some width. -/
structure TripCount (ν : Type*) where
  operand : Operand ν
  isConstant : Bool
  bits : Nat
  castId : ν
  addId : ν
  printed : List Char

/-- `CreateIntCast` to `i64`; nothing when the width is right. -/
def TripCount.cast (v : TripCount ν) : List (Item α ν) :=
  if v.bits < 64 then [.tripCount .zExt v.castId v.operand]
  else if 64 < v.bits then [.tripCount .trunc v.castId v.operand]
  else []

/-- `CreateIntCast` and `CreateAdd`.  Constants are folded. -/
def TripCount.items (v : TripCount ν) : List (Item α ν) :=
  if v.isConstant then []
  else v.cast ++ [.tripCount .add v.addId (if v.bits = 64 then v.operand else .value v.castId false)]

/-- `dynSFInt64`. -/
def TripCount.result (v : TripCount ν) : Operand ν :=
  if v.isConstant then EmittedCall.word else .value v.addId false

/-! ### The module -/

/-- What LLVM computes of a function, whose control flow graph and program code are a `χ`.  `edgeBlock` is the block
that splitting the edge into a loop header makes, `splitEdges` the graph when the edges into the loops of a region
were split, and `expandCodeFor` the code of a backedge-taken count, with the blocks it goes to. -/
structure LLVM (α β ν χ : Type*) where
  blocks : χ → List β
  entryBlock : χ → β
  analysis : χ → FunctionAnalysis β
  header_mem : ∀ c, ∀ L ∈ (analysis c).loopInfo.nodes, L.header ∈ (analysis c).orderedCFG
  stackAddressList : χ → ν → Bool
  edgeBlock : χ → β → β
  splitEdges : χ → List β → List (Counter β) → χ
  mem_splitEdges : ∀ c bbList counters, ∀ x ∈ (analysis c).orderedCFG,
    x ∈ (analysis (splitEdges c bbList counters)).orderedCFG
  expandCodeFor : χ → β → List (β × ProgramInst α ν)
  tripCount : χ → β → TripCount ν

/-- The program's own instructions, and the exit calls that `recordPragmaRegions` leaves for the end markers. -/
def Item.IsOriginal : Item α ν → Prop
  | .program _ => True
  | .emitted (.endTimingEvent _) => True
  | _ => False

/-- The module after `runOnFunction`.  A block that a function does not have yet holds its branch only.  `cloneName`
is the name LLVM gives the clone of a function, which no function with a region has. -/
structure IRModule (α β ν χ : Type*) where
  llvm : LLVM α β ν χ
  cfg : α → χ
  code : α → β → Block α ν
  code_original : ∀ F x, ∀ i ∈ (code F x).body, i.IsOriginal
  modified : Bool
  prList : List (PragmaRegion α β)
  prList_blocks : ∀ PR ∈ prList, ∀ x ∈ PR.bbList, x ∈ (llvm.analysis (cfg PR.F)).orderedCFG
  cloneName : α → α
  cloneName_ne : ∀ PR ∈ prList, ∀ f, cloneName f ≠ PR.F
  isFunction : α → Bool
  isIntrinsic : α → Bool
  kmpcForkCall : α
  onThreadExit : α
  startsWithOmp : α → Bool
  main : Option α
  nameOf : Operand ν → List Char
  maxSize : UInt64
  name : α → List UInt8
  name_le : ∀ f, (name f).length ≤ maxSize.toNat

/-- A block as it was when it was recorded, with the graph of its function and the scale factor. -/
structure Turn (α ν χ : Type*) where
  cfg : χ
  block : Block α ν
  scaleFactor : UInt64

/-- A record of the region log, with the turns in which its profile was recorded. -/
structure CounterRecord (α ν χ : Type*) where
  event : CounterEvent
  functionName : α
  profile : ProfileData
  turns : List (Turn α ν χ)

/-- The members of `ZRayPass` that number counters and keep track of clones, and the local `maxIndirect`. -/
structure PassMembers (α : Type*) where
  cloneFunctionMap : List (α × Nat) := []
  clonedFunctionNames : List α := []
  pendingFunctionClones : List α := []
  globalCounterEventTotal : Nat := 0
  regionCounterEventTotal : Nat := 0
  regionCounterEventMax : Nat := 0
  indirectFunctionCounterOffset : Nat := 0
  maxIndirect : Nat := 0

/-- The module while the pass changes it: the code, the calls put into it so far, and the log. -/
structure IRState (α β ν χ : Type*) extends PassMembers α where
  cfg : α → χ
  code : α → β → Block α ν
  emitted : List (EmittedCall ν) := []
  pragmaRegionLog : List (CounterRecord α ν χ) := []

/-- The module as the pass finds it. -/
def IRModule.initial (m : IRModule α β ν χ) : IRState α β ν χ where
  cfg := m.cfg
  code := m.code

/-- The bytes of the region log.  `clearRecords` has set the padding of a profile to 0. -/
def IRState.zlog (m : IRModule α β ν χ) (s : IRState α β ν χ) : List UInt8 :=
  writtenLog (s.pragmaRegionLog.map fun r =>
    (r.event, (⟨r.profile, Vector.replicate 6 0, m.name r.functionName, m.name_le _⟩ : LogRecord m.maxSize)))

/-- The function as it is analysed, with the sizes its blocks have now. -/
def IRState.analysis (m : IRModule α β ν χ) (s : IRState α β ν χ) (F : α) : FunctionAnalysis β :=
  (m.llvm.analysis (s.cfg F)).withSize fun x => (s.code F x).size

section

variable [DecidableEq α] [DecidableEq β]

/-! ### Changes of the code -/

/-- One block is changed. -/
def IRState.modifyBlock (F : α) (x : β) (g : Block α ν → Block α ν) (s : IRState α β ν χ) : IRState α β ν χ :=
  { s with code := Function.update s.code F (Function.update (s.code F) x (g (s.code F x))) }

def IRState.setBody (F : α) (x : β) (body : List (Item α ν)) (s : IRState α β ν χ) : IRState α β ν χ :=
  s.modifyBlock F x fun b => { b with body := body }

omit [DecidableEq α] [DecidableEq β] in
/-- Calls that were put into the code. -/
def IRState.emit (calls : List (EmittedCall ν)) (s : IRState α β ν χ) : IRState α β ν χ :=
  { s with emitted := s.emitted ++ calls }

/-- A call at the first insertion point of a block. -/
def IRState.insertFirst (F : α) (x : β) (call : EmittedCall ν) (s : IRState α β ν χ) : IRState α β ν χ :=
  (s.setBody F x (.emitted call :: (s.code F x).body)).emit [call]

/-- An item in front of the terminator of a block. -/
def IRState.append (F : α) (x : β) (i : Item α ν) (s : IRState α β ν χ) : IRState α β ν χ :=
  s.setBody F x ((s.code F x).body ++ [i])

/-- A call in front of the terminator of a block. -/
def IRState.insertLast (F : α) (x : β) (call : EmittedCall ν) (s : IRState α β ν χ) : IRState α β ν χ :=
  (s.append F x (.emitted call)).emit [call]

/-! ### Clones -/

omit [DecidableEq β] in
/-- `CloneFunction`. -/
def cloneFunction (f newF : α) (s : IRState α β ν χ) : IRState α β ν χ :=
  { s with cfg := Function.update s.cfg newF (s.cfg f), code := Function.update s.code newF (s.code f) }

def Item.isStart : Item α ν → Bool
  | .emitted (.startTimingEvent _) => true
  | _ => false

def Item.isEnd : Item α ν → Bool
  | .emitted (.endTimingEvent _) => true
  | _ => false

omit [DecidableEq β] in
/-- `stripTimingEvents`: exit calls in a function without an entry call are removed. -/
def stripTimingEvents (m : IRModule α β ν χ) (F : α) (s : IRState α β ν χ) : IRState α β ν χ :=
  if (m.llvm.blocks (s.cfg F)).any fun x => (s.code F x).body.any Item.isStart then s
  else
    { s with
      code := Function.update s.code F fun x =>
        { s.code F x with body := (s.code F x).body.filter fun i => !i.isEnd } }

omit [DecidableEq β] in
/-- `processFunctionClone`. -/
def processFunctionClone (m : IRModule α β ν χ) (f : α) (pragmaRegionID : Nat) (s : IRState α β ν χ) :
    α × IRState α β ν χ :=
  if f ∈ s.cloneFunctionMap.map Prod.fst then (m.cloneName f, s)
  else if f ∈ s.clonedFunctionNames then (f, s)
  else
    let newF := m.cloneName f
    let s := stripTimingEvents m newF (cloneFunction f newF s)
    (newF, { s with
      cloneFunctionMap := s.cloneFunctionMap ++ [(f, pragmaRegionID)]
      clonedFunctionNames := s.clonedFunctionNames ++ [newF]
      pendingFunctionClones := s.pendingFunctionClones ++ [f] })

omit [DecidableEq β] in
/-- `processCallInst`, with the instruction it leaves.  A declared function has no blocks. -/
def processCallInst (opts : PassOptions) (m : IRModule α β ν χ) (pragmaRegionID : Nat) (callInst : CallInst α)
    (s : IRState α β ν χ) : CallInst α × IRState α β ν χ :=
  match callInst.calledFunction with
  | none => (callInst, s)
  | some f =>
    if m.isIntrinsic f then (callInst, s)
    else if (m.llvm.blocks (s.cfg f)).isEmpty then
      if opts.applyFunctionCloning ∧ f = m.kmpcForkCall then
        match callInst.ompName with
        | none => (callInst, s)
        | some f =>
          if m.isFunction f || decide (f ∈ s.clonedFunctionNames) then
            let (newF, s) := processFunctionClone m f pragmaRegionID s
            (if callInst.isConstantExpr then { callInst with ompName := some newF } else callInst, s)
          else (callInst, s)
      else (callInst, s)
    else if f = m.onThreadExit then (callInst, s)
    else if opts.applyFunctionCloning then
      let (newF, s) := processFunctionClone m f pragmaRegionID s
      ({ callInst with calledFunction := some newF }, s)
    else (callInst, s)

omit [DecidableEq β] in
/-- An instruction that may be a call or an invoke. -/
def processInst (opts : PassOptions) (m : IRModule α β ν χ) (pragmaRegionID : Nat) (I : ProgramInst α ν)
    (s : IRState α β ν χ) : ProgramInst α ν × IRState α β ν χ :=
  match I.call with
  | none => (I, s)
  | some callInst =>
    let (callInst, s) := processCallInst opts m pragmaRegionID callInst s
    ({ I with call := some callInst }, s)

omit [DecidableEq β] in
/-- The functions that the pass calls are declared only, and no calls are made to compute a trip count. -/
def processItem (opts : PassOptions) (m : IRModule α β ν χ) (pragmaRegionID : Nat) (i : Item α ν)
    (s : IRState α β ν χ) : Item α ν × IRState α β ν χ :=
  match i with
  | .program I =>
    let (I, s) := processInst opts m pragmaRegionID I s
    (.program I, s)
  | i => (i, s)

/-- The terminator of a block, which may be an invoke. -/
def processTerminator (opts : PassOptions) (m : IRModule α β ν χ) (pragmaRegionID : Nat) (F : α) (x : β)
    (s : IRState α β ν χ) : IRState α β ν χ :=
  let (I, s) := processInst opts m pragmaRegionID (s.code F x).terminator s
  s.modifyBlock F x fun b => { b with terminator := I }

/-- The items of a block behind `done`, before any instrumentation. -/
def processBody (opts : PassOptions) (m : IRModule α β ν χ) (pragmaRegionID : Nat) (F : α) (x : β) :
    List (Item α ν) → List (Item α ν) → IRState α β ν χ → IRState α β ν χ
  | _, [], s => s
  | done, i :: rest, s =>
    let (i, s) := processItem opts m pragmaRegionID i s
    processBody opts m pragmaRegionID F x (done ++ [i]) rest (s.setBody F x (done ++ i :: rest))

/-- The calls of a block of a region. -/
def processBlock (opts : PassOptions) (m : IRModule α β ν χ) (pragmaRegionID : Nat) (F : α) (s : IRState α β ν χ)
    (x : β) : IRState α β ν χ :=
  processTerminator opts m pragmaRegionID F x (processBody opts m pragmaRegionID F x [] (s.code F x).body s)

/-- The calls of the region blocks. -/
def processRegionCalls (opts : PassOptions) (m : IRModule α β ν χ) (s : IRState α β ν χ) : IRState α β ν χ :=
  m.prList.foldl (fun s PR => PR.bbList.foldl (processBlock opts m PR.pragmaRegionID PR.F) s) s

/-! ### Recording -/

/-- The profile that is recorded, the turns so far, and the module. -/
structure Recording (α β ν χ : Type*) where
  profile : ProfileData
  turns : List (Turn α ν χ) := []
  state : IRState α β ν χ

variable [Inhabited ν]

omit [DecidableEq α] [DecidableEq β] in
/-- The increment that `recordInst` puts behind a memory intrinsic. -/
def runtimeInc (m : IRModule α β ν χ) (stackAddressList : ν → Bool) (scaleFactor : UInt64) (i : Item α ν)
    (profile : ProfileData) : List (EmittedCall ν) :=
  let recorded := recordInst stackAddressList i.toInstruction scaleFactor profile
  (recorded.2.map fun inc => inc.emitted m.nameOf recorded.1 i.toInstruction).toList

/-- The items of a block behind `done`: an item is recorded, the increment behind it is recorded next, and a call is
pointed at a clone. -/
def recordBody (opts : PassOptions) (m : IRModule α β ν χ) (pragmaRegionID : Nat) (F : α) (x : β)
    (stackAddressList : ν → Bool) (scaleFactor : UInt64) :
    List (Item α ν) → List (Item α ν) → ProfileData → IRState α β ν χ → ProfileData × IRState α β ν χ
  | _, [], profile, s => (profile, s)
  | done, i :: rest, profile, s =>
    let calls := runtimeInc m stackAddressList scaleFactor i profile
    let incs := calls.map Item.emitted
    let profile := (recordInst stackAddressList i.toInstruction scaleFactor profile).1
    let (i', s) := processItem opts m pragmaRegionID i ((s.setBody F x (done ++ i :: (incs ++ rest))).emit calls)
    let profile := incs.foldl (fun p inc => (recordInst stackAddressList inc.toInstruction scaleFactor p).1) profile
    recordBody opts m pragmaRegionID F x stackAddressList scaleFactor (done ++ i' :: incs) rest profile
      (s.setBody F x (done ++ i' :: (incs ++ rest)))

/-- One block of `recordTagBlocks`. -/
def recordTagBlock (opts : PassOptions) (m : IRModule α β ν χ) (pragmaRegionID : Nat) (F : α) (scaleFactor : UInt64)
    (r : Recording α β ν χ) (x : β) : Recording α β ν χ :=
  let block := r.state.code F x
  let stackAddressList := m.llvm.stackAddressList (r.state.cfg F)
  let profile := block.heads.foldl (fun p I => (recordInst stackAddressList I scaleFactor p).1) r.profile
  let (profile, s) := recordBody opts m pragmaRegionID F x stackAddressList scaleFactor [] block.body profile r.state
  let profile := (recordInst stackAddressList block.terminator.toInstruction scaleFactor profile).1
  let s := processTerminator opts m pragmaRegionID F x s
  { profile := profile
    turns := r.turns ++ [⟨r.state.cfg F, block, scaleFactor⟩]
    state := s.insertFirst F x (.bbTag s.globalCounterEventTotal scaleFactor.toNat) }

/-- `recordTagBlocks`. -/
def recordTagBlocks (opts : PassOptions) (m : IRModule α β ν χ) (pragmaRegionID : Nat) (F : α) (pd : List β)
    (scaleFactor : UInt64) (r : Recording α β ν χ) : Recording α β ν χ :=
  pd.foldl (recordTagBlock opts m pragmaRegionID F scaleFactor) r

/-! ### Counters -/

/-- `insertCounterArrayInc`. -/
def insertCounterArrayInc (opts : EmissionOptions) (F : α) (x : β) (profile : ProfileData) (s : IRState α β ν χ) :
    IRState α β ν χ :=
  if !opts.applyCounters then s
  else s.insertFirst F x (.incrementCounterArray profile.pragmaRegionID.toNat profile.postDomSetID.toNat)

omit [DecidableEq α] [DecidableEq β] [Inhabited ν] in
/-- The record of a counter, and the counts: what `insertCustomEvent` does, and `insertDynamicLoopEvent` behind the
increment. -/
def writeRecord (event : CounterEvent) (F : α) (profile : ProfileData) (turns : List (Turn α ν χ)) (isIndirect : Bool)
    (s : IRState α β ν χ) : IRState α β ν χ :=
  { s with
    pragmaRegionLog := s.pragmaRegionLog ++ [⟨event, F, profile, turns⟩]
    globalCounterEventTotal := s.globalCounterEventTotal + 1
    regionCounterEventTotal := s.regionCounterEventTotal + 1
    indirectFunctionCounterOffset :=
      if isIndirect then s.indirectFunctionCounterOffset + 1 else s.indirectFunctionCounterOffset }

/-- `insertDynamicLoopEvent` up to the record: the code of the backedge-taken count, and with counters the trip count
and the increment by it, on the edge into the loop. -/
def insertDynamicLoopInc (opts : EmissionOptions) (m : IRModule α β ν χ) (F : α) (header : β) (profile : ProfileData)
    (s : IRState α β ν χ) : IRState α β ν χ :=
  let bb := m.llvm.edgeBlock (s.cfg F) header
  let dynSF := m.llvm.tripCount (s.cfg F) header
  let s := (m.llvm.expandCodeFor (s.cfg F) header).foldl (fun s e => s.append F e.1 (.program e.2)) s
  if opts.applyCounters then
    (dynSF.items.foldl (fun s i => s.append F bb i) s).insertLast F bb
      (.incrementCounterArraySF profile.pragmaRegionID.toNat profile.postDomSetID.toNat dynSF.result dynSF.printed)
  else s

omit [DecidableEq α] [DecidableEq β] [Inhabited ν] in
/-- The profile of the next counter, which takes the current id. -/
def newProfile (opts : EmissionOptions) (PR : PragmaRegion α β) (isIndirect : Bool) (s : IRState α β ν χ) :
    ProfileData :=
  clearedProfile (UInt64.ofNat PR.pragmaRegionID) (UInt64.ofNat PR.groupID)
    (UInt64.ofNat (if isIndirect then s.indirectFunctionCounterOffset else s.regionCounterEventTotal)) isIndirect
    opts.applyMIRPass

/-- `recordTagBlocks` for the blocks of a counter. -/
def recordCounter (opts : PassOptions) (m : IRModule α β ν χ) (pragmaRegionID : Nat) (F : α) (counter : Counter β)
    (r : Recording α β ν χ) : Recording α β ν χ :=
  match counter with
  | .postDomSet blocks => recordTagBlocks opts m pragmaRegionID F blocks 1 r
  | .scaleFactorSet _ pairs =>
    pairs.foldl (fun r e => recordTagBlocks opts m pragmaRegionID F e.1 (UInt64.ofNat e.2) r) r
  | .dynamicLoop _ blocks => recordTagBlocks opts m pragmaRegionID F blocks 1 r

/-- The increment of a counter. -/
def insertInc (opts : EmissionOptions) (m : IRModule α β ν χ) (F : α) (counter : Counter β) (profile : ProfileData)
    (s : IRState α β ν χ) : IRState α β ν χ :=
  match counter with
  | .postDomSet blocks =>
    match blocks.head? with
    | some anchor => insertCounterArrayInc opts F anchor profile s
    | none => s
  | .scaleFactorSet header _ => insertCounterArrayInc opts F (m.llvm.edgeBlock (s.cfg F) header) profile s
  | .dynamicLoop header _ => insertDynamicLoopInc opts m F header profile s

omit [DecidableEq β] in
/-- The writer of the record of a counter. -/
def counterEvent : Counter β → CounterEvent
  | .dynamicLoop _ _ => .insertDynamicLoopEvent
  | _ => .insertCustomEvent

/-- One counter: its blocks are recorded and tagged, it is incremented, and its record is written. -/
def emitCounter (opts : EmissionOptions) (m : IRModule α β ν χ) (PR : PragmaRegion α β) (isIndirect : Bool)
    (s : IRState α β ν χ) (counter : Counter β) : IRState α β ν χ :=
  let r := recordCounter opts.toPassOptions m PR.pragmaRegionID PR.F counter
    { profile := newProfile opts PR isIndirect s, state := s }
  writeRecord (counterEvent counter) PR.F r.profile r.turns isIndirect
    (insertInc opts m PR.F counter r.profile r.state)

/-! ### Regions and clones -/

omit [Inhabited ν] in
/-- The handler of a thread's exit, and its registration with the host monitor. -/
def insertThreadHandlers (opts : EmissionOptions) (m : IRModule α β ν χ) (F : α) (s : IRState α β ν χ) :
    IRState α β ν χ :=
  let entry := m.llvm.entryBlock (s.cfg F)
  if opts.enableHostMonitor then (s.insertFirst F entry .on_thread_exit_monitor).insertFirst F entry .register_thread
  else s.insertFirst F entry .on_thread_exit

omit [Inhabited ν] in
/-- The exit calls of a microtask, one at every return. -/
def insertReturnEvents (m : IRModule α β ν χ) (F : α) (pragmaRegionID : Nat) (s : IRState α β ν χ) :
    IRState α β ν χ :=
  (m.llvm.blocks (s.cfg F)).foldl (fun s x =>
    if (s.code F x).terminator.toInstruction.opcode = .ret then s.insertLast F x (.endTimingEvent pragmaRegionID)
    else s) s

omit [Inhabited ν] in
/-- The entry call of a region and, with `-full-scan`, its exit call; the entry and exit calls of a microtask clone.
The begin block and the end block were found before the counters were inserted. -/
def insertTimerEvents (opts : EmissionOptions) (m : IRModule α β ν χ) (PR : PragmaRegion α β) (isIndirect : Bool)
    (beginBlock endBlock : Option β) (s : IRState α β ν χ) : IRState α β ν χ :=
  if !isIndirect then
    let s := beginBlock.elim s fun x => s.insertFirst PR.F x (.startTimingEvent PR.pragmaRegionID)
    if opts.fullScan then endBlock.elim s fun x => s.insertLast PR.F x (.endTimingEvent PR.pragmaRegionID) else s
  else if m.startsWithOmp PR.F then
    (insertReturnEvents m PR.F PR.pragmaRegionID s).insertFirst PR.F (m.llvm.entryBlock (s.cfg PR.F))
      (.startTimingEvent PR.pragmaRegionID)
  else s

omit [DecidableEq β] [Inhabited ν] in
/-- The edges into the loops of the region are split. -/
def splitLoopEdges (m : IRModule α β ν χ) (PR : PragmaRegion α β) (counters : List (Counter β))
    (s : IRState α β ν χ) :
    IRState α β ν χ :=
  { s with cfg := Function.update s.cfg PR.F (m.llvm.splitEdges (s.cfg PR.F) PR.bbList counters) }

/-- `InstrumentPragmaRegion` on the module. -/
def instrumentPragmaRegion (opts : EmissionOptions) (m : IRModule α β ν χ) (isIndirect : Bool) (s : IRState α β ν χ)
    (PR : PragmaRegion α β) : IRState α β ν χ :=
  if PR.bbList.isEmpty then s
  else
    let s := if !isIndirect || m.startsWithOmp PR.F then insertThreadHandlers opts m PR.F s else s
    let fn := s.analysis m PR.F
    let counters := (InstrumentPragmaRegion opts.toPassOptions fn PR.bbList).getD []
    let s := counters.foldl (emitCounter opts m PR isIndirect) { s with regionCounterEventTotal := 0 }
    let s := insertTimerEvents opts m PR isIndirect (regionBeginBlock fn PR.bbList) (regionEndBlock fn PR.bbList)
      (splitLoopEdges m PR counters s)
    if !isIndirect && s.regionCounterEventMax < s.regionCounterEventTotal then
      { s with regionCounterEventMax := s.regionCounterEventTotal }
    else s

omit [DecidableEq β] [Inhabited ν] in
/-- `ClonePR`: the body of a clone, for the region that asked for the clone first. -/
def clonePR (m : IRModule α β ν χ) (key : α) (s : IRState α β ν χ) : PragmaRegion α β where
  pragmaRegionID := (s.cloneFunctionMap.lookup key).getD 0
  groupID := 0
  F := m.cloneName key
  bbList := (m.llvm.analysis (s.cfg (m.cloneName key))).orderedCFG

omit [DecidableEq α] [DecidableEq β] [Inhabited ν] in
/-- `maxIndirect` and `RegionCounterEventMax` behind a clone. -/
def raiseMax (s : IRState α β ν χ) : IRState α β ν χ :=
  if s.maxIndirect < s.indirectFunctionCounterOffset then
    { s with
      maxIndirect := s.indirectFunctionCounterOffset
      regionCounterEventMax := max s.regionCounterEventMax s.indirectFunctionCounterOffset }
  else s

/-- One pending clone. -/
def instrumentClone (opts : EmissionOptions) (m : IRModule α β ν χ) (s : IRState α β ν χ) (key : α) :
    IRState α β ν χ :=
  let s := instrumentPragmaRegion opts m true { s with indirectFunctionCounterOffset := s.regionCounterEventMax }
    (clonePR m key s)
  raiseMax { s with pendingFunctionClones := s.pendingFunctionClones.erase key }

/-- One round of the loop over the pending clones. -/
def cloneRound (opts : EmissionOptions) (m : IRModule α β ν χ) (s : IRState α β ν χ) : IRState α β ν χ :=
  s.pendingFunctionClones.foldl (instrumentClone opts m) s

omit [Inhabited ν] in
/-- `initMain`. -/
def initMain (opts : EmissionOptions) (m : IRModule α β ν χ) (s : IRState α β ν χ) : IRState α β ν χ :=
  m.main.elim s fun main =>
    let entry := m.llvm.entryBlock (s.cfg main)
    let s := s.insertFirst main entry (.zray_runtime_init m.prList.length s.globalCounterEventTotal)
    if opts.enableHostMonitor then s.insertFirst main entry .start_host_proc else s

/-- `runOnModule` from the recorded regions on, with so many rounds of the loop over the pending clones.  A round
without pending clones does nothing, so any number from the one at which the loop ends gives the result. -/
def runOnModule (opts : EmissionOptions) (m : IRModule α β ν χ) (rounds : Nat) : IRState α β ν χ :=
  if m.modified then
    let s := m.prList.foldl (instrumentPragmaRegion opts m false) (processRegionCalls opts.toPassOptions m m.initial)
    initMain opts m (if opts.applyFunctionCloning then (cloneRound opts m)^[rounds] s else s)
  else m.initial

/-! ### Rounds -/

theorem cloneRound_of_done (opts : EmissionOptions) (m : IRModule α β ν χ) {s : IRState α β ν χ}
    (h : s.pendingFunctionClones = []) : cloneRound opts m s = s := by
  rw [cloneRound, h, List.foldl_nil]

omit [Inhabited ν] in
theorem pendingFunctionClones_initMain (opts : EmissionOptions) (m : IRModule α β ν χ) (s : IRState α β ν χ) :
    (initMain opts m s).pendingFunctionClones = s.pendingFunctionClones := by
  unfold initMain
  cases m.main with
  | none => rfl
  | some main =>
    dsimp only [Option.elim]
    split <;> rfl

/-- Once no clones are pending, further rounds change nothing. -/
theorem runOnModule_of_done (opts : EmissionOptions) (m : IRModule α β ν χ) {rounds more : Nat}
    (hdone : (runOnModule opts m rounds).pendingFunctionClones = []) (hle : rounds ≤ more) :
    runOnModule opts m more = runOnModule opts m rounds := by
  obtain ⟨k, rfl⟩ := Nat.exists_eq_add_of_le' hle
  unfold runOnModule at hdone ⊢
  by_cases hmodified : m.modified
  · rw [if_pos hmodified] at hdone
    rw [if_pos hmodified, if_pos hmodified]
    by_cases hcloning : opts.applyFunctionCloning
    · dsimp only at hdone ⊢
      rw [if_pos hcloning, pendingFunctionClones_initMain] at hdone
      rw [if_pos hcloning, if_pos hcloning, Function.iterate_add_apply,
        Function.iterate_fixed (cloneRound_of_done opts m hdone)]
    · dsimp only
      rw [if_neg hcloning, if_neg hcloning]
  · rw [if_neg hmodified, if_neg hmodified]

end

end ZRay.Pass.Emission
