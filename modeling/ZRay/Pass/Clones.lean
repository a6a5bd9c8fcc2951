import ZRay.Pass.CounterIds
import ZRay.Pass.Coverage
import ZRay.Pass.RegionBounds
import ZRay.Worklist

/-!
# Function clones

The module while the pass changes it.  The calls of the region blocks are pointed at clones first, then the
regions are instrumented, then the clones, whose own calls are pointed at clones while they are recorded
(`recordTagBlocks`).  A clone is a copy of the function as it is when the clone is made, so a call in it may
name an original function or a clone already.
-/

namespace ZRay.Pass.Clones

variable {α : Type*}

/-! ### The module -/

/-- A call or invoke instruction: its `getCalledFunction()`, the ".omp" name in the printed instruction, which for a
`__kmpc_fork_call` is the microtask in operand 2, and whether that operand is a constant expression. -/
structure CallInst (α : Type*) where
  calledFunction : Option α
  ompName : Option α := none
  isConstantExpr : Bool := false
  deriving DecidableEq, Repr

/-- What the pass reads and changes in a basic block: the calls of the program, the `#BB_TAG`s, which name the counter
the block was recorded for, and the entry and exit calls.  The calls the pass inserts name runtime functions, which
are linked in later, and are no `CallInst`s here; the blocks made by splitting an edge hold such calls only. -/
structure Block (α : Type*) where
  calls : List (CallInst α) := []
  bbTags : List Nat := []
  startEvents : List Nat := []
  endEvents : List Nat := []
  isReturn : Bool := false
  deriving DecidableEq, Repr

/-- The entry and exit calls of a block, and whether it returns. -/
def Block.events (b : Block α) : List Nat × List Nat × Bool := (b.startEvents, b.endEvents, b.isReturn)

/-- The module after `runOnFunction`, without tags yet.  A block is a function and a position in it, and a declared
function has no block.  `cloneName` is the name LLVM gives the clone of a function, new in the module. -/
structure IRModule (α : Type*) where
  functions : List α
  size : α → Nat
  code : α × Nat → Block α
  bbTags_nil : ∀ x, (code x).bbTags = []
  mem_functions : ∀ f, 0 < size f → f ∈ functions
  calledFunction_mem : ∀ x, ∀ c ∈ (code x).calls, ∀ f, c.calledFunction = some f → f ∈ functions
  isIntrinsic : α → Bool
  size_intrinsic : ∀ f, isIntrinsic f = true → size f = 0
  kmpcForkCall : α
  onThreadExit : α
  startsWithOmp : α → Bool
  prList : List (PragmaRegion α (α × Nat))
  prList_id : prList.map PragmaRegion.pragmaRegionID = List.range prList.length
  prList_blocks : ∀ PR ∈ prList, PR.F ∈ functions ∧ ∀ x ∈ PR.bbList, x.1 = PR.F
  prList_nodup : ∀ PR ∈ prList, PR.bbList.Nodup
  cloneName : α → α
  cloneName_notMem : ∀ f ∈ functions, cloneName f ∉ functions
  cloneName_inj : ∀ f ∈ functions, ∀ g ∈ functions, cloneName f = cloneName g → f = g
  orderBasicBlocks : α → List (α × Nat)
  orderBasicBlocks_fst : ∀ f, ∀ x ∈ orderBasicBlocks f, x.1 = f
  orderBasicBlocks_nodup : ∀ f, (orderBasicBlocks f).Nodup
  orderBasicBlocks_entry : ∀ f ∈ functions, 0 < size f → (cloneName f, 0) ∈ orderBasicBlocks (cloneName f)
  analysis : PragmaRegion α (α × Nat) → FunctionAnalysis (α × Nat)
  cloneAnalysis : α → FunctionAnalysis (α × Nat)
  loops_wellFormed : ∀ PR, LoopsWellFormed (analysis PR).loopInfo
  cloneLoops_wellFormed : ∀ f, LoopsWellFormed (cloneAnalysis f).loopInfo

/-- The module and the members of the pass that change with it.  `pragmaRegionLog` has the region id and `IsIndirect`
of each record written. -/
structure IRState (α : Type*) where
  size : α → Nat
  code : α × Nat → Block α
  prList : List (PragmaRegion α (α × Nat))
  cloneFunctionMap : List (α × Nat) := []
  clonedFunctionNames : List α := []
  pendingFunctionClones : List α := []
  globalCounterEventTotal : Nat := 0
  pragmaRegionLog : List (Nat × Bool) := []

/-- The functions with an entry in `CloneFunctionMap`. -/
def IRState.cloned (s : IRState α) : List α := s.cloneFunctionMap.map Prod.fst

/-- The module as the pass finds it. -/
def IRModule.initial (m : IRModule α) : IRState α where
  size := m.size
  code := m.code
  prList := m.prList

section

variable [DecidableEq α]

/-- One block is changed. -/
def IRState.modifyBlock (x : α × Nat) (g : Block α → Block α) (s : IRState α) : IRState α :=
  { s with code := Function.update s.code x (g (s.code x)) }

/-- `CloneFunction`: the blocks of `f` as they are now. -/
def cloneFunction (f newF : α) (s : IRState α) : IRState α :=
  { s with
    size := Function.update s.size newF (s.size f)
    code := fun x => if x.1 = newF then s.code (f, x.2) else s.code x }

/-- `stripTimingEvents`: exit calls in a function without an entry call are removed. -/
def stripTimingEvents (F : α) (s : IRState α) : IRState α :=
  if (List.range (s.size F)).all fun i => (s.code (F, i)).startEvents.isEmpty then
    { s with code := fun x => if x.1 = F then { s.code x with endEvents := [] } else s.code x }
  else s

/-- `processFunctionClone`. -/
def processFunctionClone (m : IRModule α) (f : α) (pragmaRegionID : Nat) (s : IRState α) : α × IRState α :=
  if f ∈ s.cloned then (m.cloneName f, s)
  else if f ∈ s.clonedFunctionNames then (f, s)
  else
    let newF := m.cloneName f
    let s := stripTimingEvents newF (cloneFunction f newF s)
    (newF, { s with
      cloneFunctionMap := s.cloneFunctionMap ++ [(f, pragmaRegionID)]
      clonedFunctionNames := s.clonedFunctionNames ++ [newF]
      pendingFunctionClones := s.pendingFunctionClones ++ [f] })

/-- Is there a function of this name in the module now? -/
def getFunction (m : IRModule α) (f : α) (s : IRState α) : Bool :=
  decide (f ∈ m.functions) || decide (f ∈ s.clonedFunctionNames)

/-- `processCallInst`, with the instruction it leaves. -/
def processCallInst (opts : PassOptions) (m : IRModule α) (pragmaRegionID : Nat) (callInst : CallInst α)
    (s : IRState α) : CallInst α × IRState α :=
  match callInst.calledFunction with
  | none => (callInst, s)
  | some f =>
    if m.isIntrinsic f then (callInst, s)
    else if s.size f = 0 then
      if opts.applyFunctionCloning ∧ f = m.kmpcForkCall then
        match callInst.ompName with
        | none => (callInst, s)
        | some f =>
          if getFunction m f s then
            let (newF, s) := processFunctionClone m f pragmaRegionID s
            (if callInst.isConstantExpr then { callInst with ompName := some newF } else callInst, s)
          else (callInst, s)
      else (callInst, s)
    else if f = m.onThreadExit then (callInst, s)
    else if opts.applyFunctionCloning then
      let (newF, s) := processFunctionClone m f pragmaRegionID s
      ({ callInst with calledFunction := some newF }, s)
    else (callInst, s)

/-- One instruction of a block. -/
def processInst (opts : PassOptions) (m : IRModule α) (pragmaRegionID : Nat) (block : α × Nat) (s : IRState α)
    (i : Nat) : IRState α :=
  match (s.code block).calls[i]? with
  | none => s
  | some callInst =>
    let (callInst, s) := processCallInst opts m pragmaRegionID callInst s
    s.modifyBlock block fun b => { b with calls := b.calls.set i callInst }

/-- The instructions of a block, from the first to the last. -/
def processBlock (opts : PassOptions) (m : IRModule α) (pragmaRegionID : Nat) (s : IRState α) (block : α × Nat) :
    IRState α :=
  (List.range (s.code block).calls.length).foldl (processInst opts m pragmaRegionID block) s

/-- `insertBBTag` at the first insertion point. -/
def insertBBTag (block : α × Nat) (s : IRState α) : IRState α :=
  s.modifyBlock block fun b => { b with bbTags := s.globalCounterEventTotal :: b.bbTags }

/-- One block of `recordTagBlocks`. -/
def recordTagBlock (opts : PassOptions) (m : IRModule α) (pragmaRegionID : Nat) (s : IRState α) (block : α × Nat) :
    IRState α :=
  insertBBTag block (processBlock opts m pragmaRegionID s block)

/-- One counter: `recordTagBlocks`, and the counter's record. -/
def emitCounter (opts : PassOptions) (m : IRModule α) (PR : PragmaRegion α (α × Nat)) (isIndirect : Bool)
    (s : IRState α) (counter : Counter (α × Nat)) : IRState α :=
  let s := counter.blocks.foldl (recordTagBlock opts m PR.pragmaRegionID) s
  { s with
    globalCounterEventTotal := s.globalCounterEventTotal + 1
    pragmaRegionLog := s.pragmaRegionLog ++ [(PR.pragmaRegionID, isIndirect)] }

/-- The entry call of a region in its begin block; the entry call of a microtask clone in its entry block and an exit
call at every return. -/
def insertTimerEvents (m : IRModule α) (PR : PragmaRegion α (α × Nat)) (isIndirect : Bool) (s : IRState α) :
    IRState α :=
  if !isIndirect then
    match regionBeginBlock (m.analysis PR) PR.bbList with
    | none => s
    | some beginBlock => s.modifyBlock beginBlock fun b =>
        { b with startEvents := PR.pragmaRegionID :: b.startEvents }
  else if m.startsWithOmp PR.F then
    let s :=
      { s with
        code := fun x =>
          if x.1 = PR.F ∧ (s.code x).isReturn then
            { s.code x with endEvents := (s.code x).endEvents ++ [PR.pragmaRegionID] }
          else s.code x }
    s.modifyBlock (PR.F, 0) fun b => { b with startEvents := PR.pragmaRegionID :: b.startEvents }
  else s

/-- The analysis of the function that a region or clone lies in. -/
def IRModule.analysisOf (m : IRModule α) (isIndirect : Bool) (PR : PragmaRegion α (α × Nat)) :
    FunctionAnalysis (α × Nat) :=
  if isIndirect then m.cloneAnalysis PR.F else m.analysis PR

/-- The counters of a region or clone; `InstrumentPragmaRegion` always has a result (`recorded_le_count`). -/
def IRModule.counters (opts : PassOptions) (m : IRModule α) (isIndirect : Bool) (PR : PragmaRegion α (α × Nat)) :
    List (Counter (α × Nat)) :=
  (InstrumentPragmaRegion opts (m.analysisOf isIndirect PR) PR.bbList).getD []

/-- `InstrumentPragmaRegion` on the module. -/
def instrumentPragmaRegion (opts : PassOptions) (m : IRModule α) (isIndirect : Bool) (s : IRState α)
    (PR : PragmaRegion α (α × Nat)) : IRState α :=
  if PR.bbList.isEmpty then s
  else insertTimerEvents m PR isIndirect ((m.counters opts isIndirect PR).foldl (emitCounter opts m PR isIndirect) s)

/-- `ClonePR`: the body of a clone, for the region that asked for the clone first. -/
def clonePR (m : IRModule α) (key : α) (s : IRState α) : PragmaRegion α (α × Nat) where
  pragmaRegionID := (s.cloneFunctionMap.lookup key).getD 0
  groupID := 0
  F := m.cloneName key
  bbList := m.orderBasicBlocks (m.cloneName key)

/-- One pending clone. -/
def instrumentClone (opts : PassOptions) (m : IRModule α) (s : IRState α) (key : α) : IRState α :=
  let PR := clonePR m key s
  let s := instrumentPragmaRegion opts m true { s with prList := s.prList ++ [PR] } PR
  { s with pendingFunctionClones := s.pendingFunctionClones.erase key }

/-- `PendingFunctionClones` and the body of the loop over it. -/
def cloneWorklist (opts : PassOptions) (m : IRModule α) : Worklist (IRState α) α where
  pending := IRState.pendingFunctionClones
  visit := instrumentClone opts m

/-- The calls of the region blocks, before any instrumentation. -/
def processRegionCalls (opts : PassOptions) (m : IRModule α) (s : IRState α) : IRState α :=
  m.prList.foldl (fun s PR => PR.bbList.foldl (processBlock opts m PR.pragmaRegionID) s) s

/-- `runOnModule` from the recorded regions to the end of the worklist, with a bound on the rounds. -/
def runOnModule (opts : PassOptions) (m : IRModule α) (fuel : Nat) : Option (IRState α) :=
  let s := m.prList.foldl (instrumentPragmaRegion opts m false) (processRegionCalls opts m m.initial)
  if opts.applyFunctionCloning then (cloneWorklist opts m).drain fuel s else some s

end

end ZRay.Pass.Clones
