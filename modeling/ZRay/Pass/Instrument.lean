import ZRay.Pass.LoopTree
import ZRay.Pass.PostDomSets

/-!
# Instrumenting a region

`InstrumentPragmaRegion` on the block list of a region: the bounds of the region in the ordered block list, the loop
tree of the loops inside them, one hoisted counter for each scale-factor set (`instrumentSFLoopSet`), one for each
loop whose trip count is known at run time (`instrumentDynamicLoops`), and post-dominator sets for what is left.
Blocks move from the region's list, `pragmaBlocks`, to the counters.

The dominator trees are asked about blocks of the function only, and splitting an edge changes none of those answers;
scalar evolution is asked three times, and its answers are three parameters.
-/

namespace ZRay.Pass

variable {β : Type*} [DecidableEq β]

/-! ### Bounds of the region -/

/-- `INBOUNDS`: both ends included. -/
def inBounds (lower upper val : Nat) : Bool := decide (lower ≤ val) && decide (val ≤ upper)

/-- The offset of the end of a block: the sizes of the ordered blocks up to it. -/
def getBBOffset (size : β → Nat) (orderedCFG : List β) (bb : β) : Nat :=
  ((orderedCFG.take (orderedCFG.idxOf bb + 1)).map size).sum

/-- The sizes of the ordered blocks up to the second one before `bb`, the first block always included. -/
def getPreviousBBOffset (size : β → Nat) (orderedCFG : List β) (bb : β) : Nat :=
  ((orderedCFG.take (orderedCFG.idxOf bb - 2 + 1)).map size).sum

/-- The bounds `b`, `e` of a region and the block `beginBlock` with the least start. -/
structure RegionBounds (β : Type*) where
  b : Nat
  e : Nat
  beginBlock : Option β
  deriving DecidableEq, Repr

/-- One block of the region seen by the bounds loop. -/
def RegionBounds.visit (size : β → Nat) (orderedCFG : List β) (r : RegionBounds β) (bb : β) : RegionBounds β :=
  let tmp := getBBOffset size orderedCFG bb
  let r := if r.e < tmp then { r with e := tmp } else r
  if tmp - size bb < r.b then { r with b := tmp - size bb, beginBlock := some bb } else r

/-- The bounds of the block list `npd`, widened to the block before a `beginBlock` that holds a begin marker. -/
def regionBounds (size : β → Nat) (detectPragma : β → Bool) (orderedCFG npd : List β) : RegionBounds β :=
  match npd with
  | [] => ⟨0, 0, none⟩
  | first :: _ =>
    let start := getBBOffset size orderedCFG first
    let r := npd.foldl (RegionBounds.visit size orderedCFG) ⟨start, start, none⟩
    match r.beginBlock with
    | none => r
    | some beginBlock =>
      if detectPragma beginBlock then
        let tmp := getPreviousBBOffset size orderedCFG beginBlock
        if tmp < r.b then { r with b := tmp } else r
      else r

/-! ### What the pass reads -/

/-- The function a region lies in, as the analyses present it: the ordered blocks with their sizes and begin
markers, the dominator trees, the loop forest, and the backedge-taken counts of scalar evolution when the loop tree
is built, when a dynamic loop is visited, and after the edge into its header was split. -/
structure FunctionAnalysis (β : Type*) where
  orderedCFG : List β
  size : β → Nat
  detectPragma : β → Bool
  trees : DominatorTrees β
  loopInfo : Forest (Loop β)
  backedgeTakenCount : β → BackedgeTakenCount
  beforeSplit : β → BackedgeTakenCount
  afterSplit : β → BackedgeTakenCount

/-- Both block lists of a loop, taken out of the region's list. -/
structure LoopBlocks (β : Type*) where
  pd : List β
  npd : List β
  pragmaBlocks : List β

/-- Every block of the loop still in the region's list moves to one of two lists. -/
def takeLoopBlocks (inPD : β → Bool) : List β → List β → LoopBlocks β
  | [], pragmaBlocks => ⟨[], [], pragmaBlocks⟩
  | b :: uniqueBB, pragmaBlocks =>
    if b ∈ pragmaBlocks then
      let r := takeLoopBlocks inPD uniqueBB (pragmaBlocks.erase b)
      if inPD b then { r with pd := b :: r.pd } else { r with npd := b :: r.npd }
    else takeLoopBlocks inPD uniqueBB pragmaBlocks

/-! ### Scale-factor sets -/

/-- The state of `instrumentSFLoopSet`: the region's list, the next free set number, the lists of the set, and the
counters inserted so far. -/
structure SetState (β : Type*) where
  pragmaBlocks : List β
  loopSFSet : Nat
  headerPDBlocks : List (List β × Nat)
  counters : List (Counter β)

/-- Is the node chained to its parent's set? -/
def joinsParent (parent : Option (LoopData β)) (d : LoopData β) : Bool :=
  match parent with
  | none => false
  | some p => p.setColor = d.setColor

/-- Does the header post-dominate the parent's header? -/
def headerPostDominatesParent (trees : DominatorTrees β) (parent : Option (LoopData β)) (d : LoopData β) : Bool :=
  match parent with
  | none => false
  | some p => trees.postDominates d.loop.header p.loop.header

/-- One loop of a set: the blocks directly in it that post-dominate its header join the set's lists with the scale
factor `sf`, the others get post-dominator sets. -/
def SetState.takeLoop (opts : PassOptions) (trees : DominatorTrees β) (d : LoopData β) (sf : Nat) (s : SetState β) :
    SetState β :=
  let r := takeLoopBlocks (fun b => trees.postDominates b d.loop.header) (getUniqueLoopBB d) s.pragmaBlocks
  { s with
    pragmaBlocks := r.pragmaBlocks
    headerPDBlocks := s.headerPDBlocks ++ [(r.pd, sf)]
    counters := s.counters ++ instrumentPostDomSet opts trees r.npd }

/-- `instrumentSFLoopSet` on each node of a child list in turn.  The recursion returns the tree with the numbers it
has changed.  `size_t` multiplication wraps. -/
def instrumentSFLoopSet (opts : PassOptions) (trees : DominatorTrees β) (setID : Nat) :
    Option (LoopData β) → Nat → Forest (LoopData β) → SetState β → Forest (LoopData β) × SetState β
  | _, _, .nil, s => (.nil, s)
  | parent, outerSF, .node d ch sib, s =>
    if d.setColor ≠ setID then
      let (sib, s) := instrumentSFLoopSet opts trees setID parent outerSF sib s
      (.node d ch sib, s)
    else if joinsParent parent d && !headerPostDominatesParent trees parent d then
      -- the set is split: the subtree becomes a set of its own, processed later
      let d' := { d with setColor := s.loopSFSet }
      let ch := recolorSFLoopSet d.setColor s.loopSFSet ch
      let (sib, s) := instrumentSFLoopSet opts trees setID parent outerSF sib { s with loopSFSet := s.loopSFSet + 1 }
      (.node d' ch sib, s)
    else
      let sf := if joinsParent parent d then d.scaleFactor * outerSF % 2 ^ 64 else d.scaleFactor
      let (ch, s) := instrumentSFLoopSet opts trees setID (some d) sf ch (s.takeLoop opts trees d sf)
      let (sib, s) := instrumentSFLoopSet opts trees setID parent outerSF sib s
      (.node d ch sib, s)

/-- The state shared by the stages: the region's list and the counters inserted so far. -/
structure RegionState (β : Type*) where
  pragmaBlocks : List β
  counters : List (Counter β)

/-- One round of the loop over the sets, at the set's top node: the set's counter goes to the edge into its header. -/
def instrumentSet (opts : PassOptions) (trees : DominatorTrees β) (j loopSFSet : Nat) (s : RegionState β)
    (parent : Option (LoopData β)) (d : LoopData β) (ch : Forest (LoopData β)) :
    Forest (LoopData β) × Nat × RegionState β :=
  let (t, r) := instrumentSFLoopSet opts trees j parent 1 (.node d ch .nil)
    ⟨s.pragmaBlocks, loopSFSet, [], s.counters⟩
  (t, r.loopSFSet, ⟨r.pragmaBlocks, r.counters ++ [.scaleFactorSet d.loop.header r.headerPDBlocks]⟩)

/-- The loop over the sets, from set `j` on, for at most `fuel` rounds.  `none` is a set number with no node (a null
`lroot` in the source) or a loop that has not ended. -/
def instrumentSFLoopSets (opts : PassOptions) (trees : DominatorTrees β) :
    Nat → Nat → Nat → Forest (LoopData β) → RegionState β → Option (Forest (LoopData β) × RegionState β)
  | 0, j, loopSFSet, t, s => if j < loopSFSet then none else some (t, s)
  | fuel + 1, j, loopSFSet, t, s =>
    if j < loopSFSet then
      match findLoopTreeSet j (instrumentSet opts trees j loopSFSet s) none t with
      | none => none
      | some (t, loopSFSet, s) => instrumentSFLoopSets opts trees fuel (j + 1) loopSFSet t s
    else some (t, s)

/-! ### Dynamic loops -/

/-- `insertDynamicLoopCounter`: no counter for an empty block list, and none when scalar evolution has lost the trip
count after the edge was split. -/
def insertDynamicLoopCounter (afterSplit : BackedgeTakenCount) (header : β) (blocks : List β) : Option (Counter β) :=
  if blocks.isEmpty then none
  else if afterSplit.isHoistable then some (.dynamicLoop header blocks)
  else none

/-- One loop without a scale factor.  When the counter could not be inserted, the lists are cleared and the loop's
blocks are looked up in the region's list again. -/
def instrumentDynamicLoop (opts : PassOptions) (fn : FunctionAnalysis β) (d : LoopData β) (s : RegionState β) :
    RegionState β :=
  let header := d.loop.header
  let inPD := fun b => (fn.beforeSplit header).isHoistable && fn.trees.postDominates b header
  let r := takeLoopBlocks inPD (getUniqueLoopBB d) s.pragmaBlocks
  match insertDynamicLoopCounter (fn.afterSplit header) header r.pd with
  | some counter => ⟨r.pragmaBlocks, s.counters ++ counter :: instrumentPostDomSet opts fn.trees r.npd⟩
  | none =>
    if r.pd.isEmpty then ⟨r.pragmaBlocks, s.counters ++ instrumentPostDomSet opts fn.trees r.npd⟩
    else
      let r := takeLoopBlocks (fun _ => false) (getUniqueLoopBB d) r.pragmaBlocks
      ⟨r.pragmaBlocks, s.counters ++ instrumentPostDomSet opts fn.trees r.npd⟩

/-- `instrumentDynamicLoops`: the loops of color 0, in preorder. -/
def instrumentDynamicLoops (opts : PassOptions) (fn : FunctionAnalysis β) :
    Forest (LoopData β) → RegionState β → RegionState β
  | .nil, s => s
  | .node d ch sib, s =>
    let s := if d.setColor = 0 then instrumentDynamicLoop opts fn d s else s
    instrumentDynamicLoops opts fn sib (instrumentDynamicLoops opts fn ch s)

/-! ### The region -/

/-- The loop tree of a region with block list `bbList`. -/
def regionLoopTree (fn : FunctionAnalysis β) (bbList : List β) : Forest (LoopData β) :=
  let r := regionBounds fn.size fn.detectPragma fn.orderedCFG bbList
  createLoopTree (fun header => inBounds r.b r.e (getBBOffset fn.size fn.orderedCFG header - fn.size header))
    fn.backedgeTakenCount fn.loopInfo

/-- The loops of a region: scale-factor sets first, then the dynamic loops. -/
def instrumentLoops (opts : PassOptions) (fn : FunctionAnalysis β) (tree : Forest (LoopData β)) (s : RegionState β) :
    Option (RegionState β) :=
  let (tree, loopSFSet) := colorLoopTreeSF 0 1 tree
  (instrumentSFLoopSets opts fn.trees tree.nodes.length 1 loopSFSet tree s).map fun (tree, s) =>
    instrumentDynamicLoops opts fn tree s

/-- `InstrumentPragmaRegion`: the counters inserted for a region with block list `bbList`, in order. -/
def InstrumentPragmaRegion (opts : PassOptions) (fn : FunctionAnalysis β) (bbList : List β) :
    Option (List (Counter β)) :=
  if bbList.isEmpty then some []
  else
    let s := if opts.applyLoopHoisting then instrumentLoops opts fn (regionLoopTree fn bbList) ⟨bbList, []⟩
      else some ⟨bbList, []⟩
    s.map fun s => s.counters ++ instrumentPostDomSet opts fn.trees s.pragmaBlocks

end ZRay.Pass
