import ZRay.ControlFlow.Loops
import ZRay.Pass.HoistedTops
import ZRay.Pass.RegionBounds
import ZRay.Pass.Regions

/-!
# Counters run with their region open

The increment of a post-dominator set sits in a block of the region, and runs with the region open.  A hoisted counter
sits on the edge into its loop, and the loop is chosen by its place in the ordered block list: a loop that holds the
whole region is near it too, and its edge runs while the region is closed.  Since the depth on arrival at a header
does not depend on the path, one path decides for each loop (`sitesOpen_iff`).
-/

namespace ZRay.Pass

open FlowGraph BlockLists Nesting

variable {β : Type*}

/-- The region of group `g` is open on every edge into the loop. -/
def EnteredOpen (f : MarkedFunction β) (g : Nat) (L : Loop β) : Prop :=
  ∀ u p, f.graph.Walk f.graph.entry (u ++ [p]) p → p ∉ L.blocks → L.header ∈ f.graph.succs p →
    0 < openDepth g (f.trace (u ++ [p]))

/-- Some path arrives at `x` with the region of group `g` open. -/
def ReachedOpen (f : MarkedFunction β) (g : Nat) (x : β) : Prop :=
  ∃ u, f.graph.Walk f.graph.entry (u ++ [x]) x ∧ 0 < openDepth g (f.trace u)

/-- Every increment of the region runs with the region open: that of a post-dominator set in its first block, and a
hoisted one on the edges into its loop. -/
structure SitesOpen (f : MarkedFunction β) (g : Nat) (loopInfo : Forest (Loop β)) (counters : List (Counter β)) :
    Prop where
  anchor : ∀ a blocks, .postDomSet (a :: blocks) ∈ counters →
    ∀ u, f.graph.Walk f.graph.entry (u ++ [a]) a → OpenIn f (f.trace u) a g
  edge : ∀ c ∈ counters, ∀ L ∈ loopInfo.nodes, c.hoistedTo = some L.header → EnteredOpen f g L

/-- A loop is entered with the region open on every edge if and only if some path reaches its header so. -/
theorem enteredOpen_iff_reachedOpen {f : MarkedFunction β} (hwell : WellNested f) {L : Loop β}
    (hL : f.graph.NaturalLoop L.header L.blocks) (g : Nat) : EnteredOpen f g L ↔ ReachedOpen f g L.header := by
  constructor
  · intro hentered
    obtain ⟨u, hu, hout⟩ := hL.exists_entry
    have hne : u ≠ [] := by
      rintro rfl
      have hentry : f.graph.entry = L.header := by simpa using hu.source_mem
      exact hL.entry_not_mem (hentry ▸ hL.header_mem)
    obtain ⟨p, hp, hedge, -⟩ := hu.split_step hne
    obtain ⟨v, rfl⟩ := hp.exists_concat
    exact ⟨v ++ [p], hu, hentered v p hp (hout p (by simp)) hedge⟩
  · rintro ⟨v, hv, hpos⟩ u p hu hp hedge
    have harrive := hu.concat hedge (.single L.header)
    rwa [openDepth_congr hwell harrive hv g]

variable [DecidableEq β]

/-- The tree of the loops near a region. -/
def nearLoopTree (fn : FunctionAnalysis β) (bbList : List β) : Forest (LoopData β) :=
  createLoopTree (fun h => decide (NearRegion fn bbList h)) fn.backedgeTakenCount fn.loopInfo

/-- With natural loops, the loops in the bounds of a region are those near it. -/
theorem regionLoopTree_eq {g : FlowGraph β} {fn : FunctionAnalysis β} (horder : OrdersBlocks g fn)
    (hnatural : ∀ L ∈ fn.loopInfo.nodes, g.NaturalLoop L.header L.blocks) {bbList : List β} (hne : bbList ≠ [])
    (hreach : ∀ y ∈ bbList, g.Reachable y) : regionLoopTree fn bbList = nearLoopTree fn bbList := by
  refine createLoopTree_congr fun L hL => ?_
  rw [Bool.eq_iff_iff, decide_eq_true_eq]
  exact inBounds_regionBounds_iff horder.size_pos hne (fun y hy => horder.mem y (hreach y hy))
    (horder.mem _ (hnatural L hL).header_reachable)

/-- The increments of a region all run with the region open if and only if the hoisted ones belong to loops reached
with the region open; and the loops of the region are all entered from inside it if and only if every loop near it is
reached so. -/
theorem sitesOpen_iff (f : MarkedFunction β) (hwell : WellNested f) (base : Nat) (blocks : List (β × Nat))
    (hentry : f.splitInstrumentedBlocks.graph.entry ∈ blocks)
    (hblocks : ∀ x ∈ blocks, ∀ y ∈ f.splitInstrumentedBlocks.graph.succs x, y ∈ blocks) :
    ∃ s, recordFunction f.splitInstrumentedBlocks base blocks.length = some s ∧
      ∀ g ∈ groups s.groupList, ∀ (opts : PassOptions) (fn : FunctionAnalysis (β × Nat)),
        opts.applyLoopHoisting = true → OrdersBlocks f.splitInstrumentedBlocks.graph fn →
        LoopsWellFormed fn.loopInfo →
        (∀ L ∈ fn.loopInfo.nodes, f.splitInstrumentedBlocks.graph.NaturalLoop L.header L.blocks) →
        ∀ counters, InstrumentPragmaRegion opts fn (blocksOf g s.groupList) = some counters →
          (SitesOpen f.splitInstrumentedBlocks g fn.loopInfo counters ↔
            ∀ L, HoistedLoop fn (nearLoopTree fn (blocksOf g s.groupList)) (blocksOf g s.groupList) L →
              ReachedOpen f.splitInstrumentedBlocks g L.header) ∧
          ((∀ d ∈ (regionLoopTree fn (blocksOf g s.groupList)).nodes,
              EnteredOpen f.splitInstrumentedBlocks g d.loop) ↔
            ∀ L ∈ fn.loopInfo.nodes, NearRegion fn (blocksOf g s.groupList) L.header →
              ReachedOpen f.splitInstrumentedBlocks g L.header) := by
  obtain ⟨s, hs, hrec⟩ := recordPragmaRegions_recorded hwell.split base hentry hblocks
  refine ⟨s, hs, fun g hg opts fn hopt horder hwf hnatural counters hrun => ?_⟩
  have hne : blocksOf g s.groupList ≠ [] := by
    obtain ⟨x, ⟨w, hw⟩, hbegin⟩ := (hrec.mem_groups g).mp hg
    obtain ⟨u, rfl⟩ := hw.exists_concat
    have hcount : 0 < (f.splitInstrumentedBlocks.instrs x).count (.roiBegin g) := List.count_pos_iff.mpr hbegin
    exact List.ne_nil_of_mem ((hrec.mem_blocksOf hw g).mpr (by rw [OpenIn]; omega))
  have htree := regionLoopTree_eq horder hnatural hne (hrec.reachable g)
  have hiff := fun L hL => enteredOpen_iff_reachedOpen hwell.split (hnatural L hL) g
  obtain ⟨hmem, hhoisted⟩ := hoistedTo_instrumentPragmaRegion hopt hwf hne hrun
  rw [htree] at hhoisted ⊢
  constructor
  · constructor
    · intro hsites L hL
      obtain ⟨c, hc, hto⟩ := (hhoisted L.header).mpr ⟨L, hL, rfl⟩
      have hLmem : L ∈ fn.loopInfo.nodes := hL.mem_nodes
      exact (hiff L hLmem).mp (hsites.edge c hc L hLmem hto)
    · intro hall
      refine ⟨fun a rest hc u hu => ?_, fun c hc L hL hto => ?_⟩
      · exact (hrec.mem_blocksOf hu g).mp (hmem _ hc a List.mem_cons_self)
      · obtain ⟨M, hM, hheader⟩ := (hhoisted L.header).mp ⟨c, hc, hto⟩
        exact (hiff L hL).mpr (hheader ▸ hall M hM)
  · constructor
    · intro hall L hL hnear
      obtain ⟨d, hd, rfl⟩ : ∃ d ∈ (nearLoopTree fn (blocksOf g s.groupList)).nodes, d.loop = L :=
        mem_loops_createLoopTree.mpr ⟨hL, decide_eq_true hnear⟩
      exact (hiff _ hL).mp (hall d hd)
    · intro hall d hd
      obtain ⟨hL, hnear⟩ := mem_loops_createLoopTree.mp ⟨d, hd, rfl⟩
      exact (hiff _ hL).mpr (hall _ hL (of_decide_eq_true hnear))

/-! ### A region around a loop and a region inside one -/

/-- Block 0 leads into a loop on block 1, which leaves to block 2. -/
def markedLoop (instrs : Fin 3 → List Instr) : MarkedFunction (Fin 3) where
  graph :=
    { entry := 0
      succs
        | 0 => [1]
        | 1 => [1, 2]
        | 2 => [] }
  instrs := instrs

/-- The analyses of a split `markedLoop`: its blocks in the order they dominate each other, the block with the begin
marker, and a loop on `body` whose backedge is taken nine times. -/
def markedLoopAnalysis (ordered body : List (Fin 3 × Nat)) (beginBlock : Fin 3 × Nat) :
    FunctionAnalysis (Fin 3 × Nat) where
  orderedCFG := ordered
  size := fun _ => 3
  detectPragma := fun x => decide (x = beginBlock)
  trees :=
    { postDominates := fun a x => decide (ordered.idxOf x ≤ ordered.idxOf a)
      dominates := fun a x => decide (ordered.idxOf a ≤ ordered.idxOf x) }
  loopInfo := .node ⟨(1, 0), body⟩ .nil .nil
  backedgeTakenCount := fun _ => .constant 9
  beforeSplit := fun _ => .constant 9
  afterSplit := fun _ => .constant 9

private theorem markedLoop_natural {instrs : Fin 3 → List Instr} {ordered body : List (Fin 3 × Nat)}
    {beginBlock : Fin 3 × Nat}
    (hwalk : (markedLoop instrs).splitInstrumentedBlocks.graph.Reachable (1, 0)) (hentry : (0, 0) ∈ ordered)
    (hclosed : ∀ x ∈ ordered, ∀ y ∈ (markedLoop instrs).splitInstrumentedBlocks.graph.succs x, y ∈ ordered)
    (hheader : (1, 0) ∈ body) (hout : (0, 0) ∉ body)
    (hin : ∀ u ∈ ordered, u ∉ body → ∀ v ∈ (markedLoop instrs).splitInstrumentedBlocks.graph.succs u, v ∈ body →
      v = (1, 0))
    (hsuccs : ∀ x ∈ body, (markedLoop instrs).splitInstrumentedBlocks.graph.succs x ≠ []) :
    ∀ L ∈ (markedLoopAnalysis ordered body beginBlock).loopInfo.nodes,
      (markedLoop instrs).splitInstrumentedBlocks.graph.NaturalLoop L.header L.blocks := by
  intro L hL
  simp only [markedLoopAnalysis, Forest.nodes_node, Forest.nodes_nil, List.append_nil, List.mem_singleton] at hL
  subst hL
  refine ⟨hheader, hout, hwalk, fun u hu => hin u ?_, hsuccs⟩
  obtain ⟨w, hw⟩ := hu
  exact hw.mem_of_closed hclosed hentry

/-- The region lies around the loop. -/
def aroundLoop : MarkedFunction (Fin 3) :=
  markedLoop fun
    | 0 => [.roiBegin 7, .other]
    | 1 => [.other]
    | 2 => [.roiEnd 7, .other]

def aroundLoopAnalysis : FunctionAnalysis (Fin 3 × Nat) :=
  markedLoopAnalysis [(0, 0), (1, 0), (2, 0), (2, 1)] [(1, 0)] (0, 0)

/-- The region is the first part of the body of the loop. -/
def insideLoop : MarkedFunction (Fin 3) :=
  markedLoop fun
    | 1 => [.roiBegin 7, .other, .roiEnd 7, .other]
    | _ => [.other]

def insideLoopAnalysis : FunctionAnalysis (Fin 3 × Nat) :=
  markedLoopAnalysis [(0, 0), (1, 0), (1, 1), (2, 0)] [(1, 0), (1, 1)] (1, 0)

private theorem aroundLoop_wellNested : WellNested aroundLoop :=
  (StackNested.of_stacks (fun | 0 => [] | _ => [7]) (fun | 2 => [] | _ => [7]) rfl (by decide) (by decide)
    (by decide)).wellNested

private theorem insideLoop_wellNested : WellNested insideLoop :=
  (StackNested.of_stacks (fun _ => []) (fun _ => []) rfl (by decide) (fun _ _ _ => rfl) fun _ _ => rfl).wellNested

/-- Around the loop: the counter on the edge into the loop runs with the region open, and so do the others. -/
theorem sitesOpen_aroundLoop :
    ∃ s counters, recordFunction aroundLoop.splitInstrumentedBlocks 0 4 = some s ∧
      InstrumentPragmaRegion {} aroundLoopAnalysis (blocksOf 7 s.groupList) = some counters ∧
      SitesOpen aroundLoop.splitInstrumentedBlocks 7 aroundLoopAnalysis.loopInfo counters := by
  obtain ⟨s, hs, hiff⟩ := sitesOpen_iff aroundLoop aroundLoop_wellNested 0 [(0, 0), (1, 0), (2, 0), (2, 1)]
    (by decide) (by decide)
  have hgroups : (recordFunction aroundLoop.splitInstrumentedBlocks 0 4).map (fun s => groups s.groupList) =
      some [7] := by decide
  rw [show recordFunction aroundLoop.splitInstrumentedBlocks 0 4 = some s from hs, Option.map_some,
    Option.some.injEq] at hgroups
  obtain ⟨counters, hrun⟩ := exists_instrumentPragmaRegion {} aroundLoopAnalysis (blocksOf 7 s.groupList)
  have hwalk : aroundLoop.splitInstrumentedBlocks.graph.Walk (0, 0) aroundLoopAnalysis.orderedCFG (2, 1) :=
    .cons (by decide) (.cons (by decide) (.cons (by decide) (.single _)))
  have hheader : aroundLoop.splitInstrumentedBlocks.graph.Walk (0, 0) ([(0, 0)] ++ [(1, 0)]) (1, 0) :=
    .cons (by decide) (.single _)
  obtain ⟨hsites, -⟩ := hiff 7 (by simp [hgroups]) {} aroundLoopAnalysis rfl
    (.of_walk hwalk (by decide) fun _ => Nat.succ_pos 2)
    (by simp [LoopsWellFormed, aroundLoopAnalysis, markedLoopAnalysis])
    (markedLoop_natural ⟨_, hheader⟩ (by decide) (by decide) (by decide) (by decide) (by decide) (by decide))
    counters hrun
  refine ⟨s, counters, hs, hrun, hsites.mpr fun L hL => ?_⟩
  have hmem : L ∈ [(⟨(1, 0), [(1, 0)]⟩ : Loop (Fin 3 × Nat))] := hL.mem_nodes
  rw [List.mem_singleton.mp hmem]
  exact ⟨[(0, 0)], hheader, by decide⟩

/-- Inside the loop: the only counter of the region runs on the edge from block 0 into the loop, before the region is
entered. -/
theorem not_sitesOpen_insideLoop :
    WellNested insideLoop ∧ OrdersBlocks insideLoop.splitInstrumentedBlocks.graph insideLoopAnalysis ∧
      LoopsWellFormed insideLoopAnalysis.loopInfo ∧
      (∀ L ∈ insideLoopAnalysis.loopInfo.nodes,
        insideLoop.splitInstrumentedBlocks.graph.NaturalLoop L.header L.blocks) ∧
      ∃ s, recordFunction insideLoop.splitInstrumentedBlocks 0 4 = some s ∧ groups s.groupList = [7] ∧
        InstrumentPragmaRegion {} insideLoopAnalysis (blocksOf 7 s.groupList) =
          some [.scaleFactorSet (1, 0) [([(1, 0)], 10)]] ∧
        ¬ SitesOpen insideLoop.splitInstrumentedBlocks 7 insideLoopAnalysis.loopInfo
          [.scaleFactorSet (1, 0) [([(1, 0)], 10)]] ∧
        ¬ ∀ d ∈ (regionLoopTree insideLoopAnalysis (blocksOf 7 s.groupList)).nodes,
          EnteredOpen insideLoop.splitInstrumentedBlocks 7 d.loop := by
  have hwalk : insideLoop.splitInstrumentedBlocks.graph.Walk (0, 0) insideLoopAnalysis.orderedCFG (2, 0) :=
    .cons (by decide) (.cons (by decide) (.cons (by decide) (.single _)))
  have hheader : insideLoop.splitInstrumentedBlocks.graph.Walk (0, 0) ([(0, 0)] ++ [(1, 0)]) (1, 0) :=
    .cons (by decide) (.single _)
  -- block 0 is left for the loop with the region closed
  have hclosed : ¬ EnteredOpen insideLoop.splitInstrumentedBlocks 7 ⟨(1, 0), [(1, 0), (1, 1)]⟩ := by
    intro h
    have hopen := h [] (0, 0) (.single _) (by decide) (by decide)
    exact absurd hopen (by decide)
  refine ⟨insideLoop_wellNested, .of_walk hwalk (by decide) fun _ => Nat.succ_pos 2,
    by simp [LoopsWellFormed, insideLoopAnalysis, markedLoopAnalysis],
    markedLoop_natural ⟨_, hheader⟩ (by decide) (by decide) (by decide) (by decide) (by decide) (by decide), ?_⟩
  have hrun : (recordFunction insideLoop.splitInstrumentedBlocks 0 4).map (fun s => s.groupList) =
      some [(7, [(1, 0)])] := by decide
  obtain ⟨s, hs, hlist⟩ := Option.map_eq_some_iff.mp hrun
  refine ⟨s, hs, ?_⟩
  rw [hlist]
  refine ⟨rfl, by decide, fun hsites => ?_, fun hall => ?_⟩
  · exact hclosed (hsites.edge _ List.mem_cons_self _ List.mem_cons_self rfl)
  · have htree : (regionLoopTree insideLoopAnalysis (blocksOf 7 [(7, [(1, 0)])])).nodes =
        [⟨⟨(1, 0), [(1, 0), (1, 1)]⟩, [], 0, 10⟩] := by decide
    rw [htree] at hall
    exact hclosed (hall _ List.mem_cons_self)

end ZRay.Pass
