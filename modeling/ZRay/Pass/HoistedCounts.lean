import Mathlib.Data.Nat.ModEq
import ZRay.ControlFlow.Loops
import ZRay.Pass.ControlEquivalence
import ZRay.Pass.ScaleFactorSets

/-!
# The chains of a hoisted set

A hoisted counter is advanced on the edge into a loop: by the trip count for the blocks of the loop itself, by the
product of the trip counts for the blocks of the loops chained below it.  The blocks were chosen because they
post-dominate the header, which says that they run at some time after the header, not that they run in each pass.
Where they do (`OncePerPass`), and the loops of a chain are entered once in each pass of their parents
(`EnteredOncePerPass`), the multiplier of a loop of the set is what a stretch of the set's top loop executes
(`SetChain.count_modEq`).
-/

namespace ZRay.Pass

open FlowGraph

variable {β : Type*} [DecidableEq β]

/-! ### The chains of a set -/

/-- The multiplier `sf` of a loop of the set whose top loop is `top`: every loop below the top hangs on a loop of the
set whose header its own header post-dominates. -/
inductive SetChain (trees : DominatorTrees β) (tree : Forest (LoopData β)) (top : LoopData β) :
    LoopData β → Nat → Prop
  | top : SetChain trees tree top top top.scaleFactor
  | child {p d : LoopData β} {sf : Nat} : SetChain trees tree top p sf → (some p, d) ∈ tree.parentPairs none →
      d.scaleFactor ≠ 0 → trees.postDominates d.loop.header p.loop.header = true →
      SetChain trees tree top d (d.scaleFactor * sf % 2 ^ 64)

/-- A pair of the set's lists: the multiplier of a loop of the set, with blocks directly in the loop
that post-dominate its header. -/
def FromChain (trees : DominatorTrees β) (tree : Forest (LoopData β)) (top : LoopData β) (pr : List β × Nat) : Prop :=
  ∃ d, SetChain trees tree top d pr.2 ∧
    ∀ b ∈ pr.1, b ∈ getUniqueLoopBB d ∧ trees.postDominates b d.loop.header = true

theorem of_mem_pd_takeLoopBlocks {inPD : β → Bool} {uniqueBB pool : List β} {x : β}
    (hx : x ∈ (takeLoopBlocks inPD uniqueBB pool).pd) : x ∈ uniqueBB ∧ inPD x = true := by
  induction uniqueBB generalizing pool with
  | nil => simp [takeLoopBlocks] at hx
  | cons b bs ih =>
    unfold takeLoopBlocks at hx
    split at hx
    · dsimp only at hx
      split at hx
      · rename_i hin
        rcases List.mem_cons.mp hx with rfl | hx
        · exact ⟨List.mem_cons_self, hin⟩
        · exact ⟨List.mem_cons_of_mem b (ih hx).1, (ih hx).2⟩
      · exact ⟨List.mem_cons_of_mem b (ih hx).1, (ih hx).2⟩
    · exact ⟨List.mem_cons_of_mem b (ih hx).1, (ih hx).2⟩

/-- The lists a loop of the set contributes. -/
private theorem fromChain_takeLoop {opts : PassOptions} {trees : DominatorTrees β} {tree : Forest (LoopData β)}
    {top d : LoopData β} {sf : Nat} {s : SetState β} (hchain : SetChain trees tree top d.uncolored sf)
    (hs : ∀ pr ∈ s.headerPDBlocks, FromChain trees tree top pr) :
    ∀ pr ∈ (s.takeLoop opts trees d sf).headerPDBlocks, FromChain trees tree top pr := by
  intro pr hpr
  simp only [SetState.takeLoop, List.mem_append, List.mem_singleton] at hpr
  rcases hpr with hpr | rfl
  · exact hs pr hpr
  · refine ⟨d.uncolored, hchain, fun b hb => ?_⟩
    obtain ⟨hunique, hpd⟩ := of_mem_pd_takeLoopBlocks hb
    exact ⟨hunique, hpd⟩

/-- Below a loop of the set, `instrumentSFLoopSet` adds the lists of chained loops only. -/
private theorem fromChain_below {opts : PassOptions} {trees : DominatorTrees β} {tree : Forest (LoopData β)}
    {top : LoopData β} {j : Nat} (hj : j ≠ 0) (t : Forest (LoopData β)) {p : LoopData β} {sf : Nat} {s : SetState β}
    (hp : p.setColor = j) (hchain : SetChain trees tree top p.uncolored sf) (hzero : ColorZeroIff t)
    (hpairs : ∀ q d, (some q, d) ∈ t.parentPairs (some p) → (some q.uncolored, d.uncolored) ∈ tree.parentPairs none)
    (hs : ∀ pr ∈ s.headerPDBlocks, FromChain trees tree top pr) :
    ∀ pr ∈ (instrumentSFLoopSet opts trees j (some p) sf t s).2.headerPDBlocks, FromChain trees tree top pr := by
  induction t generalizing p sf s with
  | nil => exact hs
  | node d ch sib ihc ihs =>
    obtain ⟨hzd, hzch, hzsib⟩ := colorZeroIff_node.mp hzero
    have hpairsCh : ∀ q e, (some q, e) ∈ ch.parentPairs (some d) →
        (some q.uncolored, e.uncolored) ∈ tree.parentPairs none :=
      fun q e he => hpairs q e (by simp [Forest.parentPairs, he])
    have hpairsSib : ∀ q e, (some q, e) ∈ sib.parentPairs (some p) →
        (some q.uncolored, e.uncolored) ∈ tree.parentPairs none :=
      fun q e he => hpairs q e (by simp [Forest.parentPairs, he])
    unfold instrumentSFLoopSet
    split
    · exact ihs hp hchain hzsib hpairsSib hs
    · rename_i hcolor
      have hdj : d.setColor = j := by simpa using hcolor
      have hjoins : joinsParent (some p) d = true := by simp [joinsParent, hp, hdj]
      split
      · exact ihs hp hchain hzsib hpairsSib hs
      · rename_i hkept
        have hpd : trees.postDominates d.loop.header p.loop.header = true := by
          simpa [hjoins, headerPostDominatesParent] using hkept
        have hchain' : SetChain trees tree top d.uncolored (d.scaleFactor * sf % 2 ^ 64) := by
          have hsf : d.scaleFactor ≠ 0 := fun h0 => hj (hdj ▸ hzd.mpr h0)
          exact .child hchain (hpairs p d (by simp [Forest.parentPairs])) hsf hpd
        exact ihs hp hchain hzsib hpairsSib (ihc hdj hchain' hzch hpairsCh (fromChain_takeLoop hchain' hs))

/-- The lists of a set, from the call at its top node. -/
private theorem fromChain_top {opts : PassOptions} {trees : DominatorTrees β} {tree : Forest (LoopData β)} {j : Nat}
    (hj : j ≠ 0) {parent : Option (LoopData β)} {d : LoopData β} {ch : Forest (LoopData β)} {s : SetState β}
    (hd : d.setColor = j) (hparent : parentColor parent ≠ j) (hzero : ColorZeroIff ch)
    (hpairs : ∀ q e, (some q, e) ∈ ch.parentPairs (some d) → (some q.uncolored, e.uncolored) ∈ tree.parentPairs none)
    (hs : s.headerPDBlocks = []) :
    ∀ pr ∈ (instrumentSFLoopSet opts trees j parent 1 (.node d ch .nil) s).2.headerPDBlocks,
      FromChain trees tree d.uncolored pr := by
  have hjoins : joinsParent parent d = false := by
    cases parent with
    | none => rfl
    | some p =>
      rw [parentColor_some] at hparent
      simp [joinsParent, hd, hparent]
  unfold instrumentSFLoopSet
  simp only [hd, ne_eq, not_true_eq_false, if_false, hjoins, Bool.false_and, Bool.false_eq_true, instrumentSFLoopSet]
  have hchain : SetChain trees tree d.uncolored d.uncolored d.scaleFactor := .top
  exact fromChain_below hj ch hd hchain hzero hpairs (fromChain_takeLoop hchain (by simp [hs]))

/-! ### The counters of the sets -/

/-- Every hoisted set counts for the chains below a loop with a trip count, at the edge into that loop. -/
def SetsFromChains (trees : DominatorTrees β) (tree : Forest (LoopData β)) (counters : List (Counter β)) : Prop :=
  ∀ header pairs, .scaleFactorSet header pairs ∈ counters → ∃ top ∈ tree.nodes, top.loop.header = header ∧
    top.scaleFactor ≠ 0 ∧ ∀ pr ∈ pairs, FromChain trees tree top pr

/-- The sets `InstrumentPragmaRegion` inserts come from the chains of the region's loop tree. -/
theorem setsFromChains_instrumentPragmaRegion (opts : PassOptions) (fn : FunctionAnalysis β) {bbList : List β}
    {counters : List (Counter β)} (hrun : InstrumentPragmaRegion opts fn bbList = some counters) :
    SetsFromChains fn.trees (regionLoopTree fn bbList) counters := by
  unfold InstrumentPragmaRegion at hrun
  split at hrun
  · rw [← Option.some.inj hrun]
    intro header pairs hmem
    simp at hmem
  · dsimp only at hrun
    split at hrun
    · have hsets := instrumentSFLoopSets_colored opts fn.trees (regionLoopTree fn bbList) ⟨bbList, []⟩
        (P := fun _ _ _ s => SetsFromChains fn.trees (regionLoopTree fn bbList) s.counters) ?_
        (fun _ _ hmem => by simp at hmem)
      · obtain ⟨n, t, s, heq, -, -, j, -, hP⟩ := hsets
        simp only [instrumentLoops, heq, Option.map_some, Option.some.injEq] at hrun
        subst hrun
        intro header pairs hmem
        rw [List.mem_append, scaleFactorSet_mem_instrumentDynamicLoops] at hmem
        rcases hmem with hmem | hmem
        · exact hP header pairs hmem
        · exact absurd hmem (not_mem_instrumentPostDomSet (by simp))
      · intro j n t t' s p d ch hj hjn hT hnum hP hd hp hrep header pairs hmem
        have huncolored : (regionLoopTree fn bbList).map LoopData.uncolored = regionLoopTree fn bbList :=
          map_uncolored_createLoopTree _ _ _
        have hnodes : ∀ e ∈ t.nodes, e.uncolored ∈ (regionLoopTree fn bbList).nodes := by
          intro e he
          rw [← huncolored, ← hT, Forest.nodes_map]
          exact List.mem_map_of_mem he
        have hchild : ∀ q e, (some q, e) ∈ ch.parentPairs (some d) →
            (some q.uncolored, e.uncolored) ∈ (regionLoopTree fn bbList).parentPairs none := by
          intro q e he
          have hmap := Forest.parentPairs_map LoopData.uncolored none t
          rw [Option.map_none, hT, huncolored] at hmap
          rw [hmap]
          exact List.mem_map_of_mem (f := Prod.map (Option.map LoopData.uncolored) LoopData.uncolored)
            (hrep.childPairs_mem he)
        simp only [instrumentSet, List.mem_append, List.mem_singleton, Counter.scaleFactorSet.injEq] at hmem
        rw [mem_counters_instrumentSFLoopSet (by simp)] at hmem
        rcases hmem with hmem | ⟨rfl, rfl⟩
        · exact hP header pairs hmem
        · have hdt : d ∈ t.nodes := hrep.nodes_subset (by simp)
          have hsf : d.scaleFactor ≠ 0 := by
            intro h0
            have hcolor := (hnum.colorZero d hdt).mpr h0
            omega
          refine ⟨d.uncolored, hnodes d hdt, rfl, hsf, ?_⟩
          exact fromChain_top (Nat.ne_of_gt hj) hd hp
            (fun e he => hnum.colorZero e (hrep.nodes_subset (by simp [he]))) hchild rfl
    · rw [Option.map_some, Option.some.injEq] at hrun
      subst hrun
      intro header pairs hmem
      rw [List.nil_append] at hmem
      exact absurd hmem (not_mem_instrumentPostDomSet (by simp))

/-! ### Counting along a chain -/

/-- The loop tree describes the graph: natural loops, each inside its parent without the parent's header, and what an
exact trip count promises of the exits. -/
structure TreeOf (g : FlowGraph β) (tree : Forest (LoopData β)) : Prop where
  natural : ∀ d ∈ tree.nodes, g.NaturalLoop d.loop.header d.loop.blocks
  inside : ∀ p d, (some p, d) ∈ tree.parentPairs none → d.loop.blocks ⊆ p.loop.blocks ∧ p.loop.header ∉ d.loop.blocks
  latch : ∀ d ∈ tree.nodes, d.scaleFactor ≠ 0 → g.ExitsDominateLatch d.loop.header d.loop.blocks

/-- The run keeps the trip counts: every entry of a loop with a scale factor executes its header so many times. -/
def KeepsScaleFactors (tree : Forest (LoopData β)) (w : List β) : Prop :=
  ∀ d ∈ tree.nodes, d.scaleFactor ≠ 0 → ∀ s ∈ stretches (inLoop d.loop.blocks) w,
    s.count d.loop.header = d.scaleFactor

/-- Every loop chained to its parent is entered once in each pass of the parent. -/
def ChainsEnteredOnce (g : FlowGraph β) (trees : DominatorTrees β) (tree : Forest (LoopData β)) : Prop :=
  ∀ p d, (some p, d) ∈ tree.parentPairs none → p.scaleFactor ≠ 0 → d.scaleFactor ≠ 0 →
    trees.postDominates d.loop.header p.loop.header = true →
    g.EnteredOncePerPass p.loop.header p.loop.blocks d.loop.header d.loop.blocks

section chain

variable {g : FlowGraph β} {trees : DominatorTrees β} {tree : Forest (LoopData β)} {top d : LoopData β} {sf : Nat}

omit [DecidableEq β] in
theorem SetChain.mem (h : SetChain trees tree top d sf) (htop : top ∈ tree.nodes) : d ∈ tree.nodes := by
  cases h with
  | top => exact htop
  | child _ hpair _ _ =>
    rw [← Forest.map_snd_parentPairs none]
    exact List.mem_map_of_mem (f := Prod.snd) hpair

omit [DecidableEq β] in
theorem SetChain.scaleFactor_ne_zero (h : SetChain trees tree top d sf) (htop : top.scaleFactor ≠ 0) :
    d.scaleFactor ≠ 0 := by
  cases h with
  | top => exact htop
  | child _ _ hsf _ => exact hsf

omit [DecidableEq β] in
theorem SetChain.subset_top (h : SetChain trees tree top d sf) (htree : TreeOf g tree) :
    d.loop.blocks ⊆ top.loop.blocks := by
  induction h with
  | top => exact List.Subset.refl _
  | child _ hpair _ _ ih => exact List.Subset.trans (htree.inside _ _ hpair).1 ih

/-- The stretches of an inner loop are those of the stretches of the loop around it. -/
private theorem stretches_inLoop {B C : List β} (hCB : C ⊆ B) (w : List β) :
    stretches (inLoop C) w = (stretches (inLoop B) w).flatMap (stretches (inLoop C)) := by
  refine stretches_eq_flatMap (fun x hx => ?_) w
  simp only [inLoop, decide_eq_true_eq] at hx ⊢
  exact hCB hx

/-- In a stretch of the top loop, a loop of the set executes its header as often as its multiplier says. -/
theorem SetChain.length_stretches_mul (h : SetChain trees tree top d sf) (htree : TreeOf g tree)
    (htop : top ∈ tree.nodes) (hsf : top.scaleFactor ≠ 0) (hlinks : ChainsEnteredOnce g trees tree) {w seg : List β}
    (hw : g.Complete w) (hkeeps : KeepsScaleFactors tree w) (hseg : seg ∈ stretches (inLoop top.loop.blocks) w) :
    (stretches (inLoop d.loop.blocks) seg).length * d.scaleFactor ≡ sf [MOD 2 ^ 64] := by
  induction h with
  | top =>
    obtain ⟨-, -, -, hne, hin, -, -⟩ := mem_stretches_iff.mp hseg
    rw [stretches_eq_singleton hne hin, List.length_singleton, Nat.one_mul]
  | @child p d sf hchain hpair hd hpd ih =>
    obtain ⟨hsub, hout⟩ := htree.inside p d hpair
    have hp := hchain.mem htop
    have hpsf := hchain.scaleFactor_ne_zero hsf
    have hdmem := (SetChain.child hchain hpair hd hpd).mem htop
    -- every stretch of the parent enters the loop once in each pass
    have hlen : ∀ s ∈ stretches (inLoop p.loop.blocks) seg,
        (stretches (inLoop d.loop.blocks) s).length = p.scaleFactor := by
      intro s hs
      have hsw : s ∈ stretches (inLoop p.loop.blocks) w := by
        rw [stretches_inLoop (hchain.subset_top htree) w]
        exact List.mem_flatMap.mpr ⟨seg, hseg, hs⟩
      have hentered := (htree.natural p hp).length_stretches_eq_count (htree.latch p hp hpsf)
        (htree.natural d hdmem).header_mem hout (hlinks p d hpair hpsf hd hpd) hw hsw
      rw [hentered, hkeeps p hp hpsf s hsw]
    have htotal : (stretches (inLoop d.loop.blocks) seg).length =
        (stretches (inLoop p.loop.blocks) seg).length * p.scaleFactor := by
      rw [stretches_inLoop hsub seg, List.length_flatMap, List.map_congr_left hlen, List.map_const',
        List.sum_replicate_nat]
    rw [htotal, Nat.mul_comm d.scaleFactor sf]
    exact (ih.mul_right d.scaleFactor).trans (Nat.mod_modEq _ _).symm

/-- In a stretch of the top loop, a block passed once in each pass of a loop of the set executes as often as the
multiplier says. -/
theorem SetChain.count_modEq (h : SetChain trees tree top d sf) (htree : TreeOf g tree)
    (htop : top ∈ tree.nodes) (hsf : top.scaleFactor ≠ 0) (hlinks : ChainsEnteredOnce g trees tree) {w seg : List β}
    (hw : g.Complete w) (hkeeps : KeepsScaleFactors tree w) (hseg : seg ∈ stretches (inLoop top.loop.blocks) w)
    {b : β} (hb : b ∈ d.loop.blocks) (hone : g.OncePerPass d.loop.header d.loop.blocks b) :
    seg.count b ≡ sf [MOD 2 ^ 64] := by
  have hd := h.mem htop
  have hdsf := h.scaleFactor_ne_zero hsf
  have hcount : ∀ s ∈ stretches (inLoop d.loop.blocks) seg, s.count b = d.scaleFactor := by
    intro s hs
    have hsw : s ∈ stretches (inLoop d.loop.blocks) w := by
      rw [stretches_inLoop (h.subset_top htree) w]
      exact List.mem_flatMap.mpr ⟨seg, hseg, hs⟩
    rw [(htree.natural d hd).count_eq_of_oncePerPass (htree.latch d hd hdsf) hone hw hsw]
    exact hkeeps d hd hdsf s hsw
  have htotal : seg.count b = (stretches (inLoop d.loop.blocks) seg).length * d.scaleFactor := by
    rw [count_eq_sum_stretches (p := inLoop d.loop.blocks) (by simpa [inLoop] using hb), List.map_congr_left hcount,
      List.map_const', List.sum_replicate_nat]
  rw [htotal]
  exact h.length_stretches_mul htree htop hsf hlinks hw hkeeps hseg

end chain

/-! ### The region -/

/-- A loop that may get a hoisted counter: it has a scale factor, or its trip count is known before and after the edge
into its header is split. -/
def Hoisted (fn : FunctionAnalysis β) (d : LoopData β) : Prop :=
  d.scaleFactor ≠ 0 ∨
    (fn.beforeSplit d.loop.header).isHoistable = true ∧ (fn.afterSplit d.loop.header).isHoistable = true

/-- `P` of every hoisted loop and every block directly in it that post-dominates its header. -/
def ForHoistedBlocks (fn : FunctionAnalysis β) (tree : Forest (LoopData β)) (P : Loop β → β → Prop) : Prop :=
  ∀ d ∈ tree.nodes, Hoisted fn d → ∀ b ∈ getUniqueLoopBB d, fn.trees.postDominates b d.loop.header = true → P d.loop b

omit [DecidableEq β] in
/-- What an exact backedge-taken count promises, of every loop scalar evolution gives one for. -/
def ExactCounts (g : FlowGraph β) (fn : FunctionAnalysis β) : Prop :=
  ∀ L ∈ fn.loopInfo.nodes,
    (fn.backedgeTakenCount L.header ≠ .couldNotCompute ∨ fn.beforeSplit L.header ≠ .couldNotCompute) →
      g.ExitsDominateLatch L.header L.blocks

omit [DecidableEq β] in
/-- A scale factor comes from an exact count. -/
theorem ExactCounts.exitsDominateLatch {g : FlowGraph β} {fn : FunctionAnalysis β} (hexact : ExactCounts g fn)
    {inBounds : β → Bool} {d : LoopData β}
    (hd : d ∈ (createLoopTree inBounds fn.backedgeTakenCount fn.loopInfo).nodes) (hsf : d.scaleFactor ≠ 0) :
    g.ExitsDominateLatch d.loop.header d.loop.blocks := by
  obtain ⟨hmem, htrip⟩ := mem_createLoopTree hd
  refine hexact d.loop hmem (.inl fun hnone => hsf ?_)
  rw [htrip, hnone]
  rfl

omit [DecidableEq β] in
/-- The loop tree of a region describes the graph when `LoopInfo` does, and the loops with scale factors have one
latch. -/
theorem treeOf_createLoopTree {g : FlowGraph β} {inBounds : β → Bool} {counts : β → BackedgeTakenCount}
    {f : Forest (Loop β)} (hwf : LoopsWellFormed f) (hnatural : ∀ L ∈ f.nodes, g.NaturalLoop L.header L.blocks)
    (hlatch : ∀ d ∈ (createLoopTree inBounds counts f).nodes, d.scaleFactor ≠ 0 →
      g.ExitsDominateLatch d.loop.header d.loop.blocks) : TreeOf g (createLoopTree inBounds counts f) where
  natural d hd := hnatural d.loop (mem_createLoopTree hd).1
  inside p d hpd := by
    rcases inside_of_mem_parentPairs_createLoopTree hwf hpd with h | ⟨h, -⟩
    · exact h
    · cases h
  latch := hlatch

/-! ### Two nested loops -/

/-- A loop on block 2 inside a loop on blocks 1 to 3, both left at the end of a pass. -/
def nestedLoops : FlowGraph (Fin 5) where
  entry := 0
  succs
    | 0 => [1]
    | 1 => [2]
    | 2 => [2, 3]
    | 3 => [1, 4]
    | 4 => []

/-- The function of this graph: the loops run 5 and 3 times. -/
def nestedLoopsFunction : FunctionAnalysis (Fin 5) where
  orderedCFG := [0, 1, 2, 3, 4]
  size := fun _ => 1
  detectPragma := fun _ => false
  trees := computedTrees nestedLoops [4] 5
  loopInfo := .node ⟨1, [1, 2, 3]⟩ (.node ⟨2, [2]⟩ .nil .nil) .nil
  backedgeTakenCount := fun b => if b = 1 then .constant 4 else .constant 2
  beforeSplit := fun b => if b = 1 then .constant 4 else .constant 2
  afterSplit := fun b => if b = 1 then .constant 4 else .constant 2

theorem nestedLoops_natural : ∀ L ∈ nestedLoopsFunction.loopInfo.nodes,
    nestedLoops.NaturalLoop L.header L.blocks := by
  have houterEntry : ∀ u, u ∉ [1, 2, 3] → ∀ v ∈ nestedLoops.succs u, v ∈ [1, 2, 3] → v = 1 := by decide
  have hinnerEntry : ∀ u, u ∉ [2] → ∀ v ∈ nestedLoops.succs u, v ∈ [2] → v = 2 := by decide
  have houter : nestedLoops.NaturalLoop 1 [1, 2, 3] :=
    ⟨by decide, by decide, ⟨[0, 1], .cons (by decide) (.single 1)⟩, fun u _ => houterEntry u, by decide⟩
  have hinner : nestedLoops.NaturalLoop 2 [2] :=
    ⟨by decide, by decide, ⟨[0, 1, 2], .cons (by decide) (.cons (by decide) (.single 2))⟩, fun u _ => hinnerEntry u,
      by decide⟩
  intro L hL
  simp only [nestedLoopsFunction, Forest.nodes_node, Forest.nodes_nil, List.append_nil, List.mem_cons,
    List.not_mem_nil, or_false] at hL
  rcases hL with rfl | rfl
  · exact houter
  · exact hinner

theorem nestedLoops_latch : ExactCounts nestedLoops nestedLoopsFunction := by
  have hexit : (∀ u ∈ [1, 2, 3], ∀ v ∈ nestedLoops.succs u, v ∉ [1, 2, 3] → u = 3) ∧
      ∀ u : Fin 5, u ∈ [2] → u = 2 := by decide
  intro L hL _
  simp only [nestedLoopsFunction, Forest.nodes_node, Forest.nodes_nil, List.append_nil, List.mem_cons,
    List.not_mem_nil, or_false] at hL
  rcases hL with rfl | rfl
  · refine ⟨3, by decide, fun u hu v hv hout => ?_⟩
    rw [hexit.1 u hu v hv hout]
    exact .refl 3
  · refine ⟨2, by decide, fun u hu _ _ _ => ?_⟩
    rw [hexit.2 u hu]
    exact .refl 2

/-- The blocks directly in the loops are passed once in each pass. -/
theorem nestedLoops_oncePerPass :
    ForHoistedBlocks nestedLoopsFunction (regionLoopTree nestedLoopsFunction [0, 1, 2, 3, 4])
      fun L b => nestedLoops.OncePerPass L.header L.blocks b := by
  have htree : regionLoopTree nestedLoopsFunction [0, 1, 2, 3, 4] =
      .node ⟨⟨1, [1, 2, 3]⟩, [⟨2, [2]⟩], 0, 5⟩ (.node ⟨⟨2, [2]⟩, [], 0, 3⟩ .nil .nil) .nil := by decide
  -- the header starts every pass
  have hheader : ∀ h B, nestedLoops.OncePerPass h B h := fun h B =>
    ⟨fun p e v hp _ _ _ _ => hp.source_mem, fun _ c _ _ _ => List.mem_cons_self⟩
  -- block 3 ends every pass of the outer loop
  have hexit : ∀ e ∈ [1, 2, 3], ∀ v ∈ nestedLoops.succs e, v ∉ [1, 2, 3] → e = 3 := by decide
  have hback : ∀ v ∈ nestedLoops.succs 3, v ∈ [1, 2, 3] → v = 1 := by decide
  have hlast : nestedLoops.OncePerPass 1 [1, 2, 3] 3 := by
    refine ⟨fun p e v hp hin hv hout _ => ?_, fun _ c hc hne hin => ?_⟩
    · have he := hexit e (hin e hp.target_mem) v hv hout
      exact he ▸ hp.target_mem
    · cases hc with
      | single => exact absurd rfl hne
      | @cons _ v _ _ he hc =>
        have hv := hback v he (hin v hc.source_mem)
        exact List.mem_cons_of_mem 3 (hv ▸ hc.source_mem)
  rw [htree]
  intro d hd _ b hb _
  simp only [Forest.nodes_node, Forest.nodes_nil, List.append_nil, List.mem_cons, List.not_mem_nil, or_false] at hd
  rcases hd with rfl | rfl
  · have hb' : b = 1 ∨ b = 3 := by revert b; decide
    rcases hb' with rfl | rfl
    · exact hheader 1 [1, 2, 3]
    · exact hlast
  · have hb' : b = 2 := by revert b; decide
    exact hb' ▸ hheader 2 [2]

/-- The inner loop is entered from block 1 only. -/
theorem nestedLoops_entered :
    ChainsEnteredOnce nestedLoops nestedLoopsFunction.trees
      (regionLoopTree nestedLoopsFunction [0, 1, 2, 3, 4]) := by
  have hpairs : (regionLoopTree nestedLoopsFunction [0, 1, 2, 3, 4]).parentPairs none =
      [(none, ⟨⟨1, [1, 2, 3]⟩, [⟨2, [2]⟩], 0, 5⟩),
        (some ⟨⟨1, [1, 2, 3]⟩, [⟨2, [2]⟩], 0, 5⟩, ⟨⟨2, [2]⟩, [], 0, 3⟩)] := by decide
  have hfirst : ∀ v ∈ nestedLoops.succs 1, v = 2 := by decide
  have hpred : ∀ z ∈ [1, 2, 3], z ∉ [2] → ∀ y ∈ nestedLoops.succs z, y ∈ [2] → z = 1 := by decide
  intro p d hpd _ _ _
  rw [hpairs] at hpd
  simp only [List.mem_cons, Prod.mk.injEq, reduceCtorEq, false_and, Option.some.injEq, List.not_mem_nil, or_false,
    false_or] at hpd
  obtain ⟨rfl, rfl⟩ := hpd
  refine ⟨fun w e v hp hin hv hout _ => ?_, fun x m y hx hy hne hin hm => ?_⟩
  · cases hp with
    | single =>
      rw [hfirst v hv] at hout
      exact absurd (by decide) hout
    | @cons _ c _ _ he hp => exact List.mem_cons_of_mem 1 (hfirst c he ▸ hp.source_mem)
  · rcases List.eq_nil_or_concat m with rfl | ⟨m', z, rfl⟩
    · exact absurd rfl hne
    · obtain ⟨hzB, hzC⟩ := hin z (by simp)
      have hzy : y ∈ nestedLoops.succs z := by
        have hwalk : nestedLoops.Walk x ((x :: m') ++ z :: [y]) y := by simpa using hm
        exact hwalk.split.2.step.1
      have hz := hpred z hzB hzC y hzy hy
      simp [hz]

end ZRay.Pass
