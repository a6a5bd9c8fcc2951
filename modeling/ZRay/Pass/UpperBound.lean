import ZRay.Pass.LoopLevels
import ZRay.Pass.RegionRecords

/-!
# The counters of a reducible function never count too little

With loop hoisting on, the pass is careful on one side.  A hoisted block may be skipped by a pass of its
loop, and an anchor may run on when its set does not: then the counter counts too much.  But when the graph
of the function is reducible, and its counters were placed along its loops, no block is executed more often
than its counter says, at any moment of any run (`count_le_value`).  So a report never stays behind the
traffic of the region (`executed_le_reported`).  The graph with two entries into a cycle, on which a set of
the pass counts too little, is not reducible.

The bound is put together from three facts about the loops: an anchor is on every cycle of a block of its set, a block
directly in a loop runs at most as often as the header, and a loop directly inside another is entered at most as often
as the header of the other runs.
-/

namespace ZRay.Pass

open FlowGraph

variable {β : Type*}

/-! ### The loop tree as a nest of loops -/

/-- The loops of `LoopInfo` are natural loops of the graph, and only edges back to a header go against `rank`. -/
structure Reducible (g : FlowGraph β) (fn : FunctionAnalysis β) (rank : β → Nat) : Prop where
  natural : ∀ L ∈ fn.loopInfo.nodes, g.NaturalLoop L.header L.blocks
  retreating : ∀ u, g.Reachable u → ∀ v ∈ g.succs u,
    rank u < rank v ∨ ∃ L ∈ fn.loopInfo.nodes, v = L.header ∧ u ∈ L.blocks

theorem Reducible.loopNest {g : FlowGraph β} {fn : FunctionAnalysis β} {rank : β → Nat} (h : Reducible g fn rank)
    (hwf : LoopsWellFormed fn.loopInfo) : g.LoopNest fn.loopInfo.nodes Loop.header Loop.blocks rank where
  natural := h.natural
  nested _ hL _ hM := hwf.nested hL hM
  retreating := h.retreating

/-- No loop of the tree lies between a loop and its parent. -/
theorem between_of_mem_parentPairs_createLoopTree {inBounds : β → Bool} {counts : β → BackedgeTakenCount}
    {f : Forest (Loop β)} (hwf : LoopsWellFormed f) {parent : Option (LoopData β)} {p d e : LoopData β}
    (hpd : (some p, d) ∈ (createLoopTree inBounds counts f).parentPairs parent)
    (he : e ∈ (createLoopTree inBounds counts f).nodes) (hde : d.loop.blocks ⊆ e.loop.blocks) :
    e.loop = d.loop ∨ p.loop.blocks ⊆ e.loop.blocks := by
  induction f generalizing parent with
  | nil => simp [createLoopTree] at he
  | node L subs rest ihs ihr =>
    obtain ⟨hnodup, hheader, hsub, hdisj, hwfs, hwfr⟩ := hwf
    have hbelow : ∀ c ∈ (createLoopTree inBounds counts subs).nodes, c.loop.blocks ⊆ L.blocks ∧
        L.header ∉ c.loop.blocks := by
      intro c hc
      obtain ⟨S, hS, hsubset⟩ := exists_root_of_mem_nodes hwfs (mem_createLoopTree hc).1
      exact ⟨fun x hx => (hsub S hS).1 (hsubset hx), fun hmem => (hsub S hS).2 (hsubset hmem)⟩
    have hbeside : ∀ c ∈ (createLoopTree inBounds counts rest).nodes, L.blocks.Disjoint c.loop.blocks := by
      intro c hc x hx hxc
      obtain ⟨R, hR, hsubset⟩ := exists_root_of_mem_nodes hwfr (mem_createLoopTree hc).1
      exact hdisj R hR hx (hsubset hxc)
    have hd : d.loop.header ∈ d.loop.blocks :=
      LoopsWellFormed.header_mem (f := .node L subs rest) ⟨hnodup, hheader, hsub, hdisj, hwfs, hwfr⟩
        (mem_createLoopTree (Forest.mem_nodes_of_mem_parentPairs hpd)).1
    have hinside : ∀ q, (some p, d) ∈ (createLoopTree inBounds counts subs).parentPairs q →
        e ∈ (createLoopTree inBounds counts subs).nodes ∨ e ∈ (createLoopTree inBounds counts rest).nodes →
        e.loop = d.loop ∨ p.loop.blocks ⊆ e.loop.blocks := by
      rintro q hq (he | he)
      · exact ihs hwfs hq he
      · exact absurd (hde hd) (hbeside e he ((hbelow d (Forest.mem_nodes_of_mem_parentPairs hq)).1 hd))
    have houtside : (some p, d) ∈ (createLoopTree inBounds counts rest).parentPairs parent →
        e ∈ (createLoopTree inBounds counts subs).nodes ∨ e ∈ (createLoopTree inBounds counts rest).nodes →
        e.loop = d.loop ∨ p.loop.blocks ⊆ e.loop.blocks := by
      rintro hq (he | he)
      · exact absurd hd (hbeside d (Forest.mem_nodes_of_mem_parentPairs hq) ((hbelow e he).1 (hde hd)))
      · exact ihr hwfr hq he
    simp only [createLoopTree] at hpd he
    split at hpd <;> rename_i hbounds
    · rw [if_pos hbounds, Forest.nodes_node, List.mem_cons, List.mem_append] at he
      simp only [Forest.parentPairs, List.mem_cons, List.mem_append, Prod.mk.injEq] at hpd
      rcases hpd with ⟨-, rfl⟩ | hpd | hpd
      · -- the node for `L` itself is in no other
        rcases he with rfl | he | he
        · exact .inl rfl
        · exact absurd (hde hd) (hbelow e he).2
        · exact absurd (hde hd) (hbeside e he hd)
      · rcases he with rfl | he
        · refine .inr ?_
          rcases Forest.parent_mem_nodes_or hpd with hp | hp
          · exact (hbelow p hp).1
          · rw [← Option.some.inj hp]
            exact List.Subset.refl _
        · exact hinside _ hpd he
      · rcases he with rfl | he
        · exact absurd hd (hbeside d (Forest.mem_nodes_of_mem_parentPairs hpd) (hde hd))
        · exact houtside hpd he
    · rw [if_neg hbounds, Forest.nodes_append, List.mem_append] at he
      rw [Forest.parentPairs_append, List.mem_append] at hpd
      rcases hpd with hpd | hpd
      · exact hinside _ hpd he
      · exact houtside hpd he

section bounds

variable [DecidableEq β] {g : FlowGraph β} {fn : FunctionAnalysis β} {rank : β → Nat} {bbList : List β}

/-- A child of the tree with a block of the region is directly inside its parent. -/
theorem RegionLoops.directlyInside (hregion : RegionLoops fn bbList) (hwf : LoopsWellFormed fn.loopInfo)
    {p d : LoopData β} (hpd : (some p, d) ∈ (regionLoopTree fn bbList).parentPairs none) {x : β} (hx : x ∈ bbList)
    (hxd : x ∈ d.loop.blocks) : DirectlyInside fn.loopInfo.nodes Loop.header Loop.blocks p.loop d.loop := by
  have hp := (mem_createLoopTree (Forest.parent_mem_nodes hpd)).1
  obtain ⟨hsub, hout⟩ : d.loop.blocks ⊆ p.loop.blocks ∧ p.loop.header ∉ d.loop.blocks := by
    rcases inside_of_mem_parentPairs_createLoopTree hwf hpd with h | ⟨h, -⟩
    · exact h
    · cases h
  refine ⟨hsub, hout, fun M hM hdM => ?_⟩
  rcases hwf.nested hp hM with rfl | hdisj | ⟨hpM, -⟩ | ⟨hMp, -⟩
  · exact .inr (List.Subset.refl _)
  · exact absurd (hdM hxd) (hdisj (hsub hxd))
  · exact .inr hpM
  · -- a loop inside the parent that meets the region is in the tree
    rcases hregion M hM with ⟨e, he, rfl⟩ | hdisj | ⟨-, houtside⟩
    · exact between_of_mem_parentPairs_createLoopTree hwf hpd he hdM
    · exact absurd (hdM hxd) (hdisj hx)
    · exact absurd hMp (houtside p (Forest.parent_mem_nodes hpd))

/-- No multiplier of a set wraps. -/
structure ChainsFit (trees : DominatorTrees β) (tree : Forest (LoopData β)) : Prop where
  size : ∀ d ∈ tree.nodes, d.scaleFactor < 2 ^ 64
  product : ∀ top ∈ tree.nodes, ∀ p sf, SetChain trees tree top p sf →
    ∀ d, (some p, d) ∈ tree.parentPairs none → d.scaleFactor * sf < 2 ^ 64

/-- The counts of scalar evolution are upper bounds for the run: no entry of a loop executes the header more often
than its scale factor, or its trip count in front of the loop, says. -/
structure TripsBounded (fn : FunctionAnalysis β) (tree : Forest (LoopData β)) (tripCount : β → List β → Nat)
    (w : List β) : Prop where
  scaleFactors : ∀ d ∈ tree.nodes, d.scaleFactor ≠ 0 → ∀ s ∈ stretches (inLoop d.loop.blocks) w,
    s.count d.loop.header ≤ d.scaleFactor
  dynamic : ∀ d ∈ tree.nodes, (fn.afterSplit d.loop.header).isHoistable = true → ∀ u s v, w = u ++ (s ++ v) →
    s ∈ stretches (inLoop d.loop.blocks) w → v.head?.any (inLoop d.loop.blocks) = false →
      s.count d.loop.header ≤ tripCount d.loop.header (s ++ v)

/-! ### Counting along a chain -/

omit [DecidableEq β] in
/-- A sum over stretches, each of which is bounded. -/
private theorem sum_map_le_mul {l : List (List β)} {F : List β → Nat} {n : Nat} (h : ∀ s ∈ l, F s ≤ n) :
    (l.map F).sum ≤ l.length * n := by
  induction l with
  | nil => simp
  | cons s l ih =>
    have hs := h s List.mem_cons_self
    have hrest := ih fun s' hs' => h s' (List.mem_cons_of_mem s hs')
    rw [List.map_cons, List.sum_cons, List.length_cons, Nat.succ_mul]
    omega

/-- The stretches of a loop are those of the stretches of a loop around it. -/
private theorem stretches_flatMap_of_subset {B C : List β} (hCB : C ⊆ B) (w : List β) :
    stretches (inLoop C) w = (stretches (inLoop B) w).flatMap (stretches (inLoop C)) := by
  refine stretches_eq_flatMap (fun x hx => ?_) w
  simp only [inLoop, decide_eq_true_eq] at hx ⊢
  exact hCB hx

section chain

variable {trees : DominatorTrees β} {top d : LoopData β} {sf : Nat}

theorem SetChain.blocks_subset (h : SetChain trees (regionLoopTree fn bbList) top d sf)
    (hwf : LoopsWellFormed fn.loopInfo) : d.loop.blocks ⊆ top.loop.blocks := by
  induction h with
  | top => exact List.Subset.refl _
  | @child p d sf _ hpd _ _ ih =>
    rcases inside_of_mem_parentPairs_createLoopTree hwf hpd with ⟨hsub, -⟩ | ⟨h, -⟩
    · exact List.Subset.trans hsub ih
    · cases h

/-- In a stretch of the top loop, a loop of the set executes its header at most as often as its multiplier says. -/
theorem SetChain.length_stretches_le (h : SetChain trees (regionLoopTree fn bbList) top d sf)
    (hwf : LoopsWellFormed fn.loopInfo) (hreducible : Reducible g fn rank) (hregion : RegionLoops fn bbList)
    (hfit : ChainsFit trees (regionLoopTree fn bbList)) (htop : top ∈ (regionLoopTree fn bbList).nodes)
    (hsf : top.scaleFactor ≠ 0) {tripCount : β → List β → Nat} {w seg : List β} {z : β} (hw : g.Walk g.entry w z)
    (htrips : TripsBounded fn (regionLoopTree fn bbList) tripCount w)
    (hseg : seg ∈ stretches (inLoop top.loop.blocks) w) {x : β} (hx : x ∈ bbList) (hxd : x ∈ d.loop.blocks) :
    (stretches (inLoop d.loop.blocks) seg).length * d.scaleFactor ≤ sf := by
  induction h with
  | top =>
    obtain ⟨-, -, -, hne, hin, -, -⟩ := mem_stretches_iff.mp hseg
    rw [stretches_eq_singleton hne hin, List.length_singleton, Nat.one_mul]
  | @child p d sf hchain hpd hd hpost ih =>
    have hin := hregion.directlyInside hwf hpd hx hxd
    have hrec := ih (hin.subset hxd)
    have hp := hchain.mem htop
    have hdmem := (SetChain.child hchain hpd hd hpost).mem htop
    -- every stretch of the parent enters the loop once in a pass at most
    have hlen : ∀ s ∈ stretches (inLoop p.loop.blocks) seg,
        (stretches (inLoop d.loop.blocks) s).length ≤ p.scaleFactor := by
      intro s hs
      have hsw : s ∈ stretches (inLoop p.loop.blocks) w := by
        rw [stretches_flatMap_of_subset (hchain.blocks_subset hwf) w]
        exact List.mem_flatMap.mpr ⟨seg, hseg, hs⟩
      exact ((hreducible.loopNest hwf).length_stretches_le_count (mem_createLoopTree hp).1
        (mem_createLoopTree hdmem).1 hin hw hsw).trans
          (htrips.scaleFactors p hp (hchain.scaleFactor_ne_zero hsf) s hsw)
    have htotal : (stretches (inLoop d.loop.blocks) seg).length ≤ sf := by
      rw [stretches_flatMap_of_subset hin.subset seg, List.length_flatMap]
      exact (sum_map_le_mul hlen).trans hrec
    rw [Nat.mod_eq_of_lt (hfit.product top htop p sf hchain d hpd), Nat.mul_comm d.scaleFactor sf]
    exact Nat.mul_le_mul_right _ htotal

/-- In a stretch of the top loop, a block of the region directly in a loop of the set runs at most as often as the
multiplier says. -/
theorem SetChain.count_le (h : SetChain trees (regionLoopTree fn bbList) top d sf)
    (hwf : LoopsWellFormed fn.loopInfo) (hreducible : Reducible g fn rank) (hregion : RegionLoops fn bbList)
    (hfit : ChainsFit trees (regionLoopTree fn bbList)) (htop : top ∈ (regionLoopTree fn bbList).nodes)
    (hsf : top.scaleFactor ≠ 0) {tripCount : β → List β → Nat} {w seg : List β} {z : β} (hw : g.Walk g.entry w z)
    (htrips : TripsBounded fn (regionLoopTree fn bbList) tripCount w)
    (hseg : seg ∈ stretches (inLoop top.loop.blocks) w) {x : β} (hx : x ∈ bbList) (hxd : x ∈ getUniqueLoopBB d) :
    seg.count x ≤ sf := by
  have hd := h.mem htop
  have hdirect := (mem_getUniqueLoopBB_iff hwf hd).mp hxd
  have hcount : ∀ s ∈ stretches (inLoop d.loop.blocks) seg, s.count x ≤ d.scaleFactor := by
    intro s hs
    have hsw : s ∈ stretches (inLoop d.loop.blocks) w := by
      rw [stretches_flatMap_of_subset (h.blocks_subset hwf) w]
      exact List.mem_flatMap.mpr ⟨seg, hseg, hs⟩
    exact ((hreducible.loopNest hwf).count_le_header (mem_createLoopTree hd).1 hdirect hw hsw).trans
      (htrips.scaleFactors d hd (h.scaleFactor_ne_zero hsf) s hsw)
  rw [count_eq_sum_stretches (p := inLoop d.loop.blocks) (by simpa [inLoop] using hdirect.1)]
  exact (sum_map_le_mul hcount).trans
    (h.length_stretches_le hwf hreducible hregion hfit htop hsf hw htrips hseg hx hdirect.1)

end chain

/-! ### A counter and its blocks -/

omit [DecidableEq β] in
/-- When `F` at an entry is at least what `G` makes of the stretch that starts there, so are the sums. -/
theorem sum_stretches_le_sumEntries {p : β → Bool} {F G : List β → Nat} {w : List β}
    (h : ∀ u s v, w = u ++ (s ++ v) → s ∈ stretches p w → v.head?.any p = false → G s ≤ F (s ++ v)) :
    ((stretches p w).map G).sum ≤ sumEntries p F false w := by
  induction hn : w.length using Nat.strongRecOn generalizing w with
  | _ n ih =>
    rcases exists_first_stretch p w with hnone | ⟨u, s, v, rfl, hu, hne, hs, hv⟩
    · rw [stretches_eq_nil hnone]
      exact Nat.zero_le _
    · have hlen : 0 < s.length := List.length_pos_iff.mpr hne
      simp only [List.length_append] at hn
      have hsplit : stretches p (u ++ (s ++ v)) = s :: stretches p v := stretches_first hu hne hs hv
      have hfirst := h u s v rfl (hsplit ▸ List.mem_cons_self) hv
      have hrest := ih v.length (by omega) (w := v) (fun u' s' v' heq hs' hv' =>
        h (u ++ (s ++ u')) s' v' (by simp [heq]) (hsplit ▸ List.mem_cons_of_mem s hs') hv') rfl
      rw [sumEntries_first F hu hne hs hv, hsplit, List.map_cons, List.sum_cons]
      omega

/-- The factor of a block times what a run has added to the counter is at least the number of times the run has
executed the block. -/
theorem count_le_value {opts : PassOptions} (hopt : opts.applyLoopHoisting = true)
    (hwf : LoopsWellFormed fn.loopInfo) (hreducible : Reducible g fn rank)
    (hdom : ∀ a b, fn.trees.dominates a b = true → g.Dominates a b) (hregion : RegionLoops fn bbList)
    (hnodup : bbList.Nodup) (hfit : ChainsFit fn.trees (regionLoopTree fn bbList)) {counters : List (Counter β)}
    (hrun : InstrumentPragmaRegion opts fn bbList = some counters) {tripCount : β → List β → Nat} {w : List β} {z : β}
    (hw : g.Walk g.entry w z) (htrips : TripsBounded fn (regionLoopTree fn bbList) tripCount w) {c : Counter β}
    (hc : c ∈ counters) {b : β} {sf : Nat} (hb : (b, sf) ∈ c.scaledBlocks) :
    w.count b ≤ sf * c.value fn tripCount none w := by
  have hbb : b ∈ bbList := by
    refine mem_bbList_of_mem_blocks hwf hrun hc ?_
    rw [← c.map_fst_scaledBlocks]
    exact List.mem_map_of_mem (f := Prod.fst) hb
  cases c with
  | postDomSet blocks =>
    simp only [Counter.scaledBlocks, List.mem_map, Prod.mk.injEq] at hb
    obtain ⟨x, hx, rfl, rfl⟩ := hb
    cases blocks with
    | nil => simp at hx
    | cons a taken =>
      rw [value_postDomSet, Nat.one_mul]
      rcases List.mem_cons.mp hx with rfl | hxt
      · exact Nat.le_refl _
      · obtain ⟨hequiv, hsame⟩ := sameLoops_of_mem_postDomSet hopt hwf hregion hnodup hfit.size hrun hc hxt
        simp only [controlEquivalent, Bool.and_eq_true] at hequiv
        by_cases hxw : x ∈ w
        · have hax := hdom a x hequiv.2
          exact hw.count_le_of_dominates hax
            ((hreducible.loopNest hwf).everyCycleVisits hax (hw.reachable_of_mem hxw) hsame)
        · rw [List.count_eq_zero_of_not_mem hxw]
          exact Nat.zero_le _
  | scaleFactorSet header pairs =>
    simp only [Counter.scaledBlocks, List.mem_flatMap, List.mem_map, Prod.mk.injEq] at hb
    obtain ⟨pr, hpr, x, hx, rfl, rfl⟩ := hb
    obtain ⟨top, htop, rfl, hsf, hpairs⟩ := setsFromChains_instrumentPragmaRegion opts fn hrun header pairs hc
    obtain ⟨d, hchain, hblocks⟩ := hpairs pr hpr
    have hunique := (hblocks x hx).1
    have hL := (mem_createLoopTree htop).1
    rw [value_hoisted hwf hL (hreducible.natural _ hL) (F := fun _ => 1) (fun prev y rest => rfl) hw, mul_sumEntries,
      count_eq_sum_stretches (p := inLoop top.loop.blocks)
        (by simpa [inLoop] using hchain.blocks_subset hwf (mem_getUniqueLoopBB.mp hunique).1)]
    refine sum_stretches_le_sumEntries fun u s v _ hs _ => ?_
    rw [Nat.mul_one]
    exact hchain.count_le hwf hreducible hregion hfit htop hsf hw htrips hs hbb hunique
  | dynamicLoop header blocks =>
    simp only [Counter.scaledBlocks, List.mem_map, Prod.mk.injEq] at hb
    obtain ⟨x, hx, rfl, rfl⟩ := hb
    obtain ⟨d, hd, rfl, -, hafter, hblocks⟩ :=
      dynamicFromLoops_instrumentPragmaRegion opts fn hrun header blocks hc
    have hunique := (hblocks x hx).1
    have hL := (mem_createLoopTree hd).1
    rw [value_hoisted hwf hL (hreducible.natural _ hL) (F := tripCount d.loop.header) (fun prev y rest => rfl) hw,
      Nat.one_mul, count_eq_sum_stretches (p := inLoop d.loop.blocks)
        (by simpa [inLoop] using (mem_getUniqueLoopBB.mp hunique).1)]
    refine sum_stretches_le_sumEntries fun u s v heq hs hv => ?_
    exact ((hreducible.loopNest hwf).count_le_header hL ((mem_getUniqueLoopBB_iff hwf hd).mp hunique) hw hs).trans
      (htrips.dynamic d hd hafter u s v heq hs hv)

end bounds

/-! ### The report of a region -/

section report

variable [DecidableEq β] {g : FlowGraph β} {fn : FunctionAnalysis β} {rank : β → Nat} {bbList : List β}
  {opts : PassOptions}

/-- What is reported of the counters when every block weighs `weight`: each block of a counter with its factor and
what a run has added to the counter. -/
def reportedTotal (fn : FunctionAnalysis β) (tripCount : β → List β → Nat) (counters : List (Counter β))
    (weight : β → Nat) (w : List β) : Nat :=
  (counters.map fun c => (c.scaledBlocks.map fun e => weight e.1 * (e.2 * c.value fn tripCount none w)).sum).sum

/-- The report is never behind the run, whatever is counted of a block. -/
theorem executed_le_reportedTotal (hopt : opts.applyLoopHoisting = true) (hwf : LoopsWellFormed fn.loopInfo)
    (hreducible : Reducible g fn rank) (hdom : ∀ a b, fn.trees.dominates a b = true → g.Dominates a b)
    (hregion : RegionLoops fn bbList) (hnodup : bbList.Nodup) (hfit : ChainsFit fn.trees (regionLoopTree fn bbList))
    (hkept : ∀ d ∈ (regionLoopTree fn bbList).nodes, d.scaleFactor = 0 → ¬ TripCountLost fn bbList d)
    {counters : List (Counter β)} (hrun : InstrumentPragmaRegion opts fn bbList = some counters)
    {tripCount : β → List β → Nat} {w : List β} {z : β} (hw : g.Walk g.entry w z)
    (htrips : TripsBounded fn (regionLoopTree fn bbList) tripCount w) (weight : β → Nat) :
    (bbList.map fun b => weight b * w.count b).sum ≤ reportedTotal fn tripCount counters weight w := by
  have hperm := blocks_perm_bbList hwf hnodup hrun fun _ => hkept
  have hcounters : (bbList.map fun b => weight b * w.count b).sum =
      (counters.map fun c => (c.scaledBlocks.map fun e => weight e.1 * w.count e.1).sum).sum := by
    rw [← (hperm.map _).sum_eq, List.map_flatMap, List.flatMap_def, List.sum_flatten, List.map_map]
    refine congrArg List.sum (List.map_congr_left fun c _ => ?_)
    show (c.blocks.map _).sum = _
    rw [← c.map_fst_scaledBlocks, List.map_map]
    rfl
  rw [hcounters]
  refine List.sum_le_sum fun c hc => List.sum_le_sum fun e he => Nat.mul_le_mul_left _ ?_
  exact count_le_value hopt hwf hreducible hdom hregion hnodup hfit hrun hw htrips hc he

variable {ν : Type*} [Inhabited ν] (nameOf : Operand ν → List Char) (stackAddressList : ν → Bool)

end report

/-! ### Half a run of two nested loops -/

/-- The inner loop of the nested loops loads 8 bytes in each pass. -/
def innerLoad (b : Fin 5) : List (Instruction Nat) :=
  if b.val = 2 then [{ id := 20, opcode := .load, accessSize := 8 }] else []

/-- The counters of the nested loops. -/
def nestedLoopsCounters : List (Counter (Fin 5)) :=
  (InstrumentPragmaRegion {} nestedLoopsFunction nestedLoopsFunction.orderedCFG).getD []

/-- The outer loop is in its first pass and the inner one in its second. -/
def halfRun : List (Fin 5) := [0, 1, 2, 2].filterMap fun k => nestedLoopsFunction.orderedCFG[k]?

/-- The trip counts of the nested loops, wherever they are asked for. -/
def nestedTrips (header : Fin 5) (_ : List (Fin 5)) : Nat := if header.val = 1 then 5 else 3

theorem nestedLoops_reducible : Reducible nestedLoops nestedLoopsFunction Fin.val where
  natural := nestedLoops_natural
  retreating := by
    have hedges : ∀ u : Fin 5, ∀ v ∈ nestedLoops.succs u,
        u.val < v.val ∨ ∃ L ∈ nestedLoopsFunction.loopInfo.nodes, v = L.header ∧ u ∈ L.blocks := by decide
    exact fun u _ => hedges u

theorem nestedLoops_regionLoops : RegionLoops nestedLoopsFunction nestedLoopsFunction.orderedCFG := by
  have hall : ∀ M ∈ nestedLoopsFunction.loopInfo.nodes,
      ∃ d ∈ (regionLoopTree nestedLoopsFunction nestedLoopsFunction.orderedCFG).nodes, d.loop = M := by decide
  exact fun M hM => .inl (hall M hM)

theorem nestedLoops_chainsFit :
    ChainsFit nestedLoopsFunction.trees (regionLoopTree nestedLoopsFunction nestedLoopsFunction.orderedCFG) where
  size := by decide
  product := by
    have hpairs : (regionLoopTree nestedLoopsFunction nestedLoopsFunction.orderedCFG).parentPairs none =
        [(none, ⟨⟨1, [1, 2, 3]⟩, [⟨2, [2]⟩], 0, 5⟩),
          (some ⟨⟨1, [1, 2, 3]⟩, [⟨2, [2]⟩], 0, 5⟩, ⟨⟨2, [2]⟩, [], 0, 3⟩)] := by decide
    intro top _ p sf hchain d hpd
    rw [hpairs] at hpd
    simp only [List.mem_cons, Prod.mk.injEq, reduceCtorEq, false_and, Option.some.injEq, List.not_mem_nil, or_false,
      false_or] at hpd
    obtain ⟨rfl, rfl⟩ := hpd
    -- the outer loop has no parent
    cases hchain with
    | top => decide
    | child _ hpair _ _ =>
      rw [hpairs] at hpair
      simp at hpair

theorem nestedLoops_tripsBounded : TripsBounded nestedLoopsFunction
    (regionLoopTree nestedLoopsFunction nestedLoopsFunction.orderedCFG) nestedTrips halfRun := by
  have hscale : ∀ d ∈ (regionLoopTree nestedLoopsFunction nestedLoopsFunction.orderedCFG).nodes,
      ∀ s ∈ stretches (inLoop d.loop.blocks) halfRun,
        s.count d.loop.header ≤ d.scaleFactor ∧ d.scaleFactor = if d.loop.header.val = 1 then 5 else 3 := by decide
  refine ⟨fun d hd _ s hs => (hscale d hd s hs).1, fun d hd _ u s v _ hs _ => ?_⟩
  obtain ⟨hle, hsf⟩ := hscale d hd s hs
  rw [nestedTrips, ← hsf]
  exact hle

end ZRay.Pass
