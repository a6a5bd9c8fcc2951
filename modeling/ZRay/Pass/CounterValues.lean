import ZRay.Pass.Coverage
import ZRay.Pass.HoistedCounts
import ZRay.Pass.HoistedTops

/-!
# What a run adds to the counters of a region

A post-dominator set is incremented at its first block, a scale-factor set by one on every entry into its top
loop, and a dynamic loop on every entry by the trip count it has then.  Each counter stands for its blocks, each
with a factor: under the conditions of the three optimisations, the factor times what a run adds to the counter
is the number of times the run executes the block, modulo `2 ^ 64` (`value_modEq_count`).  The three kinds are
one argument: the entries into a loop are the stretches of the run in it (`sumEntries_modEq`), and a stretch
counts a hoisted block as the counter does.
-/

namespace ZRay.Pass

open FlowGraph

variable {β : Type*} [DecidableEq β]

/-! ### Increments along a run -/

/-- The blocks of the loop of `LoopInfo` with the given header. -/
def FunctionAnalysis.loopBlocks (fn : FunctionAnalysis β) (header : β) : List β :=
  ((fn.loopInfo.nodes.find? fun L => L.header = header).map Loop.blocks).getD []

/-- Does the step from `prev` to `x` pass the block put on the edge into the loop? -/
def FunctionAnalysis.enters (fn : FunctionAnalysis β) (header : β) (prev : Option β) (x : β) : Bool :=
  x = header && !prev.any (inLoop (fn.loopBlocks header))

/-- What the step from `prev` to `x` adds to a counter; `rest` is the run behind `x`, which the trip count of a
dynamic loop depends on. -/
def Counter.added (fn : FunctionAnalysis β) (tripCount : β → List β → Nat) (prev : Option β) (x : β) (rest : List β) :
    Counter β → Nat
  | .postDomSet blocks => if blocks.head? = some x then 1 else 0
  | .scaleFactorSet header _ => if fn.enters header prev x then 1 else 0
  | .dynamicLoop header _ => if fn.enters header prev x then tripCount header (x :: rest) else 0

/-- What a run adds to a counter, from the block before it on. -/
def Counter.value (fn : FunctionAnalysis β) (tripCount : β → List β → Nat) (c : Counter β) : Option β → List β → Nat
  | _, [] => 0
  | prev, x :: w => c.added fn tripCount prev x w + c.value fn tripCount (some x) w

/-- The blocks a counter stands for, each with the factor its instructions are recorded with. -/
def Counter.scaledBlocks : Counter β → List (β × Nat)
  | .postDomSet blocks => blocks.map fun b => (b, 1)
  | .scaleFactorSet _ pairs => pairs.flatMap fun pr => pr.1.map fun b => (b, pr.2)
  | .dynamicLoop _ blocks => blocks.map fun b => (b, 1)

omit [DecidableEq β] in
theorem Counter.map_fst_scaledBlocks (c : Counter β) : c.scaledBlocks.map Prod.fst = c.blocks := by
  cases c with
  | postDomSet blocks => simp [scaledBlocks, Function.comp_def]
  | scaleFactorSet header pairs => simp [scaledBlocks, List.map_flatMap, Function.comp_def]
  | dynamicLoop header blocks => simp [scaledBlocks, Function.comp_def]

theorem loopBlocks_header {fn : FunctionAnalysis β} (hwf : LoopsWellFormed fn.loopInfo) {L : Loop β}
    (hL : L ∈ fn.loopInfo.nodes) : fn.loopBlocks L.header = L.blocks := by
  unfold FunctionAnalysis.loopBlocks
  cases hfind : fn.loopInfo.nodes.find? fun M => M.header = L.header with
  | none =>
    rw [List.find?_eq_none] at hfind
    exact absurd (by simp) (hfind L hL)
  | some M =>
    have hheader : M.header = L.header := by simpa using List.find?_some hfind
    have heq := hwf.eq_of_header_eq (List.mem_of_find?_eq_some hfind) hL hheader
    rw [heq]
    rfl

/-! ### The three kinds -/

section value

variable {g : FlowGraph β} {fn : FunctionAnalysis β} {tripCount : β → List β → Nat}

theorem value_postDomSet (b : β) (taken : List β) (prev : Option β) (w : List β) :
    (Counter.postDomSet (b :: taken)).value fn tripCount prev w = w.count b := by
  induction w generalizing prev with
  | nil => rfl
  | cons x w ih =>
    rw [Counter.value, ih, Counter.added, List.count_cons]
    by_cases hx : x = b
    · simp [hx, Nat.add_comm]
    · simp [hx, Ne.symm hx]

/-- Along a walk the block on the edge is passed on every entry into the loop, and then only. -/
theorem enters_eq (hwf : LoopsWellFormed fn.loopInfo) {L : Loop β} (hL : L ∈ fn.loopInfo.nodes)
    (hnatural : g.NaturalLoop L.header L.blocks) {prev x : β} (hprev : g.Reachable prev) (hx : x ∈ g.succs prev) :
    fn.enters L.header (some prev) x = (inLoop L.blocks x && !inLoop L.blocks prev) := by
  unfold FunctionAnalysis.enters
  rw [loopBlocks_header hwf hL, Option.any_some]
  by_cases hin : inLoop L.blocks prev = true
  · simp [hin]
  · have hout : prev ∉ L.blocks := by simpa [inLoop] using hin
    have hsame : decide (x = L.header) = inLoop L.blocks x := by
      by_cases hxL : x ∈ L.blocks
      · have heq := hnatural.single_entry prev hprev hout x hx hxL
        simp [inLoop, heq, hnatural.header_mem]
      · have hne : x ≠ L.header := fun heq => hxL (heq ▸ hnatural.header_mem)
        simp [inLoop, hxL, hne]
    rw [hsame]

/-- What a hoisted counter gets is added up at the entries into its loop. -/
theorem value_hoisted (hwf : LoopsWellFormed fn.loopInfo) {L : Loop β} (hL : L ∈ fn.loopInfo.nodes)
    (hnatural : g.NaturalLoop L.header L.blocks) {c : Counter β} {F : List β → Nat}
    (hadded : ∀ prev x rest, c.added fn tripCount prev x rest =
      if fn.enters L.header prev x then F (x :: rest) else 0) {w : List β} {z : β} (hw : g.Walk g.entry w z) :
    c.value fn tripCount none w = sumEntries (inLoop L.blocks) F false w := by
  -- behind the first block every step goes along an edge
  have hrest : ∀ (v : List β) (a z' : β), g.Reachable a → g.Walk a (a :: v) z' →
      c.value fn tripCount (some a) v = sumEntries (inLoop L.blocks) F (inLoop L.blocks a) v := by
    intro v
    induction v with
    | nil => intro a z' _ _; rfl
    | cons x v ih =>
      intro a z' ha hwalk
      obtain ⟨hx, htail⟩ := hwalk.step
      obtain ⟨u, hu⟩ := id ha
      have hxr : g.Reachable x := ⟨_, hu.concat hx (.single x)⟩
      rw [Counter.value, hadded, enters_eq hwf hL hnatural ha hx, sumEntries, ih x z' hxr htail]
  obtain ⟨v, rfl⟩ := hw.exists_cons
  have hentry : g.entry ≠ L.header := fun heq => hnatural.entry_not_mem (heq ▸ hnatural.header_mem)
  have hout : inLoop L.blocks g.entry = false := by simpa [inLoop] using hnatural.entry_not_mem
  rw [Counter.value, hadded, sumEntries, hrest v g.entry z ⟨_, .single _⟩ hw, hout]
  simp [FunctionAnalysis.enters, hentry]

end value

/-! ### Where the dynamic counters come from -/

/-- Every dynamic counter counts for a loop of the tree whose trip count is known before and after the edge into it is
split, and its blocks are directly in the loop and post-dominate the header. -/
def DynamicFromLoops (fn : FunctionAnalysis β) (tree : Forest (LoopData β)) (counters : List (Counter β)) : Prop :=
  ∀ header blocks, .dynamicLoop header blocks ∈ counters → ∃ d ∈ tree.nodes, d.loop.header = header ∧
    (fn.beforeSplit header).isHoistable = true ∧ (fn.afterSplit header).isHoistable = true ∧
    ∀ b ∈ blocks, b ∈ getUniqueLoopBB d ∧ fn.trees.postDominates b header = true

theorem dynamicFromLoops_instrumentDynamicLoop {opts : PassOptions} {fn : FunctionAnalysis β}
    {tree : Forest (LoopData β)} {d : LoopData β} (hd : d ∈ tree.nodes) {s : RegionState β}
    (h : DynamicFromLoops fn tree s.counters) :
      DynamicFromLoops fn tree (instrumentDynamicLoop opts fn d s).counters := by
  intro header blocks hmem
  rcases (mem_counters_instrumentDynamicLoop (by simp)).mp hmem with hold | hnew
  · exact h header blocks hold
  · unfold insertDynamicLoopCounter at hnew
    split at hnew
    · simp at hnew
    · rename_i hne
      split at hnew
      · rename_i hafter
        simp only [Option.some.injEq, Counter.dynamicLoop.injEq] at hnew
        obtain ⟨rfl, rfl⟩ := hnew
        have hpd : ∀ b ∈ (takeLoopBlocks (fun b => (fn.beforeSplit d.loop.header).isHoistable &&
            fn.trees.postDominates b d.loop.header) (getUniqueLoopBB d) s.pragmaBlocks).pd,
            b ∈ getUniqueLoopBB d ∧ (fn.beforeSplit d.loop.header).isHoistable = true ∧
              fn.trees.postDominates b d.loop.header = true := by
          intro b hb
          obtain ⟨hunique, htest⟩ := of_mem_pd_takeLoopBlocks hb
          rw [Bool.and_eq_true] at htest
          exact ⟨hunique, htest.1, htest.2⟩
        -- the list is not empty, so the count was known before the split
        obtain ⟨b, hb⟩ := List.exists_mem_of_ne_nil _ (by simpa using hne)
        exact ⟨d, hd, rfl, (hpd b hb).2.1, hafter, fun x hx => ⟨(hpd x hx).1, (hpd x hx).2.2⟩⟩
      · simp at hnew

theorem dynamicFromLoops_instrumentDynamicLoops {opts : PassOptions} {fn : FunctionAnalysis β}
    {tree : Forest (LoopData β)} (t : Forest (LoopData β)) (ht : ∀ d ∈ t.nodes, d ∈ tree.nodes) {s : RegionState β}
    (h : DynamicFromLoops fn tree s.counters) :
      DynamicFromLoops fn tree (instrumentDynamicLoops opts fn t s).counters := by
  induction t generalizing s with
  | nil => exact h
  | node d ch sib ihc ihs =>
    have hd := ht d (by simp)
    have hch : ∀ e ∈ ch.nodes, e ∈ tree.nodes := fun e he => ht e (by simp [he])
    have hsib : ∀ e ∈ sib.nodes, e ∈ tree.nodes := fun e he => ht e (by simp [he])
    rw [instrumentDynamicLoops]
    refine ihs hsib (ihc hch ?_)
    split
    · exact dynamicFromLoops_instrumentDynamicLoop hd h
    · exact h

/-- The dynamic counters `InstrumentPragmaRegion` inserts belong to loops of the region's tree. -/
theorem dynamicFromLoops_instrumentPragmaRegion (opts : PassOptions) (fn : FunctionAnalysis β) {bbList : List β}
    {counters : List (Counter β)} (hrun : InstrumentPragmaRegion opts fn bbList = some counters) :
    DynamicFromLoops fn (regionLoopTree fn bbList) counters := by
  unfold InstrumentPragmaRegion at hrun
  split at hrun
  · rw [← Option.some.inj hrun]
    intro header blocks hmem
    simp at hmem
  · dsimp only at hrun
    split at hrun
    · obtain ⟨n, t, s, hsets, hT, -, -, -⟩ :=
        held_instrumentSFLoopSets opts fn.trees (regionLoopTree fn bbList) ⟨bbList, []⟩
      have huncolored : (regionLoopTree fn bbList).map LoopData.uncolored = regionLoopTree fn bbList :=
        map_uncolored_createLoopTree _ _ _
      obtain ⟨t', s', hsets', hnodyn, -⟩ :=
        scaleFactorSet_mem_instrumentSFLoopSets opts fn.trees huncolored bbList
      obtain ⟨rfl, rfl⟩ := Prod.mk.inj (Option.some.inj (hsets'.symm.trans hsets))
      simp only [instrumentLoops, hsets, Option.map_some, Option.some.injEq] at hrun
      subst hrun
      have hdyn : DynamicFromLoops fn t' (instrumentDynamicLoops opts fn t' s').counters :=
        dynamicFromLoops_instrumentDynamicLoops t' (fun d hd => hd)
          fun header blocks hmem => absurd hmem (hnodyn header blocks)
      intro header blocks hmem
      rw [List.mem_append, or_iff_left (not_mem_instrumentPostDomSet (by simp))] at hmem
      obtain ⟨e, he, hheader, hbefore, hafter, hblocks⟩ := hdyn header blocks hmem
      have hmap : e.uncolored ∈ (regionLoopTree fn bbList).nodes := by
        rw [← huncolored, ← hT, Forest.nodes_map]
        exact List.mem_map_of_mem he
      exact ⟨e.uncolored, hmap, hheader, hbefore, hafter, hblocks⟩
    · rw [Option.map_some, Option.some.injEq] at hrun
      subst hrun
      intro header blocks hmem
      rw [List.nil_append] at hmem
      exact absurd hmem (not_mem_instrumentPostDomSet (by simp))

/-! ### A counter and its blocks -/

/-- The sets among the counters. -/
def postDomSets (counters : List (Counter β)) : List (List β) :=
  counters.filterMap fun
    | .postDomSet blocks => some blocks
    | _ => none

/-- What the three optimisations rely on: blocks that share a counter run equally often, the blocks hoisted out of a
loop are passed once in each pass, and so are the loops of a chain. -/
structure CountsShared (g : FlowGraph β) (fn : FunctionAnalysis β) (tree : Forest (LoopData β))
    (counters : List (Counter β)) : Prop where
  alike : SetsCountAlike g (postDomSets counters)
  oncePerPass : ForHoistedBlocks fn tree fun L b => g.OncePerPass L.header L.blocks b
  chains : ChainsEnteredOnce g fn.trees tree

/-- What scalar evolution promises of a run: each entry of a loop executes the header as often as the scale factor
says, and as often as the expanded trip count, a word, evaluates to in front of the loop. -/
structure TripsExact (fn : FunctionAnalysis β) (tree : Forest (LoopData β)) (tripCount : β → List β → Nat)
    (w : List β) : Prop where
  scaleFactors : KeepsScaleFactors tree w
  dynamic : ∀ d ∈ tree.nodes, (fn.afterSplit d.loop.header).isHoistable = true → ∀ u s v, w = u ++ (s ++ v) →
    s ∈ stretches (inLoop d.loop.blocks) w → v.head?.any (inLoop d.loop.blocks) = false →
      tripCount d.loop.header (s ++ v) ≡ s.count d.loop.header [MOD 2 ^ 64]

/-- The factor of a block times what a complete run adds to the counter is the number of times the run executes the
block, modulo `2 ^ 64`. -/
theorem value_modEq_count {g : FlowGraph β} {fn : FunctionAnalysis β} {opts : PassOptions}
    (hwf : LoopsWellFormed fn.loopInfo) (hnatural : ∀ L ∈ fn.loopInfo.nodes, g.NaturalLoop L.header L.blocks)
    (hexact : ExactCounts g fn) {bbList : List β} {counters : List (Counter β)}
    (hrun : InstrumentPragmaRegion opts fn bbList = some counters)
    (hshared : CountsShared g fn (regionLoopTree fn bbList) counters) {tripCount : β → List β → Nat} {w : List β}
    (hw : g.Complete w) (htrips : TripsExact fn (regionLoopTree fn bbList) tripCount w) {c : Counter β}
    (hc : c ∈ counters) {b : β} {sf : Nat} (hb : (b, sf) ∈ c.scaledBlocks) :
    sf * c.value fn tripCount none w ≡ w.count b [MOD 2 ^ 64] := by
  have htree : TreeOf g (regionLoopTree fn bbList) :=
    treeOf_createLoopTree hwf hnatural fun d hd => hexact.exitsDominateLatch hd
  obtain ⟨z, -, hwalk⟩ := id hw
  cases c with
  | postDomSet blocks =>
    simp only [Counter.scaledBlocks, List.mem_map, Prod.mk.injEq] at hb
    obtain ⟨x, hx, rfl, rfl⟩ := hb
    cases blocks with
    | nil => simp at hx
    | cons a taken =>
      rw [value_postDomSet, Nat.one_mul]
      rcases List.mem_cons.mp hx with rfl | hx
      · exact Nat.ModEq.refl _
      · have hset : a :: taken ∈ postDomSets counters := List.mem_filterMap.mpr ⟨_, hc, rfl⟩
        rw [hshared.alike a taken hset x hx w hw]
  | scaleFactorSet header pairs =>
    simp only [Counter.scaledBlocks, List.mem_flatMap, List.mem_map, Prod.mk.injEq] at hb
    obtain ⟨pr, hpr, x, hx, rfl, rfl⟩ := hb
    obtain ⟨top, htop, rfl, hsf, hpairs⟩ := setsFromChains_instrumentPragmaRegion opts fn hrun header pairs hc
    obtain ⟨d, hchain, hblocks⟩ := hpairs pr hpr
    obtain ⟨hunique, hpd⟩ := hblocks x hx
    have honce := hshared.oncePerPass d (hchain.mem htop) (.inl (hchain.scaleFactor_ne_zero hsf)) x hunique hpd
    have hxd : x ∈ d.loop.blocks := (mem_getUniqueLoopBB.mp hunique).1
    have hL := (mem_createLoopTree htop).1
    rw [value_hoisted hwf hL (hnatural _ hL) (F := fun _ => 1) (fun prev y rest => rfl) hwalk, mul_sumEntries,
      count_eq_sum_stretches (p := inLoop top.loop.blocks) (by simpa [inLoop] using hchain.subset_top htree hxd)]
    refine sumEntries_modEq fun u s v _ hs _ => ?_
    rw [Nat.mul_one]
    exact (hchain.count_modEq htree htop hsf hshared.chains hw htrips.scaleFactors hs hxd honce).symm
  | dynamicLoop header blocks =>
    simp only [Counter.scaledBlocks, List.mem_map, Prod.mk.injEq] at hb
    obtain ⟨x, hx, rfl, rfl⟩ := hb
    obtain ⟨d, hd, rfl, hbefore, hafter, hblocks⟩ :=
      dynamicFromLoops_instrumentPragmaRegion opts fn hrun header blocks hc
    obtain ⟨hunique, hpd⟩ := hblocks x hx
    have honce := hshared.oncePerPass d hd (.inr ⟨hbefore, hafter⟩) x hunique hpd
    have hL := (mem_createLoopTree hd).1
    have hlatch : g.ExitsDominateLatch d.loop.header d.loop.blocks := by
      refine hexact d.loop hL (.inr fun hnone => ?_)
      rw [hnone] at hbefore
      cases hbefore
    rw [value_hoisted hwf hL (hnatural _ hL) (F := tripCount d.loop.header) (fun prev y rest => rfl) hwalk,
      Nat.one_mul, count_eq_sum_stretches (p := inLoop d.loop.blocks)
        (by simpa [inLoop] using (mem_getUniqueLoopBB.mp hunique).1)]
    refine sumEntries_modEq fun u s v heq hs hv => ?_
    rw [(hnatural _ hL).count_eq_of_oncePerPass hlatch honce hw hs]
    exact htrips.dynamic d hd hafter u s v heq hs hv

end ZRay.Pass
