import ZRay.ControlFlow.Walk
import ZRay.Pass.Instrument

/-!
# A shared counter counts as its blocks do

The blocks of a post-dominator set are counted by one increment at the set's first block.  With the dominator trees of
the function's flow graph, the first block dominates the others and they post-dominate it.  That makes them execute in
the same runs, but equally often only when no cycle passes through one of them without the other: on the graph
`irreducible` the blocks 0, 2 and 3 share a counter and the cycle between 1 and 2 passes block 2 alone.
`setsCountAlike_iff_cyclesShared` says exactly when the counts agree.
-/

namespace ZRay.Pass

open FlowGraph

variable {β : Type*}

/-- The answers of `PreDomTree` and `PostDomTree` are those of the graph; the exits are roots of the latter. -/
structure TreesOf (g : FlowGraph β) (root : β → Prop) (trees : DominatorTrees β) : Prop where
  dominates_iff : ∀ a x, trees.dominates a x = true ↔ g.Dominates a x
  postDominates_iff : ∀ a x, trees.postDominates a x = true ↔ g.PostDominates root a x
  root_of_exit : ∀ z, g.succs z = [] → root z

variable {g : FlowGraph β} {root : β → Prop} {trees : DominatorTrees β} {opts : PassOptions}

theorem TreesOf.controlEquivalent_iff (h : TreesOf g root trees) (hopt : opts.applyPostDomSets = true) {b x : β} :
    controlEquivalent opts trees b x = true ↔ g.Dominates b x ∧ g.PostDominates root x b := by
  unfold controlEquivalent
  rw [hopt, Bool.true_and, Bool.and_eq_true, h.dominates_iff, h.postDominates_iff, and_comm]

theorem TreesOf.controlEquivalent_trans (h : TreesOf g root trees) (hopt : opts.applyPostDomSets = true) (a b c : β)
    (hab : controlEquivalent opts trees a b = true) (hbc : controlEquivalent opts trees b c = true) :
    controlEquivalent opts trees a c = true := by
  rw [h.controlEquivalent_iff hopt] at hab hbc ⊢
  exact ⟨hab.1.trans hbc.1, hbc.2.trans hab.2⟩

/-- Every block of a set executes in every complete run as often as the set's first block, where the increment is. -/
def SetsCountAlike [DecidableEq β] (g : FlowGraph β) (sets : List (List β)) : Prop :=
  ∀ b taken, b :: taken ∈ sets → ∀ x ∈ taken, ∀ w, g.Complete w → w.count x = w.count b

/-- `b` is the first block of the pool that dominates the later block `x` and that `x` post-dominates. -/
def IsFirstEquivalent (g : FlowGraph β) (root : β → Prop) (pool : List β) (b x : β) : Prop :=
  ∃ l r, pool = l ++ b :: r ∧ x ∈ r ∧ g.Dominates b x ∧ g.PostDominates root x b ∧
    ∀ c ∈ l, ¬ (g.Dominates c x ∧ g.PostDominates root x c)

/-- When a block of the pool that some complete run executes shares its counter with `b`, every cycle passes through
both or through none. -/
def CyclesShared (g : FlowGraph β) (root : β → Prop) (pool : List β) : Prop :=
  ∀ b x, IsFirstEquivalent g root pool b x → (∃ w, g.Complete w ∧ x ∈ w) →
    g.EveryCycleVisits b x ∧ g.EveryCycleVisits x b

theorem mem_createPostDomSets_iff_isFirstEquivalent (h : TreesOf g root trees) (hopt : opts.applyPostDomSets = true)
    {pool : List β} {b x : β} :
    (∃ taken, b :: taken ∈ createPostDomSets opts trees pool ∧ x ∈ taken) ↔ IsFirstEquivalent g root pool b x := by
  rw [mem_createPostDomSets_iff_first (h.controlEquivalent_trans hopt)]
  unfold IsFirstEquivalent
  simp only [← Bool.not_eq_true, h.controlEquivalent_iff hopt, and_assoc]

/-- For every flow graph and every pool: the sets `createPostDomSets` makes count each block as a counter of its own
would, if and only if blocks that share a counter share their cycles. -/
theorem setsCountAlike_iff_cyclesShared [DecidableEq β] (g : FlowGraph β) (root : β → Prop) (trees : DominatorTrees β)
    (opts : PassOptions) (htrees : TreesOf g root trees) (hopt : opts.applyPostDomSets = true) (pool : List β) :
    SetsCountAlike g (createPostDomSets opts trees pool) ↔ CyclesShared g root pool := by
  constructor
  · intro halike b x hfirst hx
    obtain ⟨taken, hset, hxt⟩ := (mem_createPostDomSets_iff_isFirstEquivalent htrees hopt).mpr hfirst
    have hcount : ∀ w, g.Complete w → w.count b = w.count x := fun w hw => (halike b taken hset x hxt w hw).symm
    obtain ⟨w, hw, hxw⟩ := hx
    have hbw : b ∈ w := by
      rw [← List.count_pos_iff, hcount w hw, List.count_pos_iff]
      exact hxw
    constructor
    · exact everyCycleVisits_of_count_eq hcount ⟨w, hw, hbw⟩
    · exact everyCycleVisits_of_count_eq (fun w hw => (hcount w hw).symm) ⟨w, hw, hxw⟩
  · intro hcycles b taken hset x hxt w hw
    have hfirst := (mem_createPostDomSets_iff_isFirstEquivalent htrees hopt).mp ⟨taken, hset, hxt⟩
    obtain ⟨l, r, -, -, hdom, hpdom, -⟩ := id hfirst
    obtain ⟨z, hz, hwz⟩ := id hw
    by_cases hx : x ∈ w
    · obtain ⟨hbx, hxb⟩ := hcycles b x hfirst ⟨w, hw, hx⟩
      exact (count_eq_of_cycles hdom hpdom hbx hxb hwz (htrees.root_of_exit z hz)).symm
    · -- a run that passes `b` goes on to `x`
      have hb : b ∉ w := by
        intro hb
        obtain ⟨u, v, rfl⟩ := List.append_of_mem hb
        have hmem := hpdom z (htrees.root_of_exit z hz) _ hwz.split.2
        exact hx (List.mem_append_right u hmem)
      rw [List.count_eq_zero_of_not_mem hx, List.count_eq_zero_of_not_mem hb]

/-! ### Two graphs -/

/-- The dominator trees computed by reachability in at most `n` steps. -/
def computedTrees [DecidableEq β] (g : FlowGraph β) (roots : List β) (n : Nat) : DominatorTrees β where
  dominates a x := decide (x ∉ g.reachAvoiding a n g.entry)
  postDominates a x := decide (∀ z ∈ roots, z ∉ g.reachAvoiding a n x)

theorem treesOf_computedTrees [DecidableEq β] {g : FlowGraph β} {roots : List β} {n : Nat}
    (hclosed : ∀ a s, g.ClosedAvoiding a (g.reachAvoiding a n s)) (hexit : ∀ z, g.succs z = [] → z ∈ roots) :
    TreesOf g (· ∈ roots) (computedTrees g roots n) where
  dominates_iff a x := by
    rw [dominates_iff_not_mem_reachAvoiding (hclosed a g.entry)]
    simp [computedTrees]
  postDominates_iff a x := by
    rw [postDominates_iff_not_mem_reachAvoiding (hclosed a x)]
    simp [computedTrees]
  root_of_exit := hexit

/-- Blocks 1 and 2 form a cycle entered at either: no natural loop, so all four blocks are in one pool. -/
def irreducible : FlowGraph (Fin 4) where
  entry := 0
  succs
    | 0 => [1, 2]
    | 1 => [2]
    | 2 => [1, 3]
    | 3 => []

/-- The function of this graph, with unit block sizes. -/
def irreducibleFunction : FunctionAnalysis (Fin 4) where
  orderedCFG := [0, 1, 2, 3]
  size := fun _ => 1
  detectPragma := fun _ => false
  trees := computedTrees irreducible [3] 4
  loopInfo := .nil
  backedgeTakenCount := fun _ => .couldNotCompute
  beforeSplit := fun _ => .couldNotCompute
  afterSplit := fun _ => .couldNotCompute

/-- The walk 0, 2, 1, 2, 3 executes block 2 twice and block 0, where their counter is incremented, once. -/
theorem not_setsCountAlike_irreducible :
    TreesOf irreducible (· ∈ [3]) irreducibleFunction.trees ∧
      InstrumentPragmaRegion {} irreducibleFunction [0, 1, 2, 3] = some [.postDomSet [0, 2, 3], .postDomSet [1]] ∧
      createPostDomSets {} irreducibleFunction.trees [0, 1, 2, 3] = [[0, 2, 3], [1]] ∧
      ¬ SetsCountAlike irreducible (createPostDomSets {} irreducibleFunction.trees [0, 1, 2, 3]) := by
  have htrees : TreesOf irreducible (· ∈ [3]) (computedTrees irreducible [3] 4) :=
    treesOf_computedTrees (by decide) (by decide)
  have hsets : createPostDomSets {} irreducibleFunction.trees [0, 1, 2, 3] = [[0, 2, 3], [1]] := by decide
  refine ⟨htrees, by decide, hsets, fun halike => ?_⟩
  rw [hsets] at halike
  have hwalk : irreducible.Walk 0 [0, 2, 1, 2, 3] 3 :=
    .cons (by decide) (.cons (by decide) (.cons (by decide) (.cons (by decide) (.single 3))))
  have hcount := halike 0 [2, 3] (by simp) 2 (by simp) [0, 2, 1, 2, 3] ⟨3, by decide, hwalk⟩
  simp at hcount

/-- A diamond without cycles: blocks 0 and 3 share a counter. -/
def diamond : FlowGraph (Fin 4) where
  entry := 0
  succs
    | 0 => [1, 2]
    | 1 => [3]
    | 2 => [3]
    | 3 => []

private theorem diamond_succs_lt : ∀ a : Fin 4, ∀ b ∈ diamond.succs a, a.val < b.val := by decide

private theorem diamond_walk_le {a b : Fin 4} {w : List (Fin 4)} (h : diamond.Walk a w b) : a.val ≤ b.val := by
  induction h with
  | single a => exact Nat.le_refl a.val
  | @cons a c _ _ he _ ih =>
    have hac := diamond_succs_lt a c he
    omega

private theorem diamond_everyCycleVisits (a x : Fin 4) : diamond.EveryCycleVisits a x := by
  intro w hw hne
  cases hw with
  | single => exact absurd rfl hne
  | @cons _ c _ _ he hw =>
    have hac := diamond_succs_lt a c he
    have hca := diamond_walk_le hw
    omega

theorem setsCountAlike_diamond :
    SetsCountAlike diamond (createPostDomSets {} (computedTrees diamond [3] 2) [0, 1, 2, 3]) :=
  (setsCountAlike_iff_cyclesShared diamond (· ∈ [3]) (computedTrees diamond [3] 2) {}
    (treesOf_computedTrees (by decide) (by decide)) rfl [0, 1, 2, 3]).mpr
    fun b x _ _ => ⟨diamond_everyCycleVisits b x, diamond_everyCycleVisits x b⟩

end ZRay.Pass
