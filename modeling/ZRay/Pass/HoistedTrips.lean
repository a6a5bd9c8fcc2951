import ZRay.Pass.CounterValues
import ZRay.Pass.TripCount

/-!
# Hoisted counts are the trip counts of scalar evolution

Scalar evolution gives a count `c` for a loop, a constant or a value taken on entry, and promises that an entry
executes the header `c + 1` times.  The code gets at a constant by its printed text (`getLoopTripCount`) and at a
value by expanding it in front of the loop (`insertDynamicLoopEvent`), and takes `c + 1` for the executions of every
block that was hoisted.  That holds exactly when the constants are read back and the blocks are passed once in each
pass of their loops (`hoistedCounts_iff_oncePerPass`): on the graph `exitAndReturn` the inner loop is left by its
header on the first entry and block 3 is not executed, and on `upperHalf` a 32-bit count is read as a 64-bit one.
-/

namespace ZRay.Pass

open FlowGraph
open ScalarEvolution (BackedgeTaken dynamicTripCount)

variable {β : Type*}

/-! ### The answers -/

/-- What scalar evolution answers for the loops of a function, by header: when the loop tree is built, when a dynamic
loop is visited, and after the edge into its header was split. -/
structure TripAnswers (β : Type*) where
  backedgeTaken : β → BackedgeTaken
  beforeSplit : β → BackedgeTaken
  afterSplit : β → BackedgeTaken

/-- The analysis is what the code makes of the answers.  `getLoopTripCount` comes back for every loop,
without a failed assertion. -/
structure FunctionAnalysis.Reads (fn : FunctionAnalysis β) (ndebug : Bool) (se : TripAnswers β) : Prop where
  returned : ∀ L ∈ fn.loopInfo.nodes, ∃ ok count,
    ScalarEvolution.getLoopTripCount ndebug (se.backedgeTaken L.header) 0 = .ok (ok, count)
  backedgeTaken : ∀ L ∈ fn.loopInfo.nodes, fn.backedgeTakenCount L.header = (se.backedgeTaken L.header).asRead
  beforeSplit : ∀ L ∈ fn.loopInfo.nodes, fn.beforeSplit L.header = (se.beforeSplit L.header).asRead
  afterSplit : ∀ L ∈ fn.loopInfo.nodes, fn.afterSplit L.header = (se.afterSplit L.header).asRead

/-- A loop with an exact count has one latch, which every exiting block dominates. -/
def TripAnswers.OneLatch (se : TripAnswers β) (g : FlowGraph β) (loops : Forest (Loop β)) : Prop :=
  ∀ L ∈ loops.nodes, (se.backedgeTaken L.header ≠ .couldNotCompute ∨ se.beforeSplit L.header ≠ .couldNotCompute ∨
    se.afterSplit L.header ≠ .couldNotCompute) → g.ExitsDominateLatch L.header L.blocks

/-- `c` is a count that scalar evolution gives for an entry of a hoisted loop: the constant of a loop with a scale
factor, or what the answer for a dynamic loop comes to in front of the loop. -/
def TripAnswers.Gives (se : TripAnswers β) (fn : FunctionAnalysis β) (d : LoopData β) {w : Nat} (c : BitVec w) :
    Prop :=
  if d.scaleFactor ≠ 0 then (se.backedgeTaken d.loop.header).Allows c
  else (fn.beforeSplit d.loop.header).isHoistable = true ∧ (fn.afterSplit d.loop.header).isHoistable = true ∧
    (se.afterSplit d.loop.header).Allows c

variable [DecidableEq β]

/-- The run keeps the constants: every entry of a loop with the constant `c` executes the header `c + 1` times. -/
def TripAnswers.KeptBy (se : TripAnswers β) (loops : Forest (Loop β)) (run : List β) : Prop :=
  ∀ L ∈ loops.nodes, ∀ w (c : BitVec w), se.backedgeTaken L.header = .constant w c →
    ∀ s ∈ stretches (inLoop L.blocks) run, s.count L.header = c.toNat + 1

/-- Entry by entry, the hoisted counts are the counts of the blocks.  Of a loop with a scale factor that is the
factor, of a dynamic loop what `insertDynamicLoopEvent` adds, and every hoisted block executes as often. -/
structure EntriesExact (g : FlowGraph β) (fn : FunctionAnalysis β) (se : TripAnswers β) (tree : Forest (LoopData β)) :
    Prop where
  scaleFactor : ∀ d ∈ tree.nodes, d.scaleFactor ≠ 0 → ∀ w (c : BitVec w), se.Gives fn d c →
    d.scaleFactor = c.toNat + 1
  added : ∀ d ∈ tree.nodes, d.scaleFactor = 0 → ∀ w (c : BitVec w), se.Gives fn d c →
    (dynamicTripCount c).toNat ≡ c.toNat + 1 [MOD 2 ^ 64]
  executed : ∀ d ∈ tree.nodes, ∀ b ∈ getUniqueLoopBB d, fn.trees.postDominates b d.loop.header = true →
    ∀ w (c : BitVec w), se.Gives fn d c → g.EntryCounts d.loop.header d.loop.blocks (c.toNat + 1) b

/-- The constants behind the scale factors are read back from their texts. -/
def ConstantsReadBack (se : TripAnswers β) (tree : Forest (LoopData β)) : Prop :=
  ∀ d ∈ tree.nodes, d.scaleFactor ≠ 0 → (se.backedgeTaken d.loop.header).IsReadBack

section reads

variable {g : FlowGraph β} {fn : FunctionAnalysis β} {ndebug : Bool} {se : TripAnswers β} {bbList : List β}
  {d : LoopData β}

omit [DecidableEq β] in
theorem TripAnswers.gives_constant {w : Nat} {c : BitVec w} (hsf : d.scaleFactor ≠ 0)
    (hanswer : se.backedgeTaken d.loop.header = .constant w c) : se.Gives fn d c := by
  rw [TripAnswers.Gives, if_pos hsf, hanswer]
  exact ⟨rfl, rfl⟩

omit [DecidableEq β] in
/-- A scale factor comes from a constant. -/
theorem FunctionAnalysis.Reads.exists_constant (hreads : fn.Reads ndebug se) {inBounds : β → Bool}
    (hd : d ∈ (createLoopTree inBounds fn.backedgeTakenCount fn.loopInfo).nodes) (hsf : d.scaleFactor ≠ 0) :
    ∃ ok w c, se.backedgeTaken d.loop.header = .constant w c ∧
      ScalarEvolution.getLoopTripCount ndebug (.constant w c) 0 = .ok (ok, d.scaleFactor) := by
  obtain ⟨hmem, htrip⟩ := mem_createLoopTree hd
  obtain ⟨ok, count, hread⟩ := hreads.returned d.loop hmem
  have hcount := ScalarEvolution.scaleFactor_eq hread
  rw [← hreads.backedgeTaken d.loop hmem, ← htrip] at hcount
  subst hcount
  cases hanswer : se.backedgeTaken d.loop.header with
  | couldNotCompute =>
    rw [hanswer] at hread
    exact absurd (Prod.mk.inj (Except.ok.inj hread)).2.symm hsf
  | constant w c => exact ⟨ok, w, c, rfl, hanswer ▸ hread⟩
  | expression loopInvariant =>
    rw [hanswer] at hread
    exact absurd (Prod.mk.inj (Except.ok.inj hread)).2.symm hsf

omit [DecidableEq β] in
/-- A hoisted loop has a count. -/
theorem FunctionAnalysis.Reads.exists_gives (hreads : fn.Reads ndebug se) {inBounds : β → Bool}
    (hd : d ∈ (createLoopTree inBounds fn.backedgeTakenCount fn.loopInfo).nodes) (hhoisted : Hoisted fn d) :
    (∃ w, ∃ c : BitVec w, se.Gives fn d c) ∧
      (se.backedgeTaken d.loop.header ≠ .couldNotCompute ∨ se.afterSplit d.loop.header ≠ .couldNotCompute) := by
  by_cases hsf : d.scaleFactor = 0
  · obtain ⟨hbefore, hafter⟩ := hhoisted.resolve_left fun h => h hsf
    have hanswer := hreads.afterSplit d.loop (mem_createLoopTree hd).1
    cases hse : se.afterSplit d.loop.header with
    | couldNotCompute =>
      rw [hanswer, hse] at hafter
      cases hafter
    | constant w c =>
      refine ⟨⟨w, c, ?_⟩, .inr (by simp)⟩
      rw [TripAnswers.Gives, if_neg (by simpa using hsf), hse]
      exact ⟨hbefore, hafter, rfl, rfl⟩
    | expression loopInvariant =>
      refine ⟨⟨1, 0#1, ?_⟩, .inr (by simp)⟩
      rw [TripAnswers.Gives, if_neg (by simpa using hsf), hse]
      exact ⟨hbefore, hafter, trivial⟩
  · obtain ⟨-, w, c, hanswer, -⟩ := hreads.exists_constant hd hsf
    exact ⟨⟨w, c, TripAnswers.gives_constant hsf hanswer⟩, .inl (by simp [hanswer])⟩

omit [DecidableEq β] in
/-- A hoisted loop has one latch. -/
theorem FunctionAnalysis.Reads.exitsDominateLatch (hreads : fn.Reads ndebug se) (hlatch : se.OneLatch g fn.loopInfo)
    {inBounds : β → Bool} (hd : d ∈ (createLoopTree inBounds fn.backedgeTakenCount fn.loopInfo).nodes)
    (hhoisted : Hoisted fn d) : g.ExitsDominateLatch d.loop.header d.loop.blocks :=
  hlatch d.loop (mem_createLoopTree hd).1 ((hreads.exists_gives hd hhoisted).2.imp_right .inr)

omit [DecidableEq β] in
/-- The factor is the trip count exactly when the constant is read back. -/
theorem FunctionAnalysis.Reads.scaleFactor_iff (hreads : fn.Reads ndebug se) {inBounds : β → Bool}
    (hd : d ∈ (createLoopTree inBounds fn.backedgeTakenCount fn.loopInfo).nodes) (hsf : d.scaleFactor ≠ 0) :
    (∀ w (c : BitVec w), se.Gives fn d c → d.scaleFactor = c.toNat + 1) ↔
      (se.backedgeTaken d.loop.header).IsReadBack := by
  obtain ⟨ok, w, c, hanswer, hread⟩ := hreads.exists_constant hd hsf
  have hiff := ScalarEvolution.tripCount_eq_iff_isReadBack hread hsf
  rw [hanswer, ← hiff]
  constructor
  · intro hall
    exact hall w c (TripAnswers.gives_constant hsf hanswer)
  · intro heq w' c' hgives
    rw [TripAnswers.Gives, if_pos hsf, hanswer] at hgives
    rw [heq, hgives.2]

end reads

/-! ### The counters -/

/-- The hoisted counters of a region count their blocks: at every entry of the top loop of a set, each block executes
as often as its multiplier says; at every entry of a dynamic loop, as often as `insertDynamicLoopEvent` adds. -/
structure CountersExact (g : FlowGraph β) (fn : FunctionAnalysis β) (se : TripAnswers β) (tree : Forest (LoopData β))
    (counters : List (Counter β)) : Prop where
  scaleFactorSets : ∀ header pairs, .scaleFactorSet header pairs ∈ counters →
    ∃ top ∈ tree.nodes, top.loop.header = header ∧ ∀ blocks sf, (blocks, sf) ∈ pairs → ∀ b ∈ blocks,
      ∀ run, g.Complete run → se.KeptBy fn.loopInfo run → ∀ s ∈ stretches (inLoop top.loop.blocks) run,
        s.count b ≡ sf [MOD 2 ^ 64]
  dynamicLoops : ∀ header blocks, .dynamicLoop header blocks ∈ counters →
    ∃ d ∈ tree.nodes, d.loop.header = header ∧ ∀ b ∈ blocks, ∀ run, g.Complete run →
      ∀ s ∈ stretches (inLoop d.loop.blocks) run, ∀ w (c : BitVec w), (se.afterSplit header).Allows c →
        s.count header = c.toNat + 1 → s.count b ≡ (dynamicTripCount c).toNat [MOD 2 ^ 64]

section counters

variable {g : FlowGraph β} {fn : FunctionAnalysis β} {ndebug : Bool} {se : TripAnswers β} {bbList : List β}

/-- A run that keeps the constants keeps the scale factors that were read back. -/
theorem FunctionAnalysis.Reads.keepsScaleFactors (hreads : fn.Reads ndebug se)
    (hback : ConstantsReadBack se (regionLoopTree fn bbList)) {run : List β} (hkept : se.KeptBy fn.loopInfo run) :
    KeepsScaleFactors (regionLoopTree fn bbList) run := by
  intro d hd hsf s hs
  obtain ⟨ok, w, c, hanswer, hread⟩ := hreads.exists_constant hd hsf
  have hfactor : d.scaleFactor = c.toNat + 1 := by
    have hconst := hback d hd hsf
    rw [hanswer] at hconst
    exact (ScalarEvolution.tripCount_eq_iff_isReadBack hread hsf).mpr hconst
  rw [hfactor]
  exact hkept d.loop (mem_createLoopTree hd).1 w c hanswer s hs

/-- Entry by entry, the executions of the hoisted blocks are the trip counts exactly when the blocks are passed
once in each pass. -/
private theorem executed_iff
    (hnatural : ∀ L ∈ fn.loopInfo.nodes, g.NaturalLoop L.header L.blocks)
    (hround : ∀ L ∈ fn.loopInfo.nodes, g.GoesRound L.header L.blocks) (hreads : fn.Reads ndebug se)
    (hlatch : se.OneLatch g fn.loopInfo) {d : LoopData β} (hd : d ∈ (regionLoopTree fn bbList).nodes)
    (hhoisted : Hoisted fn d) {b : β} (hb : b ∈ getUniqueLoopBB d) :
    (∀ w (c : BitVec w), se.Gives fn d c → g.EntryCounts d.loop.header d.loop.blocks (c.toNat + 1) b) ↔
      g.OncePerPass d.loop.header d.loop.blocks b := by
  have hmem := (mem_createLoopTree hd).1
  have hiff : ∀ n, 0 < n → (g.EntryCounts d.loop.header d.loop.blocks n b ↔
      g.OncePerPass d.loop.header d.loop.blocks b) := fun n hn =>
    entryCounts_iff_oncePerPass (hnatural d.loop hmem) (hreads.exitsDominateLatch hlatch hd hhoisted) hn
      (.inr (hround d.loop hmem)) (mem_getUniqueLoopBB.mp hb).1
  constructor
  · intro hall
    obtain ⟨⟨w, c, hgives⟩, -⟩ := hreads.exists_gives hd hhoisted
    exact (hiff _ (Nat.succ_pos _)).mp (hall w c hgives)
  · intro hone w c _
    exact (hiff _ (Nat.succ_pos _)).mpr hone

/-- The entries are counted right if and only if the hoisted blocks are passed once in each pass of their loops, and
the constants are read back. -/
private theorem entriesExact_iff
    (hnatural : ∀ L ∈ fn.loopInfo.nodes, g.NaturalLoop L.header L.blocks)
    (hround : ∀ L ∈ fn.loopInfo.nodes, g.GoesRound L.header L.blocks) (hreads : fn.Reads ndebug se)
    (hlatch : se.OneLatch g fn.loopInfo) :
    EntriesExact g fn se (regionLoopTree fn bbList) ↔
      ForHoistedBlocks fn (regionLoopTree fn bbList) (fun L b => g.OncePerPass L.header L.blocks b) ∧
        ConstantsReadBack se (regionLoopTree fn bbList) := by
  constructor
  · intro h
    constructor
    · intro d hd hhoisted b hb hpd
      exact (executed_iff hnatural hround hreads hlatch hd hhoisted hb).mp (h.executed d hd b hb hpd)
    · intro d hd hsf
      exact (hreads.scaleFactor_iff hd hsf).mp (h.scaleFactor d hd hsf)
  · rintro ⟨hone, hback⟩
    refine ⟨fun d hd hsf => (hreads.scaleFactor_iff hd hsf).mpr (hback d hd hsf),
      fun d _ _ w c _ => ScalarEvolution.toNat_dynamicTripCount_modEq c, fun d hd b hb hpd w c hgives => ?_⟩
    have hhoisted : Hoisted fn d := by
      by_cases hsf : d.scaleFactor = 0
      · rw [TripAnswers.Gives, if_neg (by simpa using hsf)] at hgives
        exact .inr ⟨hgives.1, hgives.2.1⟩
      · exact .inl hsf
    exact (executed_iff hnatural hround hreads hlatch hd hhoisted hb).mpr (hone d hd hhoisted b hb hpd) w c hgives

end counters

/-! ### Two nested loops -/

/-- 32-bit constants for both loops. -/
def nestedLoopsAnswers : TripAnswers (Fin 5) where
  backedgeTaken b := if b.val = 1 then .constant 32 4#32 else .constant 32 2#32
  beforeSplit b := if b.val = 1 then .constant 32 4#32 else .constant 32 2#32
  afterSplit b := if b.val = 1 then .constant 32 4#32 else .constant 32 2#32

/-- A loop on blocks 2 and 3 inside a loop on blocks 1 to 4: the inner loop is left by block 2 for another round of
the outer loop, and by block 3 for the exit. -/
def exitAndReturn : FlowGraph (Fin 6) where
  entry := 0
  succs
    | 0 => [1]
    | 1 => [2]
    | 2 => [3, 4]
    | 3 => [2, 5]
    | 4 => [1]
    | 5 => []

/-- The trip count of the inner loop is known at run time, that of the outer one is not. -/
def exitAndReturnAnswers : TripAnswers (Fin 6) where
  backedgeTaken b := if b = 1 then .couldNotCompute else .expression true
  beforeSplit b := if b = 1 then .couldNotCompute else .expression true
  afterSplit b := if b = 1 then .couldNotCompute else .expression true

/-- The function of this graph. -/
def exitAndReturnFunction : FunctionAnalysis (Fin 6) where
  orderedCFG := [0, 1, 2, 3, 4, 5]
  size := fun _ => 1
  detectPragma := fun _ => false
  trees := computedTrees exitAndReturn [5] 6
  loopInfo := .node ⟨1, [1, 2, 3, 4]⟩ (.node ⟨2, [2, 3]⟩ .nil .nil) .nil
  backedgeTakenCount := fun b => if b = 1 then .couldNotCompute else .expression true
  beforeSplit := fun b => if b = 1 then .couldNotCompute else .expression true
  afterSplit := fun b => if b = 1 then .couldNotCompute else .expression true

private theorem exitAndReturn_natural : ∀ L ∈ exitAndReturnFunction.loopInfo.nodes,
    exitAndReturn.NaturalLoop L.header L.blocks ∧ exitAndReturn.GoesRound L.header L.blocks := by
  have houterEntry : ∀ u, u ∉ [1, 2, 3, 4] → ∀ v ∈ exitAndReturn.succs u, v ∈ [1, 2, 3, 4] → v = 1 := by decide
  have hinnerEntry : ∀ u, u ∉ [2, 3] → ∀ v ∈ exitAndReturn.succs u, v ∈ [2, 3] → v = 2 := by decide
  have houter : exitAndReturn.NaturalLoop 1 [1, 2, 3, 4] :=
    ⟨by decide, by decide, ⟨[0, 1], .cons (by decide) (.single 1)⟩, fun u _ => houterEntry u, by decide⟩
  have hinner : exitAndReturn.NaturalLoop 2 [2, 3] :=
    ⟨by decide, by decide, ⟨[0, 1, 2], .cons (by decide) (.cons (by decide) (.single 2))⟩, fun u _ => hinnerEntry u,
      by decide⟩
  intro L hL
  simp only [exitAndReturnFunction, Forest.nodes_node, Forest.nodes_nil, List.append_nil, List.mem_cons,
    List.not_mem_nil, or_false] at hL
  rcases hL with rfl | rfl
  · exact ⟨houter, [2, 4, 1], by simp, .cons (by decide) (.cons (by decide) (.cons (by decide) (.single 1))), by
      decide⟩
  · exact ⟨hinner, [3, 2], by simp, .cons (by decide) (.cons (by decide) (.single 2)), by decide⟩

private theorem exitAndReturn_latch : exitAndReturnAnswers.OneLatch exitAndReturn exitAndReturnFunction.loopInfo := by
  have hdom : exitAndReturn.Dominates 2 3 :=
    (dominates_iff_not_mem_reachAvoiding (n := 6) (by decide)).mpr (by decide)
  have hlatch : ∀ u ∈ [2, 3], 2 ∈ exitAndReturn.succs u → u = 3 := by decide
  intro L hL hcount
  simp only [exitAndReturnFunction, Forest.nodes_node, Forest.nodes_nil, List.append_nil, List.mem_cons,
    List.not_mem_nil, or_false] at hL
  rcases hL with rfl | rfl
  · simp [exitAndReturnAnswers] at hcount
  · refine ⟨3, hlatch, fun u hu _ _ _ => ?_⟩
    simp only [List.mem_cons, List.not_mem_nil, or_false] at hu
    rcases hu with rfl | rfl
    · exact hdom
    · exact .refl 3

inductive LoopBlock where
  | before
  | body
  | behind
  deriving DecidableEq

instance : Fintype LoopBlock where
  elems := {.before, .body, .behind}
  complete := by
    intro x
    cases x <;> decide

/-- A loop of one block, left behind `2 ^ 31 + 1` passes. -/
def upperHalf : FlowGraph LoopBlock where
  entry := .before
  succs
    | .before => [.body]
    | .body => [.body, .behind]
    | .behind => []

def upperHalfAnswers : TripAnswers LoopBlock where
  backedgeTaken _ := .constant 32 2147483648#32
  beforeSplit _ := .constant 32 2147483648#32
  afterSplit _ := .constant 32 2147483648#32

/-- The function of this graph: the count is printed as a negative number. -/
def upperHalfFunction : FunctionAnalysis LoopBlock where
  orderedCFG := [.before, .body, .behind]
  size := fun _ => 1
  detectPragma := fun _ => false
  trees := computedTrees upperHalf [.behind] 3
  loopInfo := .node ⟨.body, [.body]⟩ .nil .nil
  backedgeTakenCount := fun _ => .constant (2 ^ 64 - 2 ^ 31)
  beforeSplit := fun _ => .constant (2 ^ 64 - 2 ^ 31)
  afterSplit := fun _ => .constant (2 ^ 64 - 2 ^ 31)

private theorem upperHalf_natural : ∀ L ∈ upperHalfFunction.loopInfo.nodes,
    upperHalf.NaturalLoop L.header L.blocks ∧ upperHalf.GoesRound L.header L.blocks := by
  have hentry : ∀ u, u ∉ [LoopBlock.body] → ∀ v ∈ upperHalf.succs u, v ∈ [LoopBlock.body] → v = .body := by decide
  have hstay : upperHalf.Walk .body [.body] .body := .single LoopBlock.body
  have hnatural : upperHalf.NaturalLoop .body [.body] :=
    ⟨by decide, by decide, ⟨[.before, .body], .cons (by decide) hstay⟩, fun u _ => hentry u, by decide⟩
  intro L hL
  simp only [upperHalfFunction, Forest.nodes_node, Forest.nodes_nil, List.append_nil, List.mem_cons,
    List.not_mem_nil, or_false] at hL
  subst hL
  exact ⟨hnatural, [.body], by simp, .cons (by decide) hstay, by decide⟩

private theorem upperHalf_reads : upperHalfFunction.Reads false upperHalfAnswers := by
  have hread : strtoumax (ScalarEvolution.printConstant (2147483648#32)) = 2 ^ 64 - 2 ^ 31 := by
    rw [ScalarEvolution.strtoumax_printConstant (by decide) (by decide)]
    decide
  have hanswer : (.constant (2 ^ 64 - 2 ^ 31) : BackedgeTakenCount) =
      (BackedgeTaken.constant 32 2147483648#32).asRead := by
    rw [BackedgeTaken.asRead, hread]
    rfl
  have hreturned : ScalarEvolution.getLoopTripCount false (.constant 32 2147483648#32) 0 =
      .ok (true, 2 ^ 64 - 2 ^ 31 + 1) := by
    show ScalarEvolution.readTripCount false (ScalarEvolution.printConstant (2147483648#32)) = _
    unfold ScalarEvolution.readTripCount
    rw [hread]
    decide
  exact ⟨fun _ _ => ⟨_, _, hreturned⟩, fun _ _ => hanswer, fun _ _ => hanswer, fun _ _ => hanswer⟩

end ZRay.Pass
