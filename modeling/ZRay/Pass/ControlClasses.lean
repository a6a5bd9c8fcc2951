import Mathlib.Data.Set.Basic
import ZRay.ControlFlow.Dominance
import ZRay.ControlFlow.Loops
import ZRay.Pass.ControlEquivalence

/-!
# The sets are classes of control-equivalent blocks

`createPostDomSets` as the source runs it: a round scans the pool behind its first block, saves the positions of the
blocks it takes and erases them, the last one first; the loop ends when the pool is empty (`postDomSetLoop_eq`).  In a
pool where no block dominates an earlier one the sets are the classes of control-equivalent blocks.  The source calls
the partition independent of the order of the pool; it is so only when the directed test is symmetric on the pool,
which for reachable blocks means that no two of them share a set (`orderIndependent_iff`).
-/

namespace ZRay.Pass

open FlowGraph

variable {β : Type*}

/-! ### The loop with its positions -/

/-- `processedIndexes`: the positions of the blocks of the pool that pass the test. -/
def processedIndexes (p : β → Bool) (npd : List β) : List Nat := (npd.zipIdx.filter fun e => p e.1).map Prod.snd

/-- The erasing of the saved positions, from the last one to the first. -/
def eraseProcessed (npd : List β) (processedIndexes : List Nat) : List β :=
  processedIndexes.foldr (fun i npd => npd.eraseIdx i) npd

/-- The loop of `createPostDomSets`, for at most `fuel` rounds: the pool and the sets when it has ended. -/
def postDomSetLoop (opts : PassOptions) (trees : DominatorTrees β) :
    Nat → List β → List (List β) → Option (List β × List (List β))
  | _, [], pd => some ([], pd)
  | 0, _ :: _, _ => none
  | fuel + 1, b :: npd, pd =>
    let processed := processedIndexes (controlEquivalent opts trees b) npd
    let tmpBlocks := b :: npd.filter (controlEquivalent opts trees b)
    postDomSetLoop opts trees fuel (eraseProcessed npd processed) (pd ++ [tmpBlocks])

/-- Erasing from the last position to the first leaves the blocks that did not pass, whatever stands in front. -/
private theorem foldr_eraseIdx_append (p : β → Bool) (pre npd : List β) :
    (((npd.zipIdx pre.length).filter fun e => p e.1).map Prod.snd).foldr (fun i npd => npd.eraseIdx i) (pre ++ npd) =
      pre ++ npd.filter fun x => !p x := by
  induction npd generalizing pre with
  | nil => simp
  | cons x npd ih =>
    have hrest := ih (pre ++ [x])
    rw [List.length_append, List.length_singleton, List.append_assoc, List.singleton_append] at hrest
    rw [List.zipIdx_cons, List.filter_cons, List.filter_cons]
    by_cases hx : p x = true
    · simp only [hx, if_true, List.map_cons, List.foldr_cons, hrest, Bool.not_true, Bool.false_eq_true, if_false]
      rw [List.append_assoc, List.singleton_append, List.eraseIdx_append_of_length_le (Nat.le_refl _), Nat.sub_self,
        List.eraseIdx_cons_zero]
    · have hfalse : p x = false := by simpa using hx
      simp only [hfalse, Bool.false_eq_true, if_false, hrest, Bool.not_false, if_true]
      rw [List.append_assoc, List.singleton_append]

theorem eraseProcessed_processedIndexes (p : β → Bool) (npd : List β) :
    eraseProcessed npd (processedIndexes p npd) = npd.filter fun x => !p x :=
  foldr_eraseIdx_append p [] npd

/-- The loop ends with the pool empty, after at most as many rounds as there are blocks. -/
theorem postDomSetLoop_eq (opts : PassOptions) (trees : DominatorTrees β) {fuel : Nat} {npd : List β}
    (hfuel : npd.length ≤ fuel) (pd : List (List β)) :
    postDomSetLoop opts trees fuel npd pd = some ([], pd ++ createPostDomSets opts trees npd) := by
  induction fuel generalizing npd pd with
  | zero =>
    obtain rfl : npd = [] := List.length_eq_zero_iff.mp (by omega)
    simp [postDomSetLoop]
  | succ fuel ih =>
    cases npd with
    | nil => simp [postDomSetLoop]
    | cons b npd =>
      have hlen := List.length_filter_le (fun x => !controlEquivalent opts trees b x) npd
      rw [List.length_cons] at hfuel
      rw [postDomSetLoop, eraseProcessed_processedIndexes, ih (by omega), createPostDomSets_cons, List.append_assoc,
        List.singleton_append]

/-! ### The classes -/

/-- `x` dominates `y` and `y` post-dominates `x`. -/
def ControlEquivalent (g : FlowGraph β) (root : β → Prop) (x y : β) : Prop :=
  g.Dominates x y ∧ g.PostDominates root y x

/-- In the pool a block stands behind the blocks that dominate it; so no block is there twice. -/
def DominatorsFirst (g : FlowGraph β) (pool : List β) : Prop := pool.Pairwise fun a b => ¬ g.Dominates b a

/-- The sets are the classes of the pool: they hold its blocks, each once; two blocks share a set when one dominates
the other and is post-dominated by it; and the first block of a set dominates the others. -/
structure ControlClasses (g : FlowGraph β) (root : β → Prop) (pool : List β) (sets : List (List β)) : Prop where
  perm : sets.flatten.Perm pool
  same_iff : ∀ x ∈ pool, ∀ y ∈ pool,
    (∃ s ∈ sets, x ∈ s ∧ y ∈ s) ↔ ControlEquivalent g root x y ∨ ControlEquivalent g root y x
  first : ∀ s ∈ sets, ∃ b taken, s = b :: taken ∧ ∀ x ∈ s, g.Dominates b x

section

variable {g : FlowGraph β} {root : β → Prop} {trees : DominatorTrees β} {opts : PassOptions}

theorem ControlEquivalent.refl (x : β) : ControlEquivalent g root x x := ⟨.refl x, .refl x⟩

theorem ControlEquivalent.trans {x y z : β} (hxy : ControlEquivalent g root x y)
    (hyz : ControlEquivalent g root y z) :
    ControlEquivalent g root x z := ⟨hxy.1.trans hyz.1, hyz.2.trans hxy.2⟩

/-- Two blocks taken by one block are control equivalent. -/
theorem ControlEquivalent.of_common {b x y : β} (hx : ControlEquivalent g root b x)
    (hy : ControlEquivalent g root b y) {z : β} (hz : root z) {w : List β} (hw : g.Walk b w z) :
    ControlEquivalent g root x y ∨ ControlEquivalent g root y x := by
  obtain ⟨u, v, -, -, -, hwx⟩ := hw.exists_first (hx.2 z hz w hw)
  obtain ⟨u', v', -, -, -, hwy⟩ := hw.exists_first (hy.2 z hz w hw)
  rcases hx.2.total hy.2 hz hw with h | h
  · exact .inr ⟨dominates_of_postDominates hx.1 hy.2 h hz hwy, h⟩
  · exact .inl ⟨dominates_of_postDominates hy.1 hx.2 h hz hwx, h⟩

/-- The first block of the pool takes a block whenever it takes one that block dominates and
that post-dominates it. -/
theorem ControlEquivalent.of_dominated {b x y : β} (hxy : ControlEquivalent g root x y)
    (hby : ControlEquivalent g root b y) (hxb : ¬ g.Dominates x b) (hb : g.Reachable b) (hy : g.Reachable y) :
    ControlEquivalent g root b x := by
  have hbx : g.Dominates b x := (hxy.1.total hby.1 hy).resolve_left hxb
  exact ⟨hbx, postDominates_of_between hbx hxy.1 hby.2 hb⟩

/-- In a pool with the dominators first, blocks of which one dominates the other and is post-dominated by it share a
set: no round takes one of them alone. -/
theorem TreesOf.exists_mem_set (htrees : TreesOf g root trees) (hopt : opts.applyPostDomSets = true) {pool : List β}
    (hpool : DominatorsFirst g pool) (hreach : ∀ x ∈ pool, g.Reachable x) {x y : β} (hx : x ∈ pool) (hy : y ∈ pool)
    (hxy : ControlEquivalent g root x y) : ∃ s ∈ createPostDomSets opts trees pool, x ∈ s ∧ y ∈ s := by
  have hiff : ∀ b x, controlEquivalent opts trees b x = true ↔ ControlEquivalent g root b x := fun b x =>
    htrees.controlEquivalent_iff hopt
  induction pool using createPostDomSets_induction opts trees with
  | nil => simp at hx
  | round b npd ih =>
    obtain ⟨hb, hnpd⟩ := List.pairwise_cons.mp hpool
    rw [createPostDomSets_cons]
    by_cases hbx : ControlEquivalent g root b x
    · -- the round takes both
      have hby : ControlEquivalent g root b y := hbx.trans hxy
      have hmem : ∀ z ∈ b :: npd, ControlEquivalent g root b z →
          z ∈ b :: npd.filter (controlEquivalent opts trees b) := by
        intro z hz hbz
        rcases List.mem_cons.mp hz with rfl | hz
        · exact List.mem_cons_self
        · exact List.mem_cons_of_mem b (List.mem_filter.mpr ⟨hz, (hiff b z).mpr hbz⟩)
      exact ⟨_, List.mem_cons_self, hmem x hx hbx, hmem y hy hby⟩
    · -- the round takes neither
      have hxn : x ∈ npd := by
        rcases List.mem_cons.mp hx with rfl | hx
        · exact absurd (.refl x) hbx
        · exact hx
      have hxb : ¬ g.Dominates x b := hb x hxn
      have hyn : y ∈ npd := by
        rcases List.mem_cons.mp hy with rfl | hy
        · exact absurd hxy.1 hxb
        · exact hy
      have hby : ¬ ControlEquivalent g root b y := fun hby =>
        hbx (hxy.of_dominated hby hxb (hreach b List.mem_cons_self) (hreach y (List.mem_cons_of_mem b hyn)))
      have hkeep : ∀ z ∈ npd, ¬ ControlEquivalent g root b z →
          z ∈ npd.filter fun z => !controlEquivalent opts trees b z := by
        intro z hz hbz
        refine List.mem_filter.mpr ⟨hz, ?_⟩
        rw [Bool.not_eq_true', ← Bool.not_eq_true]
        exact fun h => hbz ((hiff b z).mp h)
      obtain ⟨s, hs, hxs, hys⟩ := ih (hnpd.filter _)
        (fun z hz => hreach z (List.mem_cons_of_mem b (List.mem_filter.mp hz).1)) (hkeep x hxn hbx) (hkeep y hyn hby)
      exact ⟨s, List.mem_cons_of_mem _ hs, hxs, hys⟩

/-- What is in a set was in the pool. -/
theorem mem_of_mem_createPostDomSets {pool s : List β} (hs : s ∈ createPostDomSets opts trees pool) {x : β}
    (hx : x ∈ s) : x ∈ pool :=
  (flatten_createPostDomSets_perm pool).mem_iff.mp (List.mem_flatten.mpr ⟨s, hs, hx⟩)

/-- A set is its first block and blocks that are control equivalent to it. -/
theorem TreesOf.exists_cons_set (htrees : TreesOf g root trees) (hopt : opts.applyPostDomSets = true)
    {pool s : List β} (hs : s ∈ createPostDomSets opts trees pool) :
    ∃ b taken, s = b :: taken ∧ ∀ x ∈ s, ControlEquivalent g root b x := by
  obtain ⟨b, taken, rfl⟩ := List.exists_cons_of_ne_nil (ne_nil_of_mem_createPostDomSets hs)
  refine ⟨b, taken, rfl, fun x hx => ?_⟩
  rcases List.mem_cons.mp hx with rfl | hx
  · exact .refl x
  · exact (htrees.controlEquivalent_iff hopt).mp (controlEquivalent_of_mem_createPostDomSets hs hx)

/-- With `-postdomset=false` every block is a set of its own. -/
theorem createPostDomSets_of_not_applyPostDomSets (hopt : opts.applyPostDomSets = false) (pool : List β) :
    createPostDomSets opts trees pool = pool.map fun b => [b] := by
  have hnone : ∀ b x, controlEquivalent opts trees b x = false := fun b x => by simp [controlEquivalent, hopt]
  induction pool with
  | nil => rfl
  | cons b pool ih => simp [createPostDomSets_cons, hnone, ih]

/-- In a pool with the dominators first, the sets of `createPostDomSets` are the control-equivalence classes, and the
loop that makes them ends with the pool empty. -/
theorem controlClasses_createPostDomSets (htrees : TreesOf g root trees) {pool : List β}
    (hpool : DominatorsFirst g pool) (hreach : ∀ x ∈ pool, g.Reachable x ∧ g.ReachesExit x) :
    (opts.applyPostDomSets = true → ControlClasses g root pool (createPostDomSets opts trees pool)) ∧
      (opts.applyPostDomSets = false → createPostDomSets opts trees pool = pool.map fun b => [b]) ∧
      ∀ fuel, pool.length ≤ fuel →
        postDomSetLoop opts trees fuel pool [] = some ([], createPostDomSets opts trees pool) := by
  refine ⟨fun hopt => ⟨flatten_createPostDomSets_perm pool, ?_, ?_⟩,
    fun hopt => createPostDomSets_of_not_applyPostDomSets hopt pool,
    fun fuel hfuel => postDomSetLoop_eq opts trees hfuel []⟩
  · intro x hxp y hyp
    constructor
    · rintro ⟨s, hs, hx, hy⟩
      obtain ⟨b, taken, rfl, htaken⟩ := htrees.exists_cons_set hopt hs
      obtain ⟨-, z, w, hz, hw⟩ := hreach b (mem_of_mem_createPostDomSets hs List.mem_cons_self)
      exact (htaken x hx).of_common (htaken y hy) (htrees.root_of_exit z hz) hw
    · have hpre : ∀ z ∈ pool, g.Reachable z := fun z hz => (hreach z hz).1
      rintro (h | h)
      · exact htrees.exists_mem_set hopt hpool hpre hxp hyp h
      · obtain ⟨s, hs, hy, hx⟩ := htrees.exists_mem_set hopt hpool hpre hyp hxp h
        exact ⟨s, hs, hx, hy⟩
  · intro s hs
    obtain ⟨b, taken, rfl, htaken⟩ := htrees.exists_cons_set hopt hs
    exact ⟨b, taken, rfl, fun x hx => (htaken x hx).1⟩

end

/-! ### The order of the pool -/

/-- The partition of the pool, as a set of sets. -/
def partition (sets : List (List β)) : Set (Set β) := {S | ∃ s ∈ sets, S = {x | x ∈ s}}

/-- The blocks of the pool that `x` would take, itself included. -/
def equivalents (g : FlowGraph β) (root : β → Prop) (pool : List β) (x : β) : Set β :=
  {y | y ∈ pool ∧ ControlEquivalent g root x y}

section

variable {g : FlowGraph β} {root : β → Prop} {trees : DominatorTrees β} {opts : PassOptions}

theorem partition_cons (s : List β) (sets : List (List β)) :
    partition (s :: sets) = insert {x | x ∈ s} (partition sets) := by
  ext S
  simp [partition]

/-- Blocks that take each other have the same class. -/
theorem equivalents_congr {pool : List β} {b x : β} (hbx : ControlEquivalent g root b x)
    (hxb : ControlEquivalent g root x b) : equivalents g root pool x = equivalents g root pool b := by
  ext y
  constructor
  · rintro ⟨hy, hxy⟩
    exact ⟨hy, hbx.trans hxy⟩
  · rintro ⟨hy, hby⟩
    exact ⟨hy, hxb.trans hby⟩

/-- The first round takes the class of the block in front. -/
theorem TreesOf.first_eq_equivalents (htrees : TreesOf g root trees) (hopt : opts.applyPostDomSets = true) (b : β)
    (npd : List β) :
    {x | x ∈ b :: npd.filter (controlEquivalent opts trees b)} = equivalents g root (b :: npd) b := by
  ext x
  simp only [equivalents, Set.mem_ofPred_eq, List.mem_cons, List.mem_filter, htrees.controlEquivalent_iff hopt]
  constructor
  · rintro (rfl | ⟨hx, hbx⟩)
    · exact ⟨.inl rfl, .refl x⟩
    · exact ⟨.inr hx, hbx⟩
  · rintro ⟨rfl | hx, hbx⟩
    · exact .inl rfl
    · exact .inr ⟨hx, hbx⟩

/-- What the first round leaves of the pool. -/
theorem TreesOf.mem_left_iff (htrees : TreesOf g root trees) (hopt : opts.applyPostDomSets = true) {b x : β}
    {npd : List β} : x ∈ npd.filter (fun z => !controlEquivalent opts trees b z) ↔
      x ∈ npd ∧ ¬ ControlEquivalent g root b x := by
  rw [List.mem_filter, Bool.not_eq_true', ← Bool.not_eq_true, htrees.controlEquivalent_iff hopt]
  exact Iff.rfl

/-- Where the test is symmetric, the class of a block that the first round leaves is left as a whole. -/
theorem TreesOf.equivalents_left (htrees : TreesOf g root trees) (hopt : opts.applyPostDomSets = true) {b x : β}
    {npd : List β}
    (hsymm : ∀ x ∈ b :: npd, ∀ y ∈ b :: npd, ControlEquivalent g root x y → ControlEquivalent g root y x)
    (hx : x ∈ npd) (hbx : ¬ ControlEquivalent g root b x) :
    equivalents g root (npd.filter fun z => !controlEquivalent opts trees b z) x =
      equivalents g root (b :: npd) x := by
  ext y
  simp only [equivalents, Set.mem_ofPred_eq, htrees.mem_left_iff hopt]
  constructor
  · rintro ⟨⟨hy, -⟩, hxy⟩
    exact ⟨List.mem_cons_of_mem b hy, hxy⟩
  · rintro ⟨hy, hxy⟩
    have hby : ¬ ControlEquivalent g root b y := fun hby =>
      hbx (hby.trans (hsymm x (List.mem_cons_of_mem b hx) y hy hxy))
    rcases List.mem_cons.mp hy with rfl | hyn
    · exact absurd (.refl y) hby
    · exact ⟨⟨hyn, hby⟩, hxy⟩

/-- When the test is symmetric on the pool, the partition is that into the classes, in whatever order the pool is. -/
theorem TreesOf.partition_createPostDomSets (htrees : TreesOf g root trees) (hopt : opts.applyPostDomSets = true)
    {pool : List β}
    (hsymm : ∀ b ∈ pool, ∀ x ∈ pool, ControlEquivalent g root b x → ControlEquivalent g root x b) :
    partition (createPostDomSets opts trees pool) = {S | ∃ x ∈ pool, S = equivalents g root pool x} := by
  induction pool using createPostDomSets_induction opts trees with
  | nil => simp [partition]
  | round b npd ih =>
    have hsymm' : ∀ x ∈ npd.filter (fun z => !controlEquivalent opts trees b z),
        ∀ y ∈ npd.filter (fun z => !controlEquivalent opts trees b z),
          ControlEquivalent g root x y → ControlEquivalent g root y x := fun x hx y hy =>
      hsymm x (List.mem_cons_of_mem b (List.mem_of_mem_filter hx)) y
        (List.mem_cons_of_mem b (List.mem_of_mem_filter hy))
    rw [createPostDomSets_cons, partition_cons, ih hsymm', htrees.first_eq_equivalents hopt]
    ext S
    simp only [Set.mem_insert_iff, Set.mem_ofPred_eq, htrees.mem_left_iff hopt]
    constructor
    · rintro (rfl | ⟨x, ⟨hx, hbx⟩, rfl⟩)
      · exact ⟨b, List.mem_cons_self, rfl⟩
      · exact ⟨x, List.mem_cons_of_mem b hx, htrees.equivalents_left hopt hsymm hx hbx⟩
    · rintro ⟨x, hx, rfl⟩
      by_cases hbx : ControlEquivalent g root b x
      · exact .inl (equivalents_congr hbx (hsymm b List.mem_cons_self x hx hbx))
      · have hxn : x ∈ npd := by
          rcases List.mem_cons.mp hx with rfl | hx
          · exact absurd (.refl x) hbx
          · exact hx
        exact .inr ⟨x, ⟨hxn, hbx⟩, (htrees.equivalents_left hopt hsymm hxn hbx).symm⟩

/-- A block at the front of the pool does not share a set with a block that it does not take. -/
theorem TreesOf.not_share_of_first (htrees : TreesOf g root trees) (hopt : opts.applyPostDomSets = true)
    {npd : List β} {b x : β} (hbx : ¬ ControlEquivalent g root b x) :
    ¬ ∃ S ∈ partition (createPostDomSets opts trees (b :: npd)), b ∈ S ∧ x ∈ S := by
  rintro ⟨S, ⟨s, hs, rfl⟩, hb, hx⟩
  simp only [Set.mem_ofPred_eq] at hb hx
  rw [createPostDomSets_cons] at hs
  rcases List.mem_cons.mp hs with rfl | hs
  · rcases List.mem_cons.mp hx with rfl | hx
    · exact hbx (.refl x)
    · exact hbx ((htrees.controlEquivalent_iff hopt).mp (List.mem_filter.mp hx).2)
  · have hbrest := (List.mem_filter.mp (mem_of_mem_createPostDomSets hs hb)).2
    have hrefl : ControlEquivalent g root b b := .refl b
    have hbb := (htrees.controlEquivalent_iff hopt).mpr hrefl
    simp [hbb] at hbrest

/-- A block at the front of the pool shares a set with a block that it takes. -/
theorem TreesOf.share_of_first (htrees : TreesOf g root trees) (hopt : opts.applyPostDomSets = true)
    {npd : List β} {b x : β} (hx : x ∈ npd) (hbx : ControlEquivalent g root b x) :
    ∃ S ∈ partition (createPostDomSets opts trees (b :: npd)), b ∈ S ∧ x ∈ S := by
  refine ⟨_, ⟨_, by rw [createPostDomSets_cons]; exact List.mem_cons_self, rfl⟩, List.mem_cons_self, ?_⟩
  exact List.mem_cons_of_mem b (List.mem_filter.mpr ⟨hx, (htrees.controlEquivalent_iff hopt).mpr hbx⟩)

/-- For every pool: all its orderings have the same partition, if and only if the set optimization is off or the test
of `createPostDomSets` is symmetric on the pool. -/
theorem orderIndependent_iff (htrees : TreesOf g root trees) (pool : List β) :
    (∀ npd npd', npd.Perm pool → npd'.Perm pool →
      partition (createPostDomSets opts trees npd) = partition (createPostDomSets opts trees npd')) ↔
      (opts.applyPostDomSets = true →
        ∀ b ∈ pool, ∀ x ∈ pool, ControlEquivalent g root b x → ControlEquivalent g root x b) := by
  constructor
  · intro hsame hopt b hb x hx hbx
    by_contra hxb
    have hne : x ≠ b := by
      rintro rfl
      exact hxb hbx
    obtain ⟨l, r, rfl⟩ := List.append_of_mem hb
    have hx' : x ∈ l ++ r := by
      rcases List.mem_append.mp hx with h | h
      · exact List.mem_append_left r h
      · exact List.mem_append_right l ((List.mem_cons.mp h).resolve_left hne)
    obtain ⟨l', r', hlr⟩ := List.append_of_mem hx'
    -- `b` first takes `x`; `x` first does not take `b`
    have hb1 : (b :: x :: (l' ++ r')).Perm (l ++ b :: r) := by
      refine List.Perm.trans (.cons b ?_) List.perm_middle.symm
      rw [hlr]
      exact List.perm_middle.symm
    have hx1 : (x :: b :: (l' ++ r')).Perm (l ++ b :: r) := (List.Perm.swap b x _).trans hb1
    have hmem : x ∈ x :: (l' ++ r') := List.mem_cons_self
    obtain ⟨S, hS, hbS, hxS⟩ := htrees.share_of_first hopt hmem hbx
    rw [hsame _ _ hb1 hx1] at hS
    exact htrees.not_share_of_first hopt hxb ⟨S, hS, hxS, hbS⟩
  · intro hsymm npd npd' hnpd hnpd'
    have hmem : ∀ x, x ∈ npd ↔ x ∈ npd' := fun x => hnpd.mem_iff.trans hnpd'.mem_iff.symm
    by_cases hopt : opts.applyPostDomSets = true
    · have hsymmOf : ∀ l : List β, l.Perm pool → ∀ b ∈ l, ∀ x ∈ l, ControlEquivalent g root b x →
          ControlEquivalent g root x b := fun l hl b hb x hx =>
        hsymm hopt b (hl.mem_iff.mp hb) x (hl.mem_iff.mp hx)
      rw [htrees.partition_createPostDomSets hopt (hsymmOf npd hnpd),
        htrees.partition_createPostDomSets hopt (hsymmOf npd' hnpd')]
      simp only [equivalents, hmem]
    · have hfalse : opts.applyPostDomSets = false := by simpa using hopt
      rw [createPostDomSets_of_not_applyPostDomSets hfalse, createPostDomSets_of_not_applyPostDomSets hfalse]
      simp only [partition, List.mem_map, hmem]

/-- Between reachable blocks the test is symmetric only where no block takes another one. -/
theorem symmetric_iff_of_reachable {pool : List β} (hreach : ∀ x ∈ pool, g.Reachable x) :
    (∀ b ∈ pool, ∀ x ∈ pool, ControlEquivalent g root b x → ControlEquivalent g root x b) ↔
      ∀ b ∈ pool, ∀ x ∈ pool, ControlEquivalent g root b x → b = x := by
  constructor
  · intro hsymm b hb x hx hbx
    exact hbx.1.antisymm (hsymm b hb x hx hbx).1 (hreach b hb)
  · intro heq b hb x hx hbx
    obtain rfl := heq b hb x hx hbx
    exact .refl b

end

/-! ### On the diamond -/

private theorem treesOf_diamond : TreesOf diamond (· ∈ [3]) (computedTrees diamond [3] 2) :=
  treesOf_computedTrees (by decide) (by decide)

private theorem controlEquivalent_diamond_iff (b x : Fin 4) :
    ControlEquivalent diamond (· ∈ [3]) b x ↔ controlEquivalent {} (computedTrees diamond [3] 2) b x = true :=
  (treesOf_diamond.controlEquivalent_iff rfl).symm

/-- The pool of the diamond has the dominators first, and the classes are 0 with 3, 1, and 2. -/
theorem controlClasses_diamond :
    ControlClasses diamond (· ∈ [3]) [0, 1, 2, 3]
      (createPostDomSets {} (computedTrees diamond [3] 2) [0, 1, 2, 3]) := by
  have hpool : DominatorsFirst diamond [0, 1, 2, 3] := by
    unfold DominatorsFirst
    simp only [← treesOf_diamond.dominates_iff]
    decide
  have hreach : ∀ x : Fin 4, diamond.Reachable x ∧ diamond.ReachesExit x := by
    have h13 : diamond.Walk 1 [1, 3] 3 := .cons (by decide) (.single 3)
    have h23 : diamond.Walk 2 [2, 3] 3 := .cons (by decide) (.single 3)
    have h03 : diamond.Walk 0 [0, 1, 3] 3 := .cons (by decide) h13
    intro x
    fin_cases x
    · exact ⟨⟨_, .single 0⟩, 3, _, rfl, h03⟩
    · exact ⟨⟨_, .cons (by decide) (.single 1)⟩, 3, _, rfl, h13⟩
    · exact ⟨⟨_, .cons (by decide) (.single 2)⟩, 3, _, rfl, h23⟩
    · exact ⟨⟨_, h03⟩, 3, _, rfl, .single 3⟩
  exact (controlClasses_createPostDomSets treesOf_diamond hpool fun x _ => hreach x).1 rfl

/-- With block 0 first the blocks 0 and 3 share a set, with block 3 first they do not. -/
theorem not_orderIndependent_diamond :
    TreesOf diamond (· ∈ [3]) (computedTrees diamond [3] 2) ∧
      createPostDomSets {} (computedTrees diamond [3] 2) [0, 3] = [[0, 3]] ∧
      createPostDomSets {} (computedTrees diamond [3] 2) [3, 0] = [[3], [0]] ∧
      partition (createPostDomSets {} (computedTrees diamond [3] 2) [0, 3]) ≠
        partition (createPostDomSets {} (computedTrees diamond [3] 2) [3, 0]) := by
  have h03 : createPostDomSets {} (computedTrees diamond [3] 2) [0, 3] = [[0, 3]] := by decide
  have h30 : createPostDomSets {} (computedTrees diamond [3] 2) [3, 0] = [[3], [0]] := by decide
  refine ⟨treesOf_diamond, h03, h30, fun hsame => ?_⟩
  have hmem : ({x | x ∈ [0, 3]} : Set (Fin 4)) ∈
      partition (createPostDomSets {} (computedTrees diamond [3] 2) [0, 3]) := by
    rw [h03]
    exact ⟨[0, 3], List.mem_singleton_self _, rfl⟩
  rw [hsame, h30] at hmem
  obtain ⟨s, hs, heq⟩ := hmem
  have h0 : (0 : Fin 4) ∈ s := (Set.ext_iff.mp heq 0).mp (by simp)
  have h3 : (3 : Fin 4) ∈ s := (Set.ext_iff.mp heq 3).mp (by simp)
  simp only [List.mem_cons, List.not_mem_nil, or_false] at hs
  rcases hs with rfl | rfl
  · simp at h0
  · simp at h3

/-- The pool of the blocks 0, 1 and 2, none of which takes another, has one partition in either order. -/
theorem orderIndependent_diamond :
    partition (createPostDomSets {} (computedTrees diamond [3] 2) [0, 1, 2]) =
      partition (createPostDomSets {} (computedTrees diamond [3] 2) [2, 1, 0]) := by
  refine (orderIndependent_iff treesOf_diamond [0, 1, 2]).mpr (fun _ => ?_) [0, 1, 2] [2, 1, 0] (.refl _) (by decide)
  simp only [controlEquivalent_diamond_iff]
  decide

end ZRay.Pass
