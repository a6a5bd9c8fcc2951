import ZRay.Pass.Coverage

/-!
# Which loops get a hoisted counter

A scale-factor set is hoisted to the edge into its top loop: a loop with a scale factor whose parent in the loop tree
has none, or whose header does not post-dominate its parent's.  The sets are split while they are processed, so the
tops are known in the end only; `TopsCounted` follows them through the loop over the sets.  A loop without a scale
factor is hoisted when its trip count is known before and after the split and there is a block to hoist.
-/

namespace ZRay.Pass

variable {β : Type*}

/-! ### Splitting a set -/

/-- Header `e` post-dominates header `q`. -/
def chains (trees : DominatorTrees β) (q e : LoopData β) : Bool :=
  trees.postDominates e.loop.header q.loop.header

/-- What the round of set `j` makes of a node and its parent: nothing, and then a node of the set is chained to its
parent; or the node is split off its parent, or moved with it, or left behind by it, under a number from `n` on. -/
inductive Recolored (trees : DominatorTrees β) (j n : Nat) :
    Option (LoopData β) × LoopData β → Option (LoopData β) × LoopData β → Prop
  | kept (x : Option (LoopData β) × LoopData β) :
      (x.2.setColor = j → ∃ q, x.1 = some q ∧ q.setColor = j ∧ chains trees q x.2 = true) → Recolored trees j n x x
  | split {q e : LoopData β} {m : Nat} : q.setColor = j → e.setColor = j → n ≤ m → chains trees q e = false →
      Recolored trees j n (some q, e) (some q, { e with setColor := m })
  | moved {q e : LoopData β} {m : Nat} : q.setColor = j → e.setColor = j → n ≤ m →
      Recolored trees j n (some q, e) (some { q with setColor := m }, { e with setColor := m })
  | left {q e : LoopData β} {m : Nat} : q.setColor = j → e.setColor ≠ j → n ≤ m →
      Recolored trees j n (some q, e) (some { q with setColor := m }, e)

/-- A node of color `j` below a node of another color has a top above it. -/
theorem mem_topColors_of_node {j pc : Nat} (hj : j ≠ 0) (hpc : pc ≠ j) {t : Forest (LoopData β)} {e : LoopData β}
    (he : e ∈ t.nodes) (hcolor : e.setColor = j) : j ∈ topColors pc t := by
  induction t generalizing pc with
  | nil => simp at he
  | node d ch sib ihc ihs =>
    simp only [Forest.nodes_node, List.mem_cons, List.mem_append] at he
    simp only [topColors, List.mem_append]
    by_cases hd : d.setColor = j
    · left
      rw [if_pos ⟨by omega, by omega⟩, hd]
      exact List.mem_singleton_self j
    · rcases he with rfl | he | he
      · exact absurd hcolor hd
      · exact .inr (.inl (ihc hd he))
      · exact .inr (.inr (ihs hpc he))

/-- A tree without a top of set `j`, under a node of another color, is outside the set. -/
private theorem kept_of_not_mem_topColors {trees : DominatorTrees β} {j n pc : Nat} (hj : j ≠ 0) (hpc : pc ≠ j)
    {parent : Option (LoopData β)} {t : Forest (LoopData β)} (hno : j ∉ topColors pc t)
    {x : Option (LoopData β) × LoopData β} (hx : x ∈ t.parentPairs parent) : Recolored trees j n x x :=
  .kept x fun hcolor => absurd (mem_topColors_of_node hj hpc (Forest.mem_nodes_of_mem_parentPairs hx) hcolor) hno

/-- The part of the set below a split moves with it. -/
private theorem recolored_recolorSFLoopSet {trees : DominatorTrees β} {j n m : Nat} (hj : j ≠ 0) (hnm : n ≤ m)
    {q : LoopData β} (hq : q.setColor = j) {t : Forest (LoopData β)} (hno : j ∉ topColors j t)
    {x' : Option (LoopData β) × LoopData β}
    (hx' : x' ∈ (recolorSFLoopSet j m t).parentPairs (some { q with setColor := m })) :
    ∃ x ∈ t.parentPairs (some q), Recolored trees j n x x' := by
  induction t generalizing q with
  | nil => simp [recolorSFLoopSet, Forest.parentPairs] at hx'
  | node d ch sib ihc ihs =>
    simp only [topColors, List.mem_append, not_or] at hno
    obtain ⟨-, hnoch, hnosib⟩ := hno
    unfold recolorSFLoopSet at hx'
    split at hx'
    · rename_i hd
      simp only [Forest.parentPairs, List.mem_cons, List.mem_append] at hx'
      rcases hx' with rfl | hx' | hx'
      · exact ⟨(some q, d), by simp [Forest.parentPairs], .left hq hd hnm⟩
      · exact ⟨x', by simp [Forest.parentPairs, hx'], kept_of_not_mem_topColors hj hd hnoch hx'⟩
      · obtain ⟨x, hx, hrec⟩ := ihs hq hnosib hx'
        exact ⟨x, by simp [Forest.parentPairs, hx], hrec⟩
    · rename_i hd
      have hdj : d.setColor = j := by simpa using hd
      rw [hdj] at hnoch
      simp only [Forest.parentPairs, List.mem_cons, List.mem_append] at hx'
      rcases hx' with rfl | hx' | hx'
      · exact ⟨(some q, d), by simp [Forest.parentPairs], .moved hq hdj hnm⟩
      · obtain ⟨x, hx, hrec⟩ := ihc hdj hnoch hx'
        exact ⟨x, by simp [Forest.parentPairs, hx], hrec⟩
      · obtain ⟨x, hx, hrec⟩ := ihs hq hnosib hx'
        exact ⟨x, by simp [Forest.parentPairs, hx], hrec⟩

variable [DecidableEq β]

theorem loopSFSet_le_instrumentSFLoopSet (opts : PassOptions) (trees : DominatorTrees β) (j : Nat)
    (parent : Option (LoopData β)) (sf : Nat) (t : Forest (LoopData β)) (s : SetState β) :
    s.loopSFSet ≤ (instrumentSFLoopSet opts trees j parent sf t s).2.loopSFSet := by
  induction t generalizing parent sf s with
  | nil => exact Nat.le_refl _
  | node d ch sib ihc ihs =>
    unfold instrumentSFLoopSet
    split
    · exact ihs parent sf s
    · split
      · exact le_trans (Nat.le_succ _) (ihs parent sf { s with loopSFSet := s.loopSFSet + 1 })
      · refine le_trans ?_ (ihs parent sf _)
        exact ihc (some d) _ (s.takeLoop opts trees d (if joinsParent parent d then d.scaleFactor * sf % 2 ^ 64
          else d.scaleFactor))

/-- The round of set `j` below a loop of the set. -/
private theorem recolored_instrumentSFLoopSet (opts : PassOptions) (trees : DominatorTrees β) {j n : Nat} (hj : j ≠ 0)
    {q : LoopData β} (hq : q.setColor = j) (sf : Nat) (t : Forest (LoopData β)) (s : SetState β)
    (hn : n ≤ s.loopSFSet) (hno : j ∉ topColors j t) {x' : Option (LoopData β) × LoopData β}
    (hx' : x' ∈ (instrumentSFLoopSet opts trees j (some q) sf t s).1.parentPairs (some q)) :
    ∃ x ∈ t.parentPairs (some q), Recolored trees j n x x' := by
  induction t generalizing q sf s with
  | nil => simp [instrumentSFLoopSet, Forest.parentPairs] at hx'
  | node d ch sib ihc ihs =>
    simp only [topColors, List.mem_append, not_or] at hno
    obtain ⟨-, hnoch, hnosib⟩ := hno
    unfold instrumentSFLoopSet at hx'
    split at hx'
    · rename_i hd
      simp only [Forest.parentPairs, List.mem_cons, List.mem_append] at hx'
      rcases hx' with rfl | hx' | hx'
      · exact ⟨(some q, d), by simp [Forest.parentPairs], .kept _ fun hcolor => absurd hcolor hd⟩
      · exact ⟨x', by simp [Forest.parentPairs, hx'], kept_of_not_mem_topColors hj hd hnoch hx'⟩
      · obtain ⟨x, hx, hrec⟩ := ihs hq sf s hn hnosib hx'
        exact ⟨x, by simp [Forest.parentPairs, hx], hrec⟩
    · rename_i hd
      have hdj : d.setColor = j := by simpa using hd
      have hjoins : joinsParent (some q) d = true := by simp [joinsParent, hq, hdj]
      rw [hdj] at hnoch
      split at hx'
      · -- the set is split at `d`
        rename_i hsplit
        have hchains : chains trees q d = false := by
          simpa [hjoins, headerPostDominatesParent, chains] using hsplit
        simp only [Forest.parentPairs, List.mem_cons, List.mem_append] at hx'
        rcases hx' with rfl | hx' | hx'
        · exact ⟨(some q, d), by simp [Forest.parentPairs], .split hq hdj hn hchains⟩
        · rw [hdj] at hx'
          obtain ⟨x, hx, hrec⟩ := recolored_recolorSFLoopSet hj hn hdj hnoch hx'
          exact ⟨x, by simp [Forest.parentPairs, hx], hrec⟩
        · obtain ⟨x, hx, hrec⟩ := ihs hq sf { s with loopSFSet := s.loopSFSet + 1 } (Nat.le_succ_of_le hn) hnosib hx'
          exact ⟨x, by simp [Forest.parentPairs, hx], hrec⟩
      · -- `d` is chained to its parent
        rename_i hkept
        have hchains : chains trees q d = true := by
          simpa [hjoins, headerPostDominatesParent, chains] using hkept
        simp only [Forest.parentPairs, List.mem_cons, List.mem_append] at hx'
        rcases hx' with rfl | hx' | hx'
        · exact ⟨(some q, d), by simp [Forest.parentPairs], .kept _ fun _ => ⟨q, rfl, hq, hchains⟩⟩
        · obtain ⟨x, hx, hrec⟩ := ihc hdj (d.scaleFactor * sf % 2 ^ 64)
            (s.takeLoop opts trees d (d.scaleFactor * sf % 2 ^ 64)) hn hnoch hx'
          exact ⟨x, by simp [Forest.parentPairs, hx], hrec⟩
        · have hle := loopSFSet_le_instrumentSFLoopSet opts trees j (some d) (d.scaleFactor * sf % 2 ^ 64) ch
            (s.takeLoop opts trees d (d.scaleFactor * sf % 2 ^ 64))
          obtain ⟨x, hx, hrec⟩ := ihs hq sf _ (le_trans hn hle) hnosib hx'
          exact ⟨x, by simp [Forest.parentPairs, hx], hrec⟩

omit [DecidableEq β] in
/-- In a tree with one top for each set, the set `j` is where its top is. -/
theorem ReplacedAt.parentPairs_elim {j : Nat} (hj : j ≠ 0) {p parent : Option (LoopData β)} {d : LoopData β}
    {ch new t t' : Forest (LoopData β)} (h : ReplacedAt j p d ch new parent t t') (hd : d.setColor = j)
    (hparent : parentColor parent ≠ j) (hnodup : (topColors (parentColor parent) t).Nodup)
    {x : Option (LoopData β) × LoopData β} (hx : x ∈ t'.parentPairs parent) :
    x ∈ new.parentPairs p ∨ (x ∈ t.parentPairs parent ∧ x.2.setColor ≠ j) := by
  induction h with
  | here sib =>
    rw [Forest.parentPairs_append, List.mem_append] at hx
    refine hx.imp id fun hx => ⟨by simp [Forest.parentPairs, hx], fun hcolor => ?_⟩
    have hsib := mem_topColors_of_node hj hparent (Forest.mem_nodes_of_mem_parentPairs hx) hcolor
    simp only [topColors, hd, ne_eq, hj, hparent.symm, not_false_eq_true, and_self, if_true] at hnodup
    exact (List.nodup_append'.mp hnodup).2.2 (List.mem_singleton_self j) (List.mem_append_right _ hsib)
  | @child parent x t t' sib hx0 hrep ih =>
    have hmem : j ∈ topColors x.setColor t :=
      mem_topColors_of_node hj hx0 (Forest.mem_nodes_of_mem_parentPairs hrep.parentPairs_mem) hd
    obtain ⟨-, hnodup', -⟩ := List.nodup_append'.mp hnodup
    obtain ⟨hnodupt, -, hdisj⟩ := List.nodup_append'.mp hnodup'
    simp only [Forest.parentPairs, List.mem_cons, List.mem_append] at hx ⊢
    rcases hx with rfl | hx | hx
    · exact .inr ⟨.inl rfl, hx0⟩
    · rcases ih hx0 hnodupt hx with h | ⟨h, hcolor⟩
      · exact .inl h
      · exact .inr ⟨.inr (.inl h), hcolor⟩
    · refine .inr ⟨.inr (.inr hx), fun hcolor => hdisj hmem ?_⟩
      exact mem_topColors_of_node hj hparent (Forest.mem_nodes_of_mem_parentPairs hx) hcolor
  | @sibling parent x t t' xch hx0 hrep ih =>
    have hmem : j ∈ topColors (parentColor parent) t :=
      mem_topColors_of_node hj hparent (Forest.mem_nodes_of_mem_parentPairs hrep.parentPairs_mem) hd
    obtain ⟨-, hnodup', -⟩ := List.nodup_append'.mp hnodup
    obtain ⟨-, hnodupt, hdisj⟩ := List.nodup_append'.mp hnodup'
    simp only [Forest.parentPairs, List.mem_cons, List.mem_append] at hx ⊢
    rcases hx with rfl | hx | hx
    · exact .inr ⟨.inl rfl, hx0⟩
    · refine .inr ⟨.inr (.inl hx), fun hcolor => hdisj ?_ hmem⟩
      exact mem_topColors_of_node hj hx0 (Forest.mem_nodes_of_mem_parentPairs hx) hcolor
    · rcases ih hparent hnodupt hx with h | ⟨h, hcolor⟩
      · exact .inl h
      · exact .inr ⟨.inr (.inr h), hcolor⟩

omit [DecidableEq β] in
/-- Below the top of set `j` no second part of the set hangs on another set. -/
theorem ReplacedAt.not_mem_topColors {j : Nat} (hj : j ≠ 0) {p parent : Option (LoopData β)} {d : LoopData β}
    {ch new t t' : Forest (LoopData β)} (h : ReplacedAt j p d ch new parent t t') (hd : d.setColor = j)
    (hparent : parentColor parent ≠ j) (hnodup : (topColors (parentColor parent) t).Nodup) : j ∉ topColors j ch := by
  induction h with
  | here sib =>
    intro hch
    simp only [topColors, hd, ne_eq, hj, hparent.symm, not_false_eq_true, and_self, if_true] at hnodup
    exact (List.nodup_append'.mp hnodup).2.2 (List.mem_singleton_self j) (List.mem_append_left _ hch)
  | child sib hx0 _ ih =>
    obtain ⟨-, hnodup', -⟩ := List.nodup_append'.mp hnodup
    exact ih hx0 (List.nodup_append'.mp hnodup').1
  | sibling xch _ _ ih =>
    obtain ⟨-, hnodup', -⟩ := List.nodup_append'.mp hnodup
    exact ih hparent (List.nodup_append'.mp hnodup').2.1

/-- What a round of the loop over the sets makes of the tree: the top `d` of the set stays, and every other node comes
from a node of the old tree. -/
theorem recolored_instrumentSet (opts : PassOptions) (trees : DominatorTrees β) {j n : Nat} (hj : 0 < j)
    {t t' : Forest (LoopData β)} (hnum : SetNumbers n t) {s : RegionState β} {p : Option (LoopData β)}
    {d : LoopData β} {ch : Forest (LoopData β)} (hd : d.setColor = j) (hp : parentColor p ≠ j)
    (hrep : ReplacedAt j p d ch (instrumentSet opts trees j n s p d ch).1 none t t')
    {x' : Option (LoopData β) × LoopData β} (hx' : x' ∈ t'.parentPairs none) :
    x' = (p, d) ∨ ∃ x ∈ t.parentPairs none, Recolored trees j n x x' := by
  have hj0 : j ≠ 0 := by omega
  have hnodup : (topColors 0 t).Nodup := hnum.tops.nodup_iff.mpr List.nodup_range'
  rcases hrep.parentPairs_elim hj0 hd hj0.symm hnodup hx' with hnew | ⟨hx, hcolor⟩
  · have hno := hrep.not_mem_topColors hj0 hd hj0.symm hnodup
    have hjoins : joinsParent p d = false := by
      cases p with
      | none => rfl
      | some q =>
        have hq : q.setColor ≠ j := hp
        simp [joinsParent, hd, hq]
    have hcolor : ¬ d.setColor ≠ j := fun h => h hd
    simp only [instrumentSet, instrumentSFLoopSet, if_neg hcolor, hjoins, Bool.false_and, Bool.false_eq_true,
      if_false, Forest.parentPairs, List.append_nil, List.mem_cons] at hnew
    rcases hnew with rfl | hnew
    · exact .inl rfl
    · obtain ⟨x, hx, hrec⟩ := recolored_instrumentSFLoopSet opts trees hj0 hd _ ch _ (Nat.le_refl n) hno hnew
      exact .inr ⟨x, hrep.childPairs_mem hx, hrec⟩
  · exact .inr ⟨x', hx, .kept x' fun h => absurd h hcolor⟩

/-! ### The tops -/

/-- A loop that heads a scale-factor set: it has a scale factor, and is not chained to its parent. -/
def TopPair (trees : DominatorTrees β) (p : Option (LoopData β)) (d : LoopData β) : Prop :=
  d.scaleFactor ≠ 0 ∧ ∀ q, p = some q → q.scaleFactor = 0 ∨ chains trees q d = false

/-- The loop over the sets before round `j`.  Neighbours in different sets are not chained.  The sets below `j` are
done: they are chained throughout, and each top has its counter. -/
structure TopsCounted (trees : DominatorTrees β) (T : Forest (LoopData β)) (j : Nat) (t : Forest (LoopData β))
    (counters : List (Counter β)) : Prop where
  differ : ∀ q e, (some q, e) ∈ t.parentPairs none → q.setColor ≠ 0 → e.setColor ≠ 0 → q.setColor ≠ e.setColor →
    chains trees q e = false
  chained : ∀ q e, (some q, e) ∈ t.parentPairs none → e.setColor ≠ 0 → e.setColor < j → q.setColor = e.setColor →
    chains trees q e = true
  counted : ∀ p e, (p, e) ∈ t.parentPairs none → e.setColor ≠ 0 → e.setColor < j → parentColor p ≠ e.setColor →
    ∃ pairs, .scaleFactorSet e.loop.header pairs ∈ counters
  tops : ∀ h pairs, .scaleFactorSet h pairs ∈ counters →
    ∃ p d, (p, d) ∈ T.parentPairs none ∧ TopPair trees p d ∧ d.loop.header = h

section

variable {opts : PassOptions} {trees : DominatorTrees β} {T t t' : Forest (LoopData β)} {j n : Nat}

omit [DecidableEq β] in
/-- The coloring never splits a set: a loop with a scale factor under another one joins its set. -/
theorem color_eq_of_colorLoopTreeSF {pc n : Nat} {parent : Option (LoopData β)} (hparent : parentColor parent = pc)
    (t : Forest (LoopData β)) {q e : LoopData β}
    (hqe : (some q, e) ∈ (colorLoopTreeSF pc n t).1.parentPairs parent) (hq : q.setColor ≠ 0) (he : e.setColor ≠ 0) :
    q.setColor = e.setColor := by
  induction t generalizing pc n parent with
  | nil => simp [colorLoopTreeSF, Forest.parentPairs] at hqe
  | node d ch sib ihc ihs =>
    simp only [colorLoopTreeSF, Forest.parentPairs, List.mem_cons, List.mem_append] at hqe
    rcases hqe with hqe | hqe | hqe
    · obtain ⟨rfl, rfl⟩ := Prod.mk.inj hqe
      have hq' : q.setColor = pc := hparent
      have hpc : pc ≠ 0 := hq' ▸ hq
      by_cases h0 : d.scaleFactor = 0
      · simp [h0] at he
      · simp [h0, hpc, hq']
    · exact ihc rfl hqe
    · exact ihs hparent hqe

omit [DecidableEq β] in
theorem TopsCounted.colorLoopTreeSF (trees : DominatorTrees β) (T tree : Forest (LoopData β)) :
    TopsCounted trees T 1 (colorLoopTreeSF 0 1 tree).1 [] where
  differ q e hqe hq he hne := absurd (color_eq_of_colorLoopTreeSF rfl tree hqe hq he) hne
  chained q e _ h0 h1 _ := by omega
  counted p e _ h0 h1 _ := by omega
  tops h pairs hmem := by simp at hmem

/-- The round of a set adds one hoisted counter, at the header of the top. -/
theorem scaleFactorSet_mem_instrumentSet (opts : PassOptions) (trees : DominatorTrees β) (j n : Nat)
    (s : RegionState β) (p : Option (LoopData β)) (d : LoopData β) (ch : Forest (LoopData β)) :
    ∃ own, ∀ header pairs,
      Counter.scaleFactorSet header pairs ∈ (instrumentSet opts trees j n s p d ch).2.2.counters ↔
      .scaleFactorSet header pairs ∈ s.counters ∨ (header = d.loop.header ∧ pairs = own) := by
  refine ⟨(instrumentSFLoopSet opts trees j p 1 (.node d ch .nil)
    ⟨s.pragmaBlocks, n, [], s.counters⟩).2.headerPDBlocks, fun header pairs => ?_⟩
  unfold instrumentSet
  dsimp only
  rw [List.mem_append, mem_counters_instrumentSFLoopSet (by simp), List.mem_singleton, Counter.scaleFactorSet.injEq]

/-- A round of the loop over the sets. -/
theorem TopsCounted.instrumentSet (hj : 0 < j) (hjn : j < n) (hnum : SetNumbers n t)
    (hT : t.map LoopData.uncolored = T) {s : RegionState β} {p : Option (LoopData β)} {d : LoopData β}
    {ch : Forest (LoopData β)} (hd : d.setColor = j) (hp : parentColor p ≠ j)
    (hrep : ReplacedAt j p d ch (ZRay.Pass.instrumentSet opts trees j n s p d ch).1 none t t')
    (h : TopsCounted trees T j t s.counters) :
    TopsCounted trees T (j + 1) t' (ZRay.Pass.instrumentSet opts trees j n s p d ch).2.2.counters := by
  have hfrom : ∀ {x'}, x' ∈ t'.parentPairs none → x' = (p, d) ∨ ∃ x ∈ t.parentPairs none, Recolored trees j n x x' :=
    fun hx' => recolored_instrumentSet opts trees hj hnum hd hp hrep hx'
  obtain ⟨own, hmem⟩ := scaleFactorSet_mem_instrumentSet opts trees j n s p d ch
  have htop : (p, d) ∈ t.parentPairs none := hrep.parentPairs_mem
  refine ⟨fun q e hqe hq he hne => ?_, fun q e hqe h0 hlt heq => ?_, fun q e hqe h0 hlt hne => ?_,
    fun header pairs hc => ?_⟩
  · rcases hfrom hqe with heq | ⟨x, hx, hrec⟩
    · obtain ⟨rfl, rfl⟩ := Prod.mk.inj heq
      exact h.differ q e htop hq he hne
    · cases hrec with
      | kept => exact h.differ q e hx hq he hne
      | split _ _ _ hchains => exact hchains
      | moved => exact absurd rfl hne
      | @left q0 _ m hq0 he0 _ => exact h.differ q0 e hx (by omega) he (by omega)
  · rcases hfrom hqe with hpd | ⟨x, hx, hrec⟩
    · obtain ⟨rfl, rfl⟩ := Prod.mk.inj hpd
      exact absurd (heq.trans hd) hp
    · cases hrec with
      | kept _ hself =>
        by_cases hej : e.setColor = j
        · obtain ⟨q', hq', -, hchains⟩ := hself hej
          rw [Option.some.inj hq']
          exact hchains
        · exact h.chained q e hx h0 (by omega) heq
      | split => dsimp only at hlt; omega
      | moved => dsimp only at hlt; omega
      | left => dsimp only at heq; omega
  · rcases hfrom hqe with hpd | ⟨x, hx, hrec⟩
    · obtain ⟨rfl, rfl⟩ := Prod.mk.inj hpd
      exact ⟨own, (hmem _ _).mpr (.inr ⟨rfl, rfl⟩)⟩
    · have hold : ∀ q0, (q0, e) ∈ t.parentPairs none → e.setColor ≠ j → parentColor q0 ≠ e.setColor →
          ∃ pairs, .scaleFactorSet e.loop.header pairs ∈
            (ZRay.Pass.instrumentSet opts trees j n s p d ch).2.2.counters := by
        intro q0 hmem0 hej hne0
        obtain ⟨pairs, hpairs⟩ := h.counted q0 e hmem0 h0 (by omega) hne0
        exact ⟨pairs, (hmem _ _).mpr (.inl hpairs)⟩
      cases hrec with
      | kept _ hself =>
        refine hold q hx (fun hej => ?_) hne
        obtain ⟨q', rfl, hq', -⟩ := hself hej
        exact hne (hq'.trans hej.symm)
      | split => dsimp only at hlt; omega
      | moved => dsimp only at hlt; omega
      | @left q0 _ m hq0 he0 _ =>
        refine hold (some q0) hx he0 ?_
        rw [parentColor_some]
        omega
  · rcases (hmem header pairs).mp hc with hc | ⟨rfl, -⟩
    · exact h.tops header pairs hc
    · -- the new counter belongs to the top of the set
      have hsf : d.scaleFactor ≠ 0 := by
        have hzero := hnum.colorZero d (Forest.mem_nodes_of_mem_parentPairs htop)
        omega
      refine ⟨p.map LoopData.uncolored, d.uncolored, ?_, ⟨hsf, fun q hq => ?_⟩, rfl⟩
      · rw [← hT]
        have hmap := List.mem_map_of_mem (f := Prod.map (Option.map LoopData.uncolored) LoopData.uncolored) htop
        rw [← Forest.parentPairs_map] at hmap
        exact hmap
      · obtain ⟨q0, rfl, rfl⟩ := Option.map_eq_some_iff.mp hq
        by_cases h0 : q0.setColor = 0
        · exact .inl ((hnum.colorZero q0 (Forest.parent_mem_nodes htop)).mp h0)
        · exact .inr (h.differ q0 d htop h0 (by omega) (by rw [hd]; exact hp))

end

section

variable {opts : PassOptions} {trees : DominatorTrees β} {fn : FunctionAnalysis β}

/-- The scale-factor sets of an uncolored tree are hoisted to its tops, and nowhere else. -/
theorem scaleFactorSet_mem_instrumentSFLoopSets (opts : PassOptions) (trees : DominatorTrees β)
    {tree : Forest (LoopData β)} (huncolored : tree.map LoopData.uncolored = tree) (bbList : List β) :
    ∃ t s, instrumentSFLoopSets opts trees (colorLoopTreeSF 0 1 tree).1.nodes.length 1 (colorLoopTreeSF 0 1 tree).2
        (colorLoopTreeSF 0 1 tree).1 ⟨bbList, []⟩ = some (t, s) ∧ (∀ h blocks, .dynamicLoop h blocks ∉ s.counters) ∧
      ∀ h, (∃ pairs, .scaleFactorSet h pairs ∈ s.counters) ↔
        ∃ p d, (p, d) ∈ tree.parentPairs none ∧ TopPair trees p d ∧ d.loop.header = h := by
  obtain ⟨n, t, s, hrun, hT, hnum, j, hnj, htops, hdyn⟩ := instrumentSFLoopSets_colored opts trees tree ⟨bbList, []⟩
    (P := fun j _ t s => TopsCounted trees tree j t s.counters ∧ ∀ h blocks, .dynamicLoop h blocks ∉ s.counters)
    (fun hj hjn hT hnum hP hd hp hrep =>
      ⟨hP.1.instrumentSet hj hjn hnum (hT.trans huncolored) hd hp hrep, fun h blocks hmem => by
        simp only [instrumentSet, List.mem_append, List.mem_singleton, reduceCtorEq, or_false] at hmem
        exact hP.2 h blocks ((mem_counters_instrumentSFLoopSet (by simp)).mp hmem)⟩)
    ⟨.colorLoopTreeSF trees tree tree, by simp⟩
  refine ⟨t, s, hrun, hdyn, fun h => ⟨Exists.rec (htops.tops h), ?_⟩⟩
  rintro ⟨p, d, hpd, ⟨hsf, hp⟩, rfl⟩
  have hmap := Forest.parentPairs_map LoopData.uncolored none t
  rw [Option.map_none, hT, huncolored] at hmap
  rw [hmap] at hpd
  obtain ⟨⟨q, e⟩, hqe, heq⟩ := List.mem_map.mp hpd
  obtain ⟨rfl, rfl⟩ := Prod.mk.inj heq
  -- every set is done, so the top is not in its parent's set
  have he : e ∈ t.nodes := Forest.mem_nodes_of_mem_parentPairs hqe
  have hcolor : e.setColor ≠ 0 := fun h0 => hsf ((hnum.colorZero e he).mp h0)
  have hlt : e.setColor < j := lt_of_lt_of_le (hnum.below e he) hnj
  refine htops.counted q e hqe hcolor hlt fun hsame => ?_
  cases q with
  | none => exact hcolor hsame.symm
  | some q =>
    rw [parentColor_some] at hsame
    have hchains := htops.chained q e hqe hcolor hlt hsame
    rcases hp q.uncolored rfl with h0 | hbroken
    · exact hcolor (hsame ▸ (hnum.colorZero q (Forest.parent_mem_nodes hqe)).mpr h0)
    · exact absurd (hchains.symm.trans hbroken) (by simp)

/-! ### Dynamic loops -/

/-- The trip count of the loop is known before and after the split, and some block of `pool` directly in the loop
post-dominates its header. -/
def CountKept (fn : FunctionAnalysis β) (pool : List β) (d : LoopData β) : Prop :=
  (fn.beforeSplit d.loop.header).isHoistable = true ∧ (fn.afterSplit d.loop.header).isHoistable = true ∧
    ∃ b ∈ getUniqueLoopBB d, b ∈ pool ∧ fn.trees.postDominates b d.loop.header = true

theorem countKept_congr {d : LoopData β} {pool pool' : List β}
    (h : ∀ x ∈ getUniqueLoopBB d, (x ∈ pool ↔ x ∈ pool')) : CountKept fn pool d ↔ CountKept fn pool' d := by
  unfold CountKept
  constructor
  · rintro ⟨hbefore, hafter, b, hb, hpool, hpd⟩
    exact ⟨hbefore, hafter, b, hb, (h b hb).mp hpool, hpd⟩
  · rintro ⟨hbefore, hafter, b, hb, hpool, hpd⟩
    exact ⟨hbefore, hafter, b, hb, (h b hb).mpr hpool, hpd⟩

theorem dynamicLoop_mem_instrumentDynamicLoop {d : LoopData β} (hnodup : (getUniqueLoopBB d).Nodup)
    {s : RegionState β} {h : β} :
    (∃ blocks, .dynamicLoop h blocks ∈ (instrumentDynamicLoop opts fn d s).counters) ↔
      (∃ blocks, .dynamicLoop h blocks ∈ s.counters) ∨ (d.loop.header = h ∧ CountKept fn s.pragmaBlocks d) := by
  have hmem := fun x => mem_pd_takeLoopBlocks (fun b => (fn.beforeSplit d.loop.header).isHoistable &&
    fn.trees.postDominates b d.loop.header) s.pragmaBlocks hnodup (x := x)
  rw [exists_congr fun blocks => mem_counters_instrumentDynamicLoop (by simp), exists_or]
  generalize (takeLoopBlocks (fun b => (fn.beforeSplit d.loop.header).isHoistable &&
    fn.trees.postDominates b d.loop.header) (getUniqueLoopBB d) s.pragmaBlocks).pd = pd at hmem ⊢
  refine or_congr_right ?_
  unfold insertDynamicLoopCounter
  constructor
  · rintro ⟨blocks, hblocks⟩
    split at hblocks
    · simp at hblocks
    · rename_i hne
      split at hblocks
      · rename_i hafter
        simp only [Option.some.injEq, Counter.dynamicLoop.injEq] at hblocks
        obtain ⟨b, hb⟩ := List.exists_mem_of_ne_nil pd (by simpa using hne)
        obtain ⟨hunique, hpool, htest⟩ := (hmem b).mp hb
        rw [Bool.and_eq_true] at htest
        exact ⟨hblocks.1, htest.1, hafter, b, hunique, hpool, htest.2⟩
      · simp at hblocks
  · rintro ⟨rfl, hbefore, hafter, b, hunique, hpool, hpd⟩
    have hb : b ∈ pd := (hmem b).mpr ⟨hunique, hpool, by simp [hbefore, hpd]⟩
    have hne : pd.isEmpty = false := by simpa using List.ne_nil_of_mem hb
    exact ⟨pd, by simp [hne, hafter]⟩

/-- The loops of color 0 whose trip count is kept are hoisted, and no others. -/
theorem dynamicLoop_mem_instrumentDynamicLoops {t : Forest (LoopData β)}
    (hnodup : (t.nodes.flatMap getUniqueLoopBB).Nodup) (s : RegionState β) (h : β) :
    (∃ blocks, .dynamicLoop h blocks ∈ (instrumentDynamicLoops opts fn t s).counters) ↔
      (∃ blocks, .dynamicLoop h blocks ∈ s.counters) ∨
        ∃ d ∈ t.nodes, d.setColor = 0 ∧ d.loop.header = h ∧ CountKept fn s.pragmaBlocks d := by
  induction t generalizing s with
  | nil => simp [instrumentDynamicLoops]
  | node d ch sib ihc ihs =>
    simp only [Forest.nodes_node, List.flatMap_cons, List.flatMap_append] at hnodup
    obtain ⟨hnd, hndcs, hdisj⟩ := List.nodup_append'.mp hnodup
    obtain ⟨hndc, hnds, hdisjcs⟩ := List.nodup_append'.mp hndcs
    simp only [instrumentDynamicLoops]
    generalize hs1 : (if d.setColor = 0 then instrumentDynamicLoop opts fn d s else s) = s1
    have hstep : (∃ blocks, .dynamicLoop h blocks ∈ s1.counters) ↔ (∃ blocks, .dynamicLoop h blocks ∈ s.counters) ∨
        (d.setColor = 0 ∧ d.loop.header = h ∧ CountKept fn s.pragmaBlocks d) := by
      subst hs1
      split
      · rename_i h0
        simp only [dynamicLoop_mem_instrumentDynamicLoop hnd, h0, true_and]
      · rename_i h0
        simp only [h0, false_and, or_false]
    have hpool1 : ∀ x, x ∉ getUniqueLoopBB d → (x ∈ s1.pragmaBlocks ↔ x ∈ s.pragmaBlocks) := by
      intro x hx
      subst hs1
      split
      · exact mem_iff_of_count_eq (count_pragmaBlocks_instrumentDynamicLoop _ _ _ hx)
      · exact Iff.rfl
    -- the later loops find the blocks directly in them untouched
    have hkeptc : ∀ e ∈ ch.nodes, (CountKept fn s1.pragmaBlocks e ↔ CountKept fn s.pragmaBlocks e) := by
      intro e he
      refine countKept_congr fun x hx => hpool1 x fun hxd => ?_
      exact hdisj hxd (List.mem_append_left _ (List.mem_flatMap.mpr ⟨e, he, hx⟩))
    have hkepts : ∀ e ∈ sib.nodes, (CountKept fn (instrumentDynamicLoops opts fn ch s1).pragmaBlocks e ↔
        CountKept fn s.pragmaBlocks e) := by
      intro e he
      refine countKept_congr fun x hx => ?_
      have hxs : x ∈ sib.nodes.flatMap getUniqueLoopBB := List.mem_flatMap.mpr ⟨e, he, hx⟩
      rw [mem_iff_of_count_eq (count_pragmaBlocks_instrumentDynamicLoops fun hxc => hdisjcs hxc hxs)]
      exact hpool1 x fun hxd => hdisj hxd (List.mem_append_right _ hxs)
    rw [ihs hnds, ihc hndc, hstep]
    simp only [Forest.nodes_node, List.mem_cons, List.mem_append]
    constructor
    · rintro (((hold | hd) | ⟨e, he, h0, hh, hkept⟩) | ⟨e, he, h0, hh, hkept⟩)
      · exact .inl hold
      · exact .inr ⟨d, .inl rfl, hd⟩
      · exact .inr ⟨e, .inr (.inl he), h0, hh, (hkeptc e he).mp hkept⟩
      · exact .inr ⟨e, .inr (.inr he), h0, hh, (hkepts e he).mp hkept⟩
    · rintro (hold | ⟨e, rfl | he | he, h0, hh, hkept⟩)
      · exact .inl (.inl (.inl hold))
      · exact .inl (.inl (.inr ⟨h0, hh, hkept⟩))
      · exact .inl (.inr ⟨e, he, h0, hh, (hkeptc e he).mpr hkept⟩)
      · exact .inr ⟨e, he, h0, hh, (hkepts e he).mpr hkept⟩

end

/-! ### The region -/

/-- The block of the counter's edge, for a hoisted counter. -/
def Counter.hoistedTo : Counter β → Option β
  | .postDomSet _ => none
  | .scaleFactorSet header _ => some header
  | .dynamicLoop header _ => some header

/-- A loop whose edge gets a counter of the region: a top of the loop tree, or a loop without a scale factor whose
trip count is kept. -/
def HoistedLoop (fn : FunctionAnalysis β) (tree : Forest (LoopData β)) (bbList : List β) (L : Loop β) : Prop :=
  (∃ p d, (p, d) ∈ tree.parentPairs none ∧ TopPair fn.trees p d ∧ d.loop = L) ∨
    ∃ d ∈ tree.nodes, d.scaleFactor = 0 ∧ CountKept fn bbList d ∧ d.loop = L

theorem HoistedLoop.mem_nodes {fn : FunctionAnalysis β} {inBounds : β → Bool} {counts : β → BackedgeTakenCount}
    {bbList : List β} {L : Loop β} (h : HoistedLoop fn (createLoopTree inBounds counts fn.loopInfo) bbList L) :
    L ∈ fn.loopInfo.nodes := by
  rcases h with ⟨p, d, hpd, -, rfl⟩ | ⟨d, hd, -, -, rfl⟩
  · exact (mem_createLoopTree (Forest.mem_nodes_of_mem_parentPairs hpd)).1
  · exact (mem_createLoopTree hd).1

omit [DecidableEq β] in
theorem exists_hoistedTo {counters : List (Counter β)} {h : β} :
    (∃ c ∈ counters, c.hoistedTo = some h) ↔
      (∃ pairs, .scaleFactorSet h pairs ∈ counters) ∨ ∃ blocks, .dynamicLoop h blocks ∈ counters := by
  constructor
  · rintro ⟨c, hc, heq⟩
    cases c with
    | postDomSet blocks => simp [Counter.hoistedTo] at heq
    | scaleFactorSet header pairs =>
      rw [Counter.hoistedTo, Option.some.injEq] at heq
      exact .inl ⟨pairs, heq ▸ hc⟩
    | dynamicLoop header blocks =>
      rw [Counter.hoistedTo, Option.some.injEq] at heq
      exact .inr ⟨blocks, heq ▸ hc⟩
  · rintro (⟨pairs, hc⟩ | ⟨blocks, hc⟩)
    · exact ⟨_, hc, rfl⟩
    · exact ⟨_, hc, rfl⟩

/-- With loop hoisting on, the counters of a region that sit on loop edges are those of its hoisted loops, and all
counters record blocks of the region. -/
theorem hoistedTo_instrumentPragmaRegion {opts : PassOptions} (hopt : opts.applyLoopHoisting = true)
    {fn : FunctionAnalysis β} (hwf : LoopsWellFormed fn.loopInfo) {bbList : List β} (hne : bbList ≠ [])
    {counters : List (Counter β)} (hrun : InstrumentPragmaRegion opts fn bbList = some counters) :
    (∀ c ∈ counters, ∀ x ∈ c.blocks, x ∈ bbList) ∧
      ∀ h, (∃ c ∈ counters, c.hoistedTo = some h) ↔
        ∃ L, HoistedLoop fn (regionLoopTree fn bbList) bbList L ∧ L.header = h := by
  obtain ⟨n, t, s, hsets, hT, hnum, hheld, hpool⟩ :=
    held_instrumentSFLoopSets opts fn.trees (regionLoopTree fn bbList) ⟨bbList, []⟩
  have huncolored : (regionLoopTree fn bbList).map LoopData.uncolored = regionLoopTree fn bbList :=
    map_uncolored_createLoopTree _ _ _
  obtain ⟨t', s', hsets', hnodyn, htops⟩ :=
    scaleFactorSet_mem_instrumentSFLoopSets opts fn.trees huncolored bbList
  obtain ⟨rfl, rfl⟩ := Prod.mk.inj (Option.some.inj (hsets'.symm.trans hsets))
  have hempty : bbList.isEmpty = false := by simpa using hne
  have hcounters : counters = (instrumentDynamicLoops opts fn t' s').counters ++
      instrumentPostDomSet opts fn.trees (instrumentDynamicLoops opts fn t' s').pragmaBlocks := by
    simpa [InstrumentPragmaRegion, instrumentLoops, hempty, hopt, hsets] using hrun.symm
  have hnodupTree : ((regionLoopTree fn bbList).nodes.flatMap getUniqueLoopBB).Nodup := nodup_uniqueLoopBB hwf
  have hnodes : (regionLoopTree fn bbList).nodes = t'.nodes.map LoopData.uncolored := by
    rw [← Forest.nodes_map, hT, huncolored]
  have hnodup : (t'.nodes.flatMap getUniqueLoopBB).Nodup := by
    simpa only [hnodes, List.flatMap_map, getUniqueLoopBB_uncolored] using hnodupTree
  constructor
  · -- nothing is recorded that the region's list did not hold
    intro c hc x hx
    have hle := held_instrumentDynamicLoops_le opts fn hnodup s' x
    have hpos : 0 < recorded x counters :=
      List.count_pos_iff.mpr (List.mem_flatMap.mpr ⟨c, hc, hx⟩)
    rw [hcounters, recorded_append, recorded_instrumentPostDomSet] at hpos
    rw [hheld x, RegionState.held, RegionState.held, recorded_nil, Nat.zero_add] at hle
    have hbb : 0 < bbList.count x := by
      dsimp only at hle
      omega
    exact List.count_pos_iff.mp hbb
  · intro h
    have hscale : (∃ pairs, .scaleFactorSet h pairs ∈ counters) ↔ ∃ pairs, .scaleFactorSet h pairs ∈ s'.counters := by
      refine exists_congr fun pairs => ?_
      rw [hcounters, List.mem_append, scaleFactorSet_mem_instrumentDynamicLoops,
        or_iff_left (not_mem_instrumentPostDomSet (by simp))]
    have hdyn : (∃ blocks, .dynamicLoop h blocks ∈ counters) ↔
        ∃ d ∈ t'.nodes, d.setColor = 0 ∧ d.loop.header = h ∧ CountKept fn s'.pragmaBlocks d := by
      have hmem : (∃ blocks, .dynamicLoop h blocks ∈ (instrumentDynamicLoops opts fn t' s').counters) ↔
          (∃ blocks, .dynamicLoop h blocks ∈ s'.counters) ∨
            ∃ d ∈ t'.nodes, d.setColor = 0 ∧ d.loop.header = h ∧ CountKept fn s'.pragmaBlocks d :=
        dynamicLoop_mem_instrumentDynamicLoops hnodup s' h
      rw [or_iff_right (not_exists.mpr (hnodyn h))] at hmem
      rw [← hmem]
      refine exists_congr fun blocks => ?_
      rw [hcounters, List.mem_append, or_iff_left (not_mem_instrumentPostDomSet (by simp))]
    -- a loop without a scale factor still finds its blocks of the region
    have hkept : ∀ d ∈ (regionLoopTree fn bbList).nodes, d.scaleFactor = 0 →
        (CountKept fn s'.pragmaBlocks d ↔ CountKept fn bbList d) := by
      intro d hd h0
      refine countKept_congr fun x hx => mem_iff_of_count_eq (hpool x fun e he hsf hxe => ?_)
      exact hsf (eq_of_mem_uniqueLoopBB hnodupTree hd he hx hxe ▸ h0)
    rw [exists_hoistedTo, hscale, hdyn, htops]
    constructor
    · rintro (⟨p, d, hpd, htop, hh⟩ | ⟨e, he, h0, hh, hk⟩)
      · exact ⟨d.loop, .inl ⟨p, d, hpd, htop, rfl⟩, hh⟩
      · have hd : e.uncolored ∈ (regionLoopTree fn bbList).nodes := hnodes ▸ List.mem_map_of_mem he
        have hsf : e.uncolored.scaleFactor = 0 := (hnum.colorZero e he).mp h0
        exact ⟨e.loop, .inr ⟨e.uncolored, hd, hsf, (hkept _ hd hsf).mp hk, rfl⟩, hh⟩
    · rintro ⟨L, ⟨p, d, hpd, htop, rfl⟩ | ⟨d, hd, hsf, hk, rfl⟩, hh⟩
      · exact .inl ⟨p, d, hpd, htop, hh⟩
      · have hk' := (hkept d hd hsf).mpr hk
        rw [hnodes] at hd
        obtain ⟨e, he, rfl⟩ := List.mem_map.mp hd
        exact .inr ⟨e, he, (hnum.colorZero e he).mpr hsf, hh, hk'⟩

end ZRay.Pass
