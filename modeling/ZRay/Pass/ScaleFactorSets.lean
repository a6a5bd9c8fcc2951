import ZRay.Pass.Instrument

/-!
# The loop over the scale-factor sets

Splitting a set adds a set number, so the loop `for (j = 1; j < LOOP_SF_SET; j++)` runs over a bound that grows while
it runs.  `SetNumbers` is the invariant that keeps it in hand: the top nodes of the sets carry the numbers
`1, …, LOOP_SF_SET - 1`, each once.  Hence every round finds its set, and there are at most as many rounds as loops
(`instrumentSFLoopSets_run`).
-/

namespace ZRay.Pass

variable {β : Type*} [DecidableEq β]

/-- The set numbers in use are `1, …, loopSFSet - 1`, each borne by one top node, and color 0 means no trip count. -/
structure SetNumbers (loopSFSet : Nat) (t : Forest (LoopData β)) : Prop where
  pos : 0 < loopSFSet
  below : ColorsBelow loopSFSet t
  colorZero : ColorZeroIff t
  tops : (topColors 0 t).Perm (List.range' 1 (loopSFSet - 1))

omit [DecidableEq β] in
/-- The numbering `colorLoopTreeSF` gives. -/
theorem SetNumbers.colorLoopTreeSF (t : Forest (LoopData β)) :
    SetNumbers (colorLoopTreeSF 0 1 t).2 (colorLoopTreeSF 0 1 t).1 := by
  obtain ⟨hle, htop, hbelow⟩ := topColors_colorLoopTreeSF 0 1 Nat.one_pos Nat.one_pos t
  exact ⟨hle, hbelow, colorZeroIff_colorLoopTreeSF Nat.one_pos t, htop ▸ List.Perm.refl _⟩

omit [DecidableEq β] in
/-- A set number in use is borne by some node. -/
theorem SetNumbers.exists_node {n j : Nat} {t : Forest (LoopData β)} (h : SetNumbers n t) (hj : 0 < j) (hjn : j < n) :
    ∃ d ∈ t.nodes, d.setColor = j := by
  have hmem : j ∈ topColors 0 t := by
    rw [h.tops.mem_iff, List.mem_range'_1]
    omega
  exact mem_topColors_elim hmem

omit [DecidableEq β] in
/-- There are at most as many sets as loops. -/
theorem SetNumbers.le_length {n : Nat} {t : Forest (LoopData β)} (h : SetNumbers n t) : n ≤ t.nodes.length + 1 := by
  have hlen := length_topColors_le 0 t
  rw [h.tops.length_eq, List.length_range'] at hlen
  omega

/-- `t'` is `t` with some sets split: each number from `n` to `n' - 1` is borne by one new top below a parent of
color `pc`. -/
structure Renumbered (pc n : Nat) (t : Forest (LoopData β)) (n' : Nat) (t' : Forest (LoopData β)) : Prop where
  le : n ≤ n'
  below : ColorsBelow n' t'
  colorZero : ColorZeroIff t'
  tops : (topColors pc t').Perm (topColors pc t ++ List.range' n (n' - n))
  uncolored : t'.map LoopData.uncolored = t.map LoopData.uncolored

namespace Renumbered

omit [DecidableEq β]

theorem refl {pc n : Nat} {t : Forest (LoopData β)} (hbelow : ColorsBelow n t) (hzero : ColorZeroIff t) :
    Renumbered pc n t n t :=
  ⟨le_refl n, hbelow, hzero, by simp, rfl⟩

/-- New numbers below a node and then beside it. -/
theorem node {pc n m k : Nat} {d : LoopData β} {ch ch' sib sib' : Forest (LoopData β)} (hd : d.setColor < n)
    (hz : d.setColor = 0 ↔ d.scaleFactor = 0) (hch : Renumbered d.setColor n ch m ch')
    (hsib : Renumbered pc m sib k sib') : Renumbered pc n (.node d ch sib) k (.node d ch' sib') where
  le := le_trans hch.le hsib.le
  below := colorsBelow_node.mpr
    ⟨lt_of_lt_of_le hd (le_trans hch.le hsib.le), hch.below.mono hsib.le, hsib.below⟩
  colorZero := colorZeroIff_node.mpr ⟨hz, hch.colorZero, hsib.colorZero⟩
  tops := by
    have hrange : List.range' n (m - n) ++ List.range' m (k - m) = List.range' n (k - n) := range'_join hch.le hsib.le
    simp only [topColors]
    rw [← hrange, List.append_assoc]
    refine List.Perm.append_left _ ?_
    refine (hch.tops.append hsib.tops).trans ?_
    simp only [List.append_assoc]
    refine List.Perm.append_left _ ?_
    rw [← List.append_assoc, ← List.append_assoc]
    exact List.Perm.append_right _ List.perm_append_comm
  uncolored := by simp only [Forest.map, hch.uncolored, hsib.uncolored]

/-- The split of a set at a node of its parent's color, followed by new numbers beside it. -/
theorem split {j n k : Nat} {d : LoopData β} {ch sib sib' : Forest (LoopData β)} (hj : j ≠ 0) (hjn : j < n)
    (hd : d.setColor = j) (hbelow : ColorsBelow n ch) (hzero : ColorZeroIff (.node d ch .nil))
    (hsib : Renumbered j (n + 1) sib k sib') :
    Renumbered j n (.node d ch sib) k (.node { d with setColor := n } (recolorSFLoopSet j n ch) sib') where
  le := le_trans (Nat.le_succ n) hsib.le
  below := by
    have hnk : n < k := hsib.le
    exact colorsBelow_node.mpr
      ⟨hnk, colorsBelow_recolorSFLoopSet hnk (hbelow.mono (le_of_lt hnk)), hsib.below⟩
  colorZero := by
    obtain ⟨hz, hch, -⟩ := colorZeroIff_node.mp hzero
    have hsf : d.scaleFactor ≠ 0 := fun h0 => hj (hd ▸ hz.mpr h0)
    have hn : n ≠ 0 := by omega
    refine colorZeroIff_node.mpr ⟨?_, colorZeroIff_recolorSFLoopSet hj hn hch, hsib.colorZero⟩
    simp [hn, hsf]
  tops := by
    have hnj : n ≠ 0 ∧ n ≠ j := by omega
    have hnk : n + 1 ≤ k := hsib.le
    have hrange : List.range' n (k - n) = n :: List.range' (n + 1) (k - (n + 1)) := by
      rw [show k - n = (k - (n + 1)) + 1 by omega, List.range'_succ]
    simp only [topColors, hd, hnj, topColors_recolorSFLoopSet hbelow, hrange, ne_eq, not_false_eq_true, and_self,
      not_true_eq_false, and_false, if_true, if_false, List.nil_append, List.singleton_append]
    have htail : (topColors j ch ++ topColors j sib').Perm
        (topColors j ch ++ (topColors j sib ++ List.range' (n + 1) (k - (n + 1)))) :=
      List.Perm.append_left _ hsib.tops
    rw [← List.append_assoc] at htail
    exact (List.Perm.cons n htail).trans List.perm_middle.symm
  uncolored := by
    simp only [Forest.map, hsib.uncolored, map_uncolored_recolorSFLoopSet]
    rfl

end Renumbered

/-- `instrumentSFLoopSet` renumbers the subtrees it splits off and nothing else. -/
theorem renumbered_instrumentSFLoopSet (opts : PassOptions) (trees : DominatorTrees β) {j : Nat} (hj : j ≠ 0)
    (parent : Option (LoopData β)) (sf : Nat) (t : Forest (LoopData β)) (s : SetState β) (hjn : j < s.loopSFSet)
    (hbelow : ColorsBelow s.loopSFSet t) (hzero : ColorZeroIff t) :
    Renumbered (parentColor parent) s.loopSFSet t
      (instrumentSFLoopSet opts trees j parent sf t s).2.loopSFSet
      (instrumentSFLoopSet opts trees j parent sf t s).1 := by
  induction t generalizing parent sf s with
  | nil => exact .refl hbelow hzero
  | node d ch sib ihc ihs =>
    obtain ⟨hd, hbch, hbsib⟩ := colorsBelow_node.mp hbelow
    obtain ⟨hzd, hzch, hzsib⟩ := colorZeroIff_node.mp hzero
    unfold instrumentSFLoopSet
    by_cases hcolor : d.setColor = j
    · by_cases hsplit : (joinsParent parent d && !headerPostDominatesParent trees parent d) = true
      · -- the set is split at `d`: its parent has the same number
        have hp : parentColor parent = j := by
          cases parent with
          | none => simp [joinsParent] at hsplit
          | some p => simp only [joinsParent, Bool.and_eq_true, decide_eq_true_eq] at hsplit; simp [hsplit.1, hcolor]
        have hsib := ihs parent sf { s with loopSFSet := s.loopSFSet + 1 } (by dsimp only; omega)
          (hbsib.mono (Nat.le_succ _)) hzsib
        simp only [hcolor, ne_eq, not_true_eq_false, if_false, hsplit, if_true]
        rw [hp] at hsib ⊢
        exact .split hj hjn hcolor hbch (colorZeroIff_node.mpr ⟨hzd, hzch, by simp [ColorZeroIff]⟩) hsib
      · simp only [hcolor, ne_eq, not_true_eq_false, if_false, hsplit]
        have hch := ihc (some d) (if joinsParent parent d then d.scaleFactor * sf % 2 ^ 64 else d.scaleFactor)
          (s.takeLoop opts trees d (if joinsParent parent d then d.scaleFactor * sf % 2 ^ 64 else d.scaleFactor))
          hjn hbch hzch
        have hle := hch.le
        have hsib := ihs parent sf
          (instrumentSFLoopSet opts trees j (some d)
            (if joinsParent parent d then d.scaleFactor * sf % 2 ^ 64 else d.scaleFactor) ch
            (s.takeLoop opts trees d (if joinsParent parent d then d.scaleFactor * sf % 2 ^ 64 else d.scaleFactor))).2
          (lt_of_lt_of_le hjn hle) (hbsib.mono hle) hzsib
        exact .node hd hzd hch hsib
    · simp only [hcolor, ne_eq, not_false_eq_true, if_true]
      exact .node hd hzd (.refl hbch hzch) (ihs parent sf s hjn hbsib hzsib)

/-- One round, at the set's top node. -/
theorem SetNumbers.instrumentSet (opts : PassOptions) (trees : DominatorTrees β) {j n : Nat}
    (hj : 0 < j) (hjn : j < n) {t t' : Forest (LoopData β)} (h : SetNumbers n t) {s : RegionState β}
    {p : Option (LoopData β)} {d : LoopData β} {ch : Forest (LoopData β)}
    (hrep : ReplacedAt j p d ch (ZRay.Pass.instrumentSet opts trees j n s p d ch).1 none t t') :
    SetNumbers (ZRay.Pass.instrumentSet opts trees j n s p d ch).2.1 t' ∧
      t'.map LoopData.uncolored = t.map LoopData.uncolored := by
  have hren := renumbered_instrumentSFLoopSet opts trees (by omega) p 1 (.node d ch .nil)
    ⟨s.pragmaBlocks, n, [], s.counters⟩ hjn (fun x hx => h.below x (hrep.nodes_subset hx))
    (fun x hx => h.colorZero x (hrep.nodes_subset hx))
  have hpos := h.pos
  have hle := hren.le
  dsimp only at hle
  refine ⟨⟨?_, ?_, ?_, ?_⟩, hrep.map_uncolored hren.uncolored⟩
  · exact lt_of_lt_of_le hpos hle
  · intro x hx
    rcases hrep.nodes_elim hx with hx | hx
    · exact lt_of_lt_of_le (h.below x hx) hle
    · exact hren.below x hx
  · intro x hx
    rcases hrep.nodes_elim hx with hx | hx
    · exact h.colorZero x hx
    · exact hren.colorZero x hx
  · have htops := (hrep.topColors_perm hren.tops).trans (List.Perm.append_right _ h.tops)
    have hrange := range'_join (a := 1) hpos hle
    dsimp only at htops
    rw [hrange] at htops
    exact htops

omit [DecidableEq β] in
/-- Trees that differ in their set numbers only have equally many nodes. -/
theorem length_nodes_eq {t t' : Forest (LoopData β)} (h : t'.map LoopData.uncolored = t.map LoopData.uncolored) :
    t'.nodes.length = t.nodes.length := by
  have hlen := congrArg (fun u => u.nodes.length) h
  simpa [Forest.nodes_map] using hlen

omit [DecidableEq β] in
/-- Trees that differ in their set numbers only have the same loops. -/
theorem exists_node_uncolored {t t' : Forest (LoopData β)} (h : t'.map LoopData.uncolored = t.map LoopData.uncolored)
    {e : LoopData β} (he : e ∈ t'.nodes) : ∃ d ∈ t.nodes, d.uncolored = e.uncolored := by
  have hmem : e.uncolored ∈ (t'.map LoopData.uncolored).nodes := by
    rw [Forest.nodes_map]
    exact List.mem_map_of_mem he
  rw [h, Forest.nodes_map] at hmem
  exact List.mem_map.mp hmem

/-- The rule for the loop over the sets on the tree `T`: it ends after at most as many rounds as there are loops,
every round finds the top node of its set, and what every round keeps holds at the end. -/
theorem instrumentSFLoopSets_run {opts : PassOptions} {trees : DominatorTrees β} {T : Forest (LoopData β)}
    {P : Nat → Nat → Forest (LoopData β) → RegionState β → Prop}
    (hstep : ∀ {j n t t' s p d ch}, 0 < j → j < n → t.map LoopData.uncolored = T → SetNumbers n t → P j n t s →
      d.setColor = j → parentColor p ≠ j → ReplacedAt j p d ch (instrumentSet opts trees j n s p d ch).1 none t t' →
      P (j + 1) (instrumentSet opts trees j n s p d ch).2.1 t' (instrumentSet opts trees j n s p d ch).2.2)
    (fuel j n : Nat) (t : Forest (LoopData β)) (s : RegionState β) (hT : t.map LoopData.uncolored = T)
    (hnum : SetNumbers n t) (hj : 0 < j) (hfuel : t.nodes.length < fuel + j) (hP : P j n t s) :
    ∃ j' n' t' s', instrumentSFLoopSets opts trees fuel j n t s = some (t', s') ∧ n' ≤ j' ∧
      t'.map LoopData.uncolored = T ∧ SetNumbers n' t' ∧ P j' n' t' s' := by
  induction fuel generalizing j n t s with
  | zero =>
    have hle := hnum.le_length
    have hstop : ¬ j < n := by omega
    exact ⟨j, n, t, s, by simp [instrumentSFLoopSets, hstop], by omega, hT, hnum, hP⟩
  | succ fuel ih =>
    by_cases hjn : j < n
    · obtain ⟨p, d, ch, t', hfind, hd, hrep⟩ := exists_findLoopTreeSet
        (instrumentSet opts trees j n s) none (hnum.exists_node hj hjn)
      obtain ⟨hnum', hun⟩ := hnum.instrumentSet opts trees hj hjn hrep
      have hp : parentColor p ≠ j := hrep.parentColor_ne (by rw [parentColor_none]; omega)
      have hP' := hstep hj hjn hT hnum hP hd hp hrep
      have hlen := length_nodes_eq hun
      obtain ⟨j', n', u, s', hrun, hrest⟩ := ih (j + 1) _ t' _ (hun.trans hT) hnum' (by omega) (by omega) hP'
      refine ⟨j', n', u, s', ?_, hrest⟩
      simp only [instrumentSFLoopSets, hjn, if_true, hfind]
      exact hrun
    · exact ⟨j, n, t, s, by simp [instrumentSFLoopSets, hjn], by omega, hT, hnum, hP⟩

/-- The loop as `InstrumentPragmaRegion` starts it, on a freshly colored tree. -/
theorem instrumentSFLoopSets_colored (opts : PassOptions) (trees : DominatorTrees β)
    {P : Nat → Nat → Forest (LoopData β) → RegionState β → Prop} (tree : Forest (LoopData β)) (s : RegionState β)
    (hstep : ∀ {j n t t' s p d ch}, 0 < j → j < n → t.map LoopData.uncolored = tree.map LoopData.uncolored →
      SetNumbers n t → P j n t s → d.setColor = j → parentColor p ≠ j →
      ReplacedAt j p d ch (instrumentSet opts trees j n s p d ch).1 none t t' →
      P (j + 1) (instrumentSet opts trees j n s p d ch).2.1 t' (instrumentSet opts trees j n s p d ch).2.2)
    (hP : P 1 (colorLoopTreeSF 0 1 tree).2 (colorLoopTreeSF 0 1 tree).1 s) :
    ∃ n t s', instrumentSFLoopSets opts trees (colorLoopTreeSF 0 1 tree).1.nodes.length 1
        (colorLoopTreeSF 0 1 tree).2 (colorLoopTreeSF 0 1 tree).1 s = some (t, s') ∧
      t.map LoopData.uncolored = tree.map LoopData.uncolored ∧ SetNumbers n t ∧ ∃ j, n ≤ j ∧ P j n t s' := by
  obtain ⟨j, n, t, s', hrun, hnj, hT, hnum, hPt⟩ := instrumentSFLoopSets_run hstep
    (colorLoopTreeSF 0 1 tree).1.nodes.length 1 (colorLoopTreeSF 0 1 tree).2 (colorLoopTreeSF 0 1 tree).1 s
    (map_uncolored_colorLoopTreeSF 0 1 tree) (.colorLoopTreeSF tree) Nat.one_pos (by omega) hP
  exact ⟨n, t, s', hrun, hT, hnum, j, hnj, hPt⟩

/-- The instrumentation of a region ends: every round of the loop over the sets finds its set. -/
theorem exists_instrumentPragmaRegion (opts : PassOptions) (fn : FunctionAnalysis β) (bbList : List β) :
    ∃ counters, InstrumentPragmaRegion opts fn bbList = some counters := by
  unfold InstrumentPragmaRegion
  split
  · exact ⟨[], rfl⟩
  · split
    · obtain ⟨n, t, s, heq, -⟩ := instrumentSFLoopSets_colored opts fn.trees (regionLoopTree fn bbList) ⟨bbList, []⟩
        (P := fun _ _ _ _ => True) (fun _ _ _ _ _ _ _ _ => trivial) trivial
      simp [instrumentLoops, heq]
    · exact ⟨_, rfl⟩

/-! ### Counters other than post-dominator sets -/

section counters

variable {opts : PassOptions} {c : Counter β}

omit [DecidableEq β] in
theorem not_mem_instrumentPostDomSet {trees : DominatorTrees β} {npd : List β}
    (hc : ∀ blocks, c ≠ .postDomSet blocks) :
    c ∉ instrumentPostDomSet opts trees npd := by
  intro hmem
  obtain ⟨blocks, -, heq⟩ := List.mem_map.mp hmem
  exact hc blocks heq.symm

/-- Below its top a set adds post-dominator sets only. -/
theorem mem_counters_instrumentSFLoopSet (hc : ∀ blocks, c ≠ .postDomSet blocks) {trees : DominatorTrees β} {j : Nat}
    {parent : Option (LoopData β)} {sf : Nat} {t : Forest (LoopData β)} {s : SetState β} :
    c ∈ (instrumentSFLoopSet opts trees j parent sf t s).2.counters ↔ c ∈ s.counters := by
  induction t generalizing parent sf s with
  | nil => exact Iff.rfl
  | node d ch sib ihc ihs =>
    unfold instrumentSFLoopSet
    split
    · exact ihs
    · split
      · exact ihs
      · dsimp only
        rw [ihs, ihc]
        simp [SetState.takeLoop, not_mem_instrumentPostDomSet hc]

/-- A dynamic loop adds its own counter and post-dominator sets. -/
theorem mem_counters_instrumentDynamicLoop (hc : ∀ blocks, c ≠ .postDomSet blocks) {fn : FunctionAnalysis β}
    {d : LoopData β} {s : RegionState β} :
    c ∈ (instrumentDynamicLoop opts fn d s).counters ↔ c ∈ s.counters ∨
      insertDynamicLoopCounter (fn.afterSplit d.loop.header) d.loop.header (takeLoopBlocks
        (fun b => (fn.beforeSplit d.loop.header).isHoistable && fn.trees.postDominates b d.loop.header)
        (getUniqueLoopBB d) s.pragmaBlocks).pd = some c := by
  unfold instrumentDynamicLoop
  dsimp only
  split
  · rename_i counter hcounter
    rw [hcounter, Option.some.injEq]
    simp [not_mem_instrumentPostDomSet hc, eq_comm]
  · rename_i hnone
    rw [hnone]
    split <;> simp [not_mem_instrumentPostDomSet hc]

theorem scaleFactorSet_mem_instrumentDynamicLoops {fn : FunctionAnalysis β} {header : β}
    {pairs : List (List β × Nat)} (t : Forest (LoopData β)) {s : RegionState β} :
    .scaleFactorSet header pairs ∈ (instrumentDynamicLoops opts fn t s).counters ↔
      .scaleFactorSet header pairs ∈ s.counters := by
  induction t generalizing s with
  | nil => exact Iff.rfl
  | node d ch sib ihc ihs =>
    simp only [instrumentDynamicLoops]
    rw [ihs, ihc]
    split
    · rw [mem_counters_instrumentDynamicLoop (by simp), or_iff_left]
      unfold insertDynamicLoopCounter
      split
      · simp
      · split <;> simp
    · exact Iff.rfl

end counters

end ZRay.Pass
