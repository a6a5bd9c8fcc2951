import ZRay.ControlFlow.Reducible
import ZRay.Pass.Coverage
import ZRay.Pass.SetRounds

/-!
# The loops around the blocks of a set

With loop hoisting on, `createPostDomSets` is called for the blocks directly in one loop, and at the end for the
blocks that no loop of the region has directly.  So when every loop of the function is a loop of the region, or holds
all of its blocks or none, the blocks of a set lie in the same loops (`sameLoops_of_mem_postDomSet`).  That the pool
at the end has no block of a loop any more rests on the rounds of the loop over the scale-factor sets: together they
take every loop that has a factor (`not_mem_pragmaBlocks_instrumentSFLoopSets`).
-/

namespace ZRay.Pass

open FlowGraph

variable {β : Type*}

/-! ### The innermost loop of a block -/

/-- Two loops of `LoopInfo` are disjoint, or one lies in the other and leaves out its header. -/
theorem LoopsWellFormed.nested {f : Forest (Loop β)} (hwf : LoopsWellFormed f) {L M : Loop β} (hL : L ∈ f.nodes)
    (hM : M ∈ f.nodes) : L = M ∨ L.blocks.Disjoint M.blocks ∨ (L.blocks ⊆ M.blocks ∧ M.header ∉ L.blocks) ∨
      (M.blocks ⊆ L.blocks ∧ L.header ∉ M.blocks) := by
  induction f with
  | nil => simp at hL
  | node N subs rest ihs ihr =>
    obtain ⟨-, -, hsub, hdisj, hwfs, hwfr⟩ := hwf
    have hbelow : ∀ K ∈ subs.nodes, K.blocks ⊆ N.blocks ∧ N.header ∉ K.blocks := by
      intro K hK
      obtain ⟨S, hS, hsubset⟩ := exists_root_of_mem_nodes hwfs hK
      exact ⟨fun x hx => (hsub S hS).1 (hsubset hx), fun hmem => (hsub S hS).2 (hsubset hmem)⟩
    have hbeside : ∀ K ∈ rest.nodes, N.blocks.Disjoint K.blocks := by
      intro K hK x hx hxK
      obtain ⟨R, hR, hsubset⟩ := exists_root_of_mem_nodes hwfr hK
      exact hdisj R hR hx (hsubset hxK)
    simp only [Forest.nodes_node, List.mem_cons, List.mem_append] at hL hM
    rcases hL with rfl | hL | hL <;> rcases hM with rfl | hM | hM
    · exact .inl rfl
    · exact .inr (.inr (.inr (hbelow M hM)))
    · exact .inr (.inl (hbeside M hM))
    · exact .inr (.inr (.inl (hbelow L hL)))
    · exact ihs hwfs hL hM
    · exact .inr (.inl fun x hx hxM => hbeside M hM ((hbelow L hL).1 hx) hxM)
    · exact .inr (.inl fun x hx hxM => hbeside L hL hxM hx)
    · exact .inr (.inl fun x hx hxM => hbeside L hL ((hbelow M hM).1 hxM) hx)
    · exact ihr hwfr hL hM

/-- A block of some loop has an innermost one. -/
theorem LoopsWellFormed.exists_directlyIn {f : Forest (Loop β)} (hwf : LoopsWellFormed f) {M : Loop β}
    (hM : M ∈ f.nodes) {x : β} (hx : x ∈ M.blocks) : ∃ L ∈ f.nodes, DirectlyIn f.nodes Loop.blocks L x := by
  induction f generalizing M with
  | nil => simp at hM
  | node N subs rest ihs ihr =>
    obtain ⟨-, -, hsub, hdisj, hwfs, hwfr⟩ := hwf
    have hbeside : ∀ K ∈ rest.nodes, N.blocks.Disjoint K.blocks := by
      intro K hK y hy hyK
      obtain ⟨R, hR, hsubset⟩ := exists_root_of_mem_nodes hwfr hK
      exact hdisj R hR hy (hsubset hyK)
    have hbelow : ∀ K ∈ subs.nodes, K.blocks ⊆ N.blocks := by
      intro K hK y hy
      obtain ⟨S, hS, hsubset⟩ := exists_root_of_mem_nodes hwfs hK
      exact (hsub S hS).1 (hsubset hy)
    by_cases hdeep : ∃ K ∈ subs.nodes, x ∈ K.blocks
    · obtain ⟨K, hK, hxK⟩ := hdeep
      obtain ⟨L, hL, hxL, hinner⟩ := ihs hwfs hK hxK
      refine ⟨L, by simp [hL], hxL, fun P hP hxP => ?_⟩
      simp only [Forest.nodes_node, List.mem_cons, List.mem_append] at hP
      rcases hP with rfl | hP | hP
      · exact hbelow L hL
      · exact hinner P hP hxP
      · exact absurd hxP (hbeside P hP (hbelow L hL hxL))
    · simp only [Forest.nodes_node, List.mem_cons, List.mem_append] at hM
      rcases hM with rfl | hM | hM
      · refine ⟨M, by simp, hx, fun P hP hxP => ?_⟩
        simp only [Forest.nodes_node, List.mem_cons, List.mem_append] at hP
        rcases hP with rfl | hP | hP
        · exact List.Subset.refl _
        · exact absurd ⟨P, hP, hxP⟩ hdeep
        · exact absurd hxP (hbeside P hP hx)
      · exact absurd ⟨M, hM, hx⟩ hdeep
      · obtain ⟨L, hL, hxL, hinner⟩ := ihr hwfr hM hx
        refine ⟨L, by simp [hL], hxL, fun P hP hxP => ?_⟩
        simp only [Forest.nodes_node, List.mem_cons, List.mem_append] at hP
        rcases hP with rfl | hP | hP
        · exact absurd hxL (hbeside L hL hxP)
        · exact absurd ⟨P, hP, hxP⟩ hdeep
        · exact hinner P hP hxP

section getUniqueLoopBB

variable [DecidableEq β] {inBounds : β → Bool} {counts : β → BackedgeTakenCount}

omit [DecidableEq β] in
/-- The subloops of a node of the tree are loops that leave out its header. -/
theorem subLoops_createLoopTree {f : Forest (Loop β)} (hwf : LoopsWellFormed f) {d : LoopData β}
    (hd : d ∈ (createLoopTree inBounds counts f).nodes) :
    ∀ S ∈ d.subLoops, S ∈ f.nodes ∧ d.loop.header ∉ S.blocks := by
  induction f with
  | nil => simp [createLoopTree] at hd
  | node N subs rest ihs ihr =>
    obtain ⟨-, -, hsub, -, hwfs, hwfr⟩ := hwf
    have hinside : d ∈ (createLoopTree inBounds counts subs).nodes ∨ d ∈ (createLoopTree inBounds counts rest).nodes →
        ∀ S ∈ d.subLoops, S ∈ (Forest.node N subs rest).nodes ∧ d.loop.header ∉ S.blocks := by
      rintro (hd | hd) S hS
      · exact ⟨by simp [(ihs hwfs hd S hS).1], (ihs hwfs hd S hS).2⟩
      · exact ⟨by simp [(ihr hwfr hd S hS).1], (ihr hwfr hd S hS).2⟩
    simp only [createLoopTree] at hd
    split at hd
    · simp only [Forest.nodes_node, List.mem_cons, List.mem_append] at hd
      rcases hd with rfl | hd
      · intro S hS
        exact ⟨by simp [Forest.roots_subset_nodes subs hS], (hsub S hS).2⟩
      · exact hinside hd
    · rw [Forest.nodes_append, List.mem_append] at hd
      exact hinside hd

/-- The blocks that the pass takes for a loop of the tree are those whose innermost loop it is. -/
theorem mem_getUniqueLoopBB_iff {f : Forest (Loop β)} (hwf : LoopsWellFormed f) {d : LoopData β}
    (hd : d ∈ (createLoopTree inBounds counts f).nodes) {x : β} :
    x ∈ getUniqueLoopBB d ↔ DirectlyIn f.nodes Loop.blocks d.loop x := by
  constructor
  · intro hx
    refine ⟨(mem_getUniqueLoopBB.mp hx).1, ?_⟩
    induction f with
    | nil => simp [createLoopTree] at hd
    | node N subs rest ihs ihr =>
      obtain ⟨-, -, hsub, hdisj, hwfs, hwfr⟩ := hwf
      have hbelow : ∀ K ∈ subs.nodes, K.blocks ⊆ N.blocks := by
        intro K hK y hy
        obtain ⟨S, hS, hsubset⟩ := exists_root_of_mem_nodes hwfs hK
        exact (hsub S hS).1 (hsubset hy)
      have hbeside : ∀ K ∈ rest.nodes, N.blocks.Disjoint K.blocks := by
        intro K hK y hy hyK
        obtain ⟨R, hR, hsubset⟩ := exists_root_of_mem_nodes hwfr hK
        exact hdisj R hR hy (hsubset hyK)
      have hcases : (d.loop = N ∧ d.subLoops = subs.roots) ∨ d ∈ (createLoopTree inBounds counts subs).nodes ∨
          d ∈ (createLoopTree inBounds counts rest).nodes := by
        simp only [createLoopTree] at hd
        split at hd
        · simp only [Forest.nodes_node, List.mem_cons, List.mem_append] at hd
          rcases hd with rfl | hd
          · exact .inl ⟨rfl, rfl⟩
          · exact .inr hd
        · rw [Forest.nodes_append, List.mem_append] at hd
          exact .inr hd
      obtain ⟨hxd, hxsub⟩ := mem_getUniqueLoopBB.mp hx
      intro P hP hxP
      simp only [Forest.nodes_node, List.mem_cons, List.mem_append] at hP
      rcases hcases with ⟨rfl, hroots⟩ | hd | hd
      · rcases hP with rfl | hP | hP
        · exact List.Subset.refl _
        · obtain ⟨S, hS, hsubset⟩ := exists_root_of_mem_nodes hwfs hP
          exact absurd (hsubset hxP) (hxsub S (hroots ▸ hS))
        · exact absurd hxP (hbeside P hP hxd)
      · have hdN := hbelow d.loop (mem_createLoopTree hd).1
        rcases hP with rfl | hP | hP
        · exact hdN
        · exact ihs hwfs hd P hP hxP
        · exact absurd hxP (hbeside P hP (hdN hxd))
      · have hdN := hbeside d.loop (mem_createLoopTree hd).1
        rcases hP with rfl | hP | hP
        · exact absurd hxd (hdN hxP)
        · exact absurd hxd (hdN (hbelow P hP hxP))
        · exact ihr hwfr hd P hP hxP
  · rintro ⟨hxd, hinner⟩
    refine mem_getUniqueLoopBB.mpr ⟨hxd, fun S hS hxS => ?_⟩
    obtain ⟨hSf, hout⟩ := subLoops_createLoopTree hwf hd S hS
    exact hout (hinner S hSf hxS (hwf.header_mem (mem_createLoopTree hd).1))

end getUniqueLoopBB

/-! ### What the rounds leave in the region's list -/

section pool

variable [DecidableEq β] (opts : PassOptions) (trees : DominatorTrees β)

omit [DecidableEq β] in
/-- The loops with their products, without the products. -/
theorem map_fst_pathProducts (factor : LoopData β → Nat) (outer : Nat) (t : Forest (LoopData β)) :
    (t.pathProducts factor outer).map Prod.fst = t.nodes := by
  induction t generalizing outer with
  | nil => rfl
  | node d ch sib ihc ihs =>
    rw [Forest.pathProducts, List.map_cons, List.map_append, ihc, ihs, Forest.nodes_node]

theorem count_pragmaBlocks_takeLoopBlocks_le (inPD : β → Bool) (uniqueBB pool : List β) (x : β) :
    (takeLoopBlocks inPD uniqueBB pool).pragmaBlocks.count x ≤ pool.count x := by
  have hcount := count_takeLoopBlocks inPD uniqueBB pool x
  omega

/-- Taking loops one after the other puts no block back, and leaves no block directly in one of them. -/
theorem pragmaBlocks_foldl_takeLoop (l : List (LoopData β × Nat)) (s : SetState β) (x : β) :
    (l.foldl (fun s y => s.takeLoop opts trees y.1 (y.2 % 2 ^ 64)) s).pragmaBlocks.count x ≤ s.pragmaBlocks.count x ∧
      (s.pragmaBlocks.count x ≤ 1 → ∀ y ∈ l, x ∈ getUniqueLoopBB y.1 →
        x ∉ (l.foldl (fun s y => s.takeLoop opts trees y.1 (y.2 % 2 ^ 64)) s).pragmaBlocks) := by
  induction l generalizing s with
  | nil => exact ⟨Nat.le_refl _, fun _ y hy => absurd hy List.not_mem_nil⟩
  | cons y l ih =>
    obtain ⟨hle, hgone⟩ := ih (s.takeLoop opts trees y.1 (y.2 % 2 ^ 64))
    have hfirst := count_pragmaBlocks_takeLoopBlocks_le (fun b => trees.postDominates b y.1.loop.header)
      (getUniqueLoopBB y.1) s.pragmaBlocks x
    refine ⟨hle.trans hfirst, fun hone z hz hx => ?_⟩
    rw [List.foldl_cons]
    rcases List.mem_cons.mp hz with rfl | hz
    · have hzero := count_pragmaBlocks_takeLoopBlocks_of_mem (fun b => trees.postDominates b z.1.loop.header) hx hone
      rw [← List.count_pos_iff]
      change _ ≤ (takeLoopBlocks _ _ _).pragmaBlocks.count x at hle
      omega
    · exact hgone (hfirst.trans hone) z hz hx

/-- When the rounds are over, no block of the region that is directly in a loop with a scale factor is left. -/
theorem not_mem_pragmaBlocks_instrumentSFLoopSets {tree : Forest (LoopData β)}
    (hsize : ∀ d ∈ tree.nodes, d.scaleFactor < 2 ^ 64) {bbList : List β} (hnodup : bbList.Nodup) :
    ∃ t s, instrumentSFLoopSets opts trees (colorLoopTreeSF 0 1 tree).1.nodes.length 1
        (colorLoopTreeSF 0 1 tree).2 (colorLoopTreeSF 0 1 tree).1 ⟨bbList, []⟩ = some (t, s) ∧
      t.map LoopData.uncolored = tree.map LoopData.uncolored ∧ ColorZeroIff t ∧
      (∀ x, s.pragmaBlocks.count x ≤ bbList.count x) ∧
      ∀ d ∈ t.nodes, d.setColor ≠ 0 → ∀ x ∈ getUniqueLoopBB d, x ∉ s.pragmaBlocks := by
  have hrun := instrumentSFLoopSets_colored opts trees tree ⟨bbList, []⟩
    (P := fun j _ t s => (∀ x, s.pragmaBlocks.count x ≤ bbList.count x) ∧
      ∀ d ∈ t.nodes.filter (earlier j), ∀ x ∈ getUniqueLoopBB d, x ∉ s.pragmaBlocks) ?_ ?_
  · obtain ⟨n, t, s, heq, hT, hnum, j, hnj, hle, hgone⟩ := hrun
    refine ⟨t, s, heq, hT, hnum.colorZero, hle, fun d hd hcolor => hgone d ?_⟩
    rw [filter_earlier_of_le hnum hnj, List.mem_filter]
    have hzero := hnum.colorZero d hd
    exact ⟨hd, by simpa using fun h0 => hcolor (hzero.mpr h0)⟩
  · intro j n t t' s p d ch hj hjn hT hnum hP hd hp hrep
    obtain ⟨hle, hgone⟩ := hP
    have hdsize : d.scaleFactor < 2 ^ 64 := by
      obtain ⟨e, he, heq⟩ := exists_node_uncolored hT (hrep.nodes_subset (x := d) (by simp))
      have hsf : e.scaleFactor = d.scaleFactor := by simpa using congrArg LoopData.scaleFactor heq
      exact hsf ▸ hsize e he
    obtain ⟨hsound, hperm⟩ := SetRound.sound_of_replacedAt opts trees tree
      (r := ⟨j, n, s, t, t', p, d, ch⟩) hdsize hT hnum hj hjn hd hrep
    have hpool : (instrumentSet opts trees j n s p d ch).2.2.pragmaBlocks =
        ((((⟨j, n, s, t, t', p, d, ch⟩ : SetRound β).taken trees).pathProducts LoopData.scaleFactor 1).foldl
          (fun (s : SetState β) y => s.takeLoop opts trees y.1 (y.2 % 2 ^ 64))
          ⟨s.pragmaBlocks, n, [], s.counters⟩).pragmaBlocks := by
      have hfactors := congrArg SetState.pragmaBlocks hsound.factors
      exact hfactors
    rw [hpool]
    have hfold := fun x => pragmaBlocks_foldl_takeLoop opts trees
      (((⟨j, n, s, t, t', p, d, ch⟩ : SetRound β).taken trees).pathProducts LoopData.scaleFactor 1)
      ⟨s.pragmaBlocks, n, [], s.counters⟩ x
    refine ⟨fun x => (hfold x).1.trans (hle x), fun e he x hx => ?_⟩
    rcases List.mem_append.mp (hperm.mem_iff.mp he) with he | he
    · -- taken before
      have hbefore := hgone e he x hx
      rw [← List.count_eq_zero] at hbefore ⊢
      have hlater := (hfold x).1
      dsimp only at hlater
      omega
    · rw [← map_fst_pathProducts LoopData.scaleFactor 1, List.mem_map] at he
      obtain ⟨y, hy, rfl⟩ := he
      exact (hfold x).2 ((hle x).trans (List.nodup_iff_count_le_one.mp hnodup x)) y hy hx
  · refine ⟨fun x => Nat.le_refl _, fun d hd => ?_⟩
    simp only [List.mem_filter, earlier, Bool.and_eq_true, decide_eq_true_eq] at hd
    omega

end pool

/-! ### Where the sets come from -/

section sets

variable [DecidableEq β] {opts : PassOptions} {fn : FunctionAnalysis β} {Q : List β → Prop}

/-- The second list gets blocks of the loop only. -/
theorem npd_takeLoopBlocks_subset (inPD : β → Bool) (uniqueBB pool : List β) :
    (takeLoopBlocks inPD uniqueBB pool).npd ⊆ uniqueBB := by
  intro x hx
  by_contra hout
  have hzero := (count_lists_takeLoopBlocks inPD pool hout).2
  exact List.count_eq_zero.mp hzero hx

/-- Every post-dominator set among the counters was made from a list of blocks with the property `Q`. -/
def SetsFrom (opts : PassOptions) (trees : DominatorTrees β) (Q : List β → Prop) (counters : List (Counter β)) :
    Prop :=
  ∀ blocks, .postDomSet blocks ∈ counters → ∃ npd, Q npd ∧ blocks ∈ createPostDomSets opts trees npd

omit [DecidableEq β] in
theorem SetsFrom.append {trees : DominatorTrees β} {cs cs' : List (Counter β)} (h : SetsFrom opts trees Q cs)
    (h' : SetsFrom opts trees Q cs') : SetsFrom opts trees Q (cs ++ cs') := by
  intro blocks hmem
  rcases List.mem_append.mp hmem with hmem | hmem
  · exact h blocks hmem
  · exact h' blocks hmem

omit [DecidableEq β] in
theorem SetsFrom.instrumentPostDomSet {trees : DominatorTrees β} {npd : List β} (hnpd : Q npd) :
    SetsFrom opts trees Q (instrumentPostDomSet opts trees npd) := by
  intro blocks hmem
  obtain ⟨set, hset, heq⟩ := List.mem_map.mp hmem
  obtain rfl : set = blocks := by simpa using heq
  exact ⟨npd, hnpd, hset⟩

/-- A round makes its sets from blocks directly in one loop. -/
theorem setsFrom_instrumentSFLoopSet {trees : DominatorTrees β} {j : Nat} {parent : Option (LoopData β)} {sf : Nat}
    {t : Forest (LoopData β)} {s : SetState β} (hQ : ∀ d ∈ t.nodes, ∀ npd ⊆ getUniqueLoopBB d, Q npd)
    (h : SetsFrom opts trees Q s.counters) :
    SetsFrom opts trees Q (instrumentSFLoopSet opts trees j parent sf t s).2.counters := by
  induction t generalizing parent sf s with
  | nil => exact h
  | node d ch sib ihc ihs =>
    have hch : ∀ e ∈ ch.nodes, ∀ npd ⊆ getUniqueLoopBB e, Q npd := fun e he => hQ e (by simp [he])
    have hsib : ∀ e ∈ sib.nodes, ∀ npd ⊆ getUniqueLoopBB e, Q npd := fun e he => hQ e (by simp [he])
    unfold instrumentSFLoopSet
    split
    · exact ihs hsib h
    · split
      · exact ihs hsib h
      · dsimp only
        refine ihs hsib (ihc hch (h.append (.instrumentPostDomSet (hQ d (by simp) _ ?_))))
        exact npd_takeLoopBlocks_subset _ _ _

/-- So does a dynamic loop. -/
theorem setsFrom_instrumentDynamicLoop {d : LoopData β} {s : RegionState β}
    (hQ : ∀ npd ⊆ getUniqueLoopBB d, Q npd) (h : SetsFrom opts fn.trees Q s.counters) :
    SetsFrom opts fn.trees Q (instrumentDynamicLoop opts fn d s).counters := by
  have hnpd := fun inPD pool => hQ _ (npd_takeLoopBlocks_subset inPD (getUniqueLoopBB d) pool)
  unfold instrumentDynamicLoop
  dsimp only
  split
  · rename_i counter hcounter
    refine h.append fun blocks hmem => ?_
    rcases List.mem_cons.mp hmem with rfl | hmem
    · unfold insertDynamicLoopCounter at hcounter
      split at hcounter
      · simp at hcounter
      · split at hcounter <;> simp at hcounter
    · exact SetsFrom.instrumentPostDomSet (hnpd _ _) blocks hmem
  · split
    · exact h.append (.instrumentPostDomSet (hnpd _ _))
    · exact h.append (.instrumentPostDomSet (hnpd _ _))

theorem setsFrom_instrumentDynamicLoops {t : Forest (LoopData β)} {s : RegionState β}
    (hQ : ∀ d ∈ t.nodes, ∀ npd ⊆ getUniqueLoopBB d, Q npd) (h : SetsFrom opts fn.trees Q s.counters) :
    SetsFrom opts fn.trees Q (instrumentDynamicLoops opts fn t s).counters := by
  induction t generalizing s with
  | nil => exact h
  | node d ch sib ihc ihs =>
    rw [instrumentDynamicLoops]
    refine ihs (fun e he => hQ e (by simp [he])) (ihc (fun e he => hQ e (by simp [he])) ?_)
    split
    · exact setsFrom_instrumentDynamicLoop (hQ d (by simp)) h
    · exact h

/-- A dynamic loop leaves none of its blocks in the region's list. -/
theorem count_pragmaBlocks_instrumentDynamicLoop_le (opts : PassOptions) (fn : FunctionAnalysis β) (d : LoopData β)
    (s : RegionState β) (x : β) :
    (instrumentDynamicLoop opts fn d s).pragmaBlocks.count x ≤ s.pragmaBlocks.count x ∧
      (s.pragmaBlocks.count x ≤ 1 → x ∈ getUniqueLoopBB d →
        (instrumentDynamicLoop opts fn d s).pragmaBlocks.count x = 0) := by
  have hle := fun inPD pool => count_pragmaBlocks_takeLoopBlocks_le inPD (getUniqueLoopBB d) pool x
  have hfirst := hle (inPDSet fn d) s.pragmaBlocks
  have hgone : s.pragmaBlocks.count x ≤ 1 → x ∈ getUniqueLoopBB d →
      (takeLoopBlocks (inPDSet fn d) (getUniqueLoopBB d) s.pragmaBlocks).pragmaBlocks.count x = 0 :=
    fun hone hx => count_pragmaBlocks_takeLoopBlocks_of_mem (inPDSet fn d) hx hone
  unfold instrumentDynamicLoop
  dsimp only
  split
  · exact ⟨hfirst, hgone⟩
  · split
    · exact ⟨hfirst, hgone⟩
    · -- the list is searched a second time
      have hsecond := hle (fun _ => false)
        (takeLoopBlocks (inPDSet fn d) (getUniqueLoopBB d) s.pragmaBlocks).pragmaBlocks
      refine ⟨hsecond.trans hfirst, fun hone hx => ?_⟩
      have hzero := hgone hone hx
      rw [hzero] at hsecond
      exact Nat.le_zero.mp hsecond

theorem count_pragmaBlocks_instrumentDynamicLoops_le (opts : PassOptions) (fn : FunctionAnalysis β)
    (t : Forest (LoopData β)) (s : RegionState β) (x : β) :
    (instrumentDynamicLoops opts fn t s).pragmaBlocks.count x ≤ s.pragmaBlocks.count x ∧
      (s.pragmaBlocks.count x ≤ 1 → ∀ d ∈ t.nodes, d.setColor = 0 → x ∈ getUniqueLoopBB d →
        (instrumentDynamicLoops opts fn t s).pragmaBlocks.count x = 0) := by
  induction t generalizing s with
  | nil => exact ⟨Nat.le_refl _, fun _ d hd => by simp at hd⟩
  | node d ch sib ihc ihs =>
    rw [instrumentDynamicLoops]
    generalize hs1 : (if d.setColor = 0 then instrumentDynamicLoop opts fn d s else s) = s1
    have hroot : s1.pragmaBlocks.count x ≤ s.pragmaBlocks.count x ∧ (s.pragmaBlocks.count x ≤ 1 → d.setColor = 0 →
        x ∈ getUniqueLoopBB d → s1.pragmaBlocks.count x = 0) := by
      subst hs1
      obtain ⟨hle, hgone⟩ := count_pragmaBlocks_instrumentDynamicLoop_le opts fn d s x
      split
      · exact ⟨hle, fun hone _ => hgone hone⟩
      · rename_i hcolor
        exact ⟨Nat.le_refl _, fun _ h0 => absurd h0 hcolor⟩
    obtain ⟨hchle, hchgone⟩ := ihc s1
    obtain ⟨hsible, hsibgone⟩ := ihs (instrumentDynamicLoops opts fn ch s1)
    refine ⟨hsible.trans (hchle.trans hroot.1), fun hone e he hcolor hx => ?_⟩
    simp only [Forest.nodes_node, List.mem_cons, List.mem_append] at he
    rcases he with rfl | he | he
    · have hzero := hroot.2 hone hcolor hx
      omega
    · have hzero := hchgone (hroot.1.trans hone) e he hcolor hx
      omega
    · exact hsibgone ((hchle.trans hroot.1).trans hone) e he hcolor hx

/-! ### The region -/

/-- Every loop of the function is a loop of the region, lies beside the region, or around it. -/
def RegionLoops (fn : FunctionAnalysis β) (bbList : List β) : Prop :=
  ∀ M ∈ fn.loopInfo.nodes, (∃ d ∈ (regionLoopTree fn bbList).nodes, d.loop = M) ∨ bbList.Disjoint M.blocks ∨
    (bbList ⊆ M.blocks ∧ ∀ d ∈ (regionLoopTree fn bbList).nodes, ¬ M.blocks ⊆ d.loop.blocks)

/-- The blocks lie in the same loops. -/
def SameLoops (fn : FunctionAnalysis β) (npd : List β) : Prop :=
  ∀ x ∈ npd, ∀ y ∈ npd, ∀ M ∈ fn.loopInfo.nodes, x ∈ M.blocks → y ∈ M.blocks

/-- A block of the region that a loop of its tree holds is directly in one. -/
theorem RegionLoops.exists_directly {bbList : List β} (hregion : RegionLoops fn bbList)
    (hwf : LoopsWellFormed fn.loopInfo) {d : LoopData β} (hd : d ∈ (regionLoopTree fn bbList).nodes) {x : β}
    (hx : x ∈ bbList) (hxd : x ∈ d.loop.blocks) : ∃ e ∈ (regionLoopTree fn bbList).nodes, x ∈ getUniqueLoopBB e := by
  have hdf := (mem_createLoopTree hd).1
  obtain ⟨L, hL, hxL, hinner⟩ := hwf.exists_directlyIn hdf hxd
  rcases hregion L hL with ⟨e, he, rfl⟩ | hdisj | ⟨-, hout⟩
  · exact ⟨e, he, (mem_getUniqueLoopBB_iff hwf he).mpr ⟨hxL, hinner⟩⟩
  · exact absurd hxL (hdisj hx)
  · exact absurd (hinner d.loop hdf hxd) (hout d hd)

/-- With loop hoisting on, the sets are made from blocks in the same loops. -/
theorem setsFrom_instrumentPragmaRegion (hopt : opts.applyLoopHoisting = true) (hwf : LoopsWellFormed fn.loopInfo)
    {bbList : List β} (hregion : RegionLoops fn bbList) (hnodup : bbList.Nodup)
    (hsize : ∀ d ∈ (regionLoopTree fn bbList).nodes, d.scaleFactor < 2 ^ 64) {counters : List (Counter β)}
    (hrun : InstrumentPragmaRegion opts fn bbList = some counters) :
    SetsFrom opts fn.trees (SameLoops fn) counters := by
  by_cases hempty : bbList.isEmpty = true
  · rw [InstrumentPragmaRegion, if_pos hempty, Option.some.injEq] at hrun
    subst hrun
    intro blocks hmem
    simp at hmem
  have huncolored : (regionLoopTree fn bbList).map LoopData.uncolored = regionLoopTree fn bbList :=
    map_uncolored_createLoopTree _ _ _
  have hdirect : ∀ t : Forest (LoopData β),
      t.map LoopData.uncolored = (regionLoopTree fn bbList).map LoopData.uncolored → ∀ d ∈ t.nodes,
      ∀ npd ⊆ getUniqueLoopBB d, SameLoops fn npd := by
    intro t hT d hd npd hsub x hx y hy M hM hxM
    obtain ⟨e, he, heq⟩ := exists_node_uncolored hT hd
    have huniq : getUniqueLoopBB d = getUniqueLoopBB e := by
      rw [← getUniqueLoopBB_uncolored d, ← heq, getUniqueLoopBB_uncolored]
    have hxe := (mem_getUniqueLoopBB_iff hwf he).mp (huniq ▸ hsub hx)
    have hye := (mem_getUniqueLoopBB_iff hwf he).mp (huniq ▸ hsub hy)
    exact hxe.2 M hM hxM hye.1
  obtain ⟨t, s, hsets, hT, hzero, hle, hgone⟩ :=
    not_mem_pragmaBlocks_instrumentSFLoopSets opts fn.trees hsize hnodup
  have hfrom : SetsFrom opts fn.trees (SameLoops fn) s.counters := by
    obtain ⟨n', t', s', hsets', -, -, j, -, hP⟩ := instrumentSFLoopSets_colored opts fn.trees
      (regionLoopTree fn bbList) ⟨bbList, []⟩ (P := fun _ _ _ s => SetsFrom opts fn.trees (SameLoops fn) s.counters)
      (fun {j n t t' s p d ch} _ _ hT _ hP _ _ hrep => by
        have hQ : ∀ e ∈ (Forest.node d ch .nil).nodes, ∀ npd ⊆ getUniqueLoopBB e, SameLoops fn npd :=
          fun e he => hdirect t hT e (hrep.nodes_subset he)
        have hround : SetsFrom opts fn.trees (SameLoops fn)
            (instrumentSFLoopSet opts fn.trees j p 1 (.node d ch .nil)
              ⟨s.pragmaBlocks, n, [], s.counters⟩).2.counters :=
          setsFrom_instrumentSFLoopSet hQ hP
        simp only [instrumentSet]
        exact hround.append fun blocks hmem => by simp at hmem) fun blocks hmem => by simp at hmem
    obtain ⟨-, rfl⟩ := Prod.mk.inj (Option.some.inj (hsets'.symm.trans hsets))
    exact hP
  simp only [InstrumentPragmaRegion, hempty, hopt, instrumentLoops, hsets, if_true, Bool.false_eq_true, if_false,
    Option.map_some, Option.some.injEq] at hrun
  subst hrun
  refine (setsFrom_instrumentDynamicLoops (hdirect t hT) hfrom).append (.instrumentPostDomSet ?_)
  -- what is left is directly in no loop of the region
  have hleft : ∀ x ∈ (instrumentDynamicLoops opts fn t s).pragmaBlocks, x ∈ bbList ∧
      ∀ d ∈ (regionLoopTree fn bbList).nodes, x ∉ d.loop.blocks := by
    intro x hx
    obtain ⟨hdle, hdgone⟩ := count_pragmaBlocks_instrumentDynamicLoops_le opts fn t s x
    have hpos := List.count_pos_iff.mpr hx
    have hone : s.pragmaBlocks.count x ≤ 1 := (hle x).trans (List.nodup_iff_count_le_one.mp hnodup x)
    have hxb : x ∈ bbList := List.count_pos_iff.mp (by have hlex := hle x; omega)
    refine ⟨hxb, fun d hd hxd => ?_⟩
    obtain ⟨e, he, hxe⟩ := hregion.exists_directly hwf hd hxb hxd
    obtain ⟨e', he', heq⟩ := exists_node_uncolored hT.symm he
    rw [← getUniqueLoopBB_uncolored, ← heq, getUniqueLoopBB_uncolored] at hxe
    by_cases hcolor : e'.setColor = 0
    · have hnone := hdgone hone e' he' hcolor hxe
      omega
    · have hnone := List.count_eq_zero.mpr (hgone e' he' hcolor x hxe)
      omega
  intro x hx y hy M hM hxM
  obtain ⟨hxb, hxout⟩ := hleft x hx
  rcases hregion M hM with ⟨d, hd, rfl⟩ | hdisj | ⟨hall, -⟩
  · exact absurd hxM (hxout d hd)
  · exact absurd hxM (hdisj hxb)
  · exact hall (hleft y hy).1

/-- The blocks of a set lie in the loops its first block lies in, and are control equivalent to it. -/
theorem sameLoops_of_mem_postDomSet (hopt : opts.applyLoopHoisting = true) (hwf : LoopsWellFormed fn.loopInfo)
    {bbList : List β} (hregion : RegionLoops fn bbList) (hnodup : bbList.Nodup)
    (hsize : ∀ d ∈ (regionLoopTree fn bbList).nodes, d.scaleFactor < 2 ^ 64) {counters : List (Counter β)}
    (hrun : InstrumentPragmaRegion opts fn bbList = some counters) {b : β} {taken : List β}
    (hset : .postDomSet (b :: taken) ∈ counters) {x : β} (hx : x ∈ taken) :
    controlEquivalent opts fn.trees b x = true ∧ ∀ M ∈ fn.loopInfo.nodes, x ∈ M.blocks → b ∈ M.blocks := by
  obtain ⟨npd, hsame, hmem⟩ := setsFrom_instrumentPragmaRegion hopt hwf hregion hnodup hsize hrun _ hset
  have hnpd : ∀ y ∈ b :: taken, y ∈ npd := fun y hy =>
    flatten_createPostDomSets_perm npd |>.mem_iff.mp (List.mem_flatten.mpr ⟨_, hmem, hy⟩)
  exact ⟨controlEquivalent_of_mem_createPostDomSets hmem hx,
    hsame x (hnpd x (List.mem_cons_of_mem b hx)) b (hnpd b List.mem_cons_self)⟩

end sets

end ZRay.Pass
