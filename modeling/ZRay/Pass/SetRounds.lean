import ZRay.Pass.HoistedTops

/-!
# The rounds of the loop over the scale-factor sets

A round takes the set `j` at its top loop and splits off the subtrees whose header does not post-dominate the header
above: they get numbers beyond the bound of the loop.  When the turn of set `j` comes, its loops are one connected
subtree; the ones the round takes are again one, and keep the number (`SetRound.Sound`).  So no round meets a loop
that an earlier one has taken, and over all rounds every loop with a scale factor is taken once
(`exists_sfLoopSetRounds`). The factor of a loop is a `size_t`, so it is the product of the scale factors from the top
down modulo `2 ^ 64`.
-/

namespace ZRay.Pass

variable {β : Type*}

/-! ### The loops of a set -/

/-- The loops of color `id` among these nodes and below such. -/
def linkedPart (id : Nat) : Forest (LoopData β) → Forest (LoopData β)
  | .nil => .nil
  | .node d ch sib =>
    if d.setColor = id then .node d (linkedPart id ch) (linkedPart id sib) else linkedPart id sib

/-- The loops that `instrumentSFLoopSet` takes: what hangs on a split edge is left out. -/
def takenPart (trees : DominatorTrees β) (id : Nat) : Option (LoopData β) → Forest (LoopData β) → Forest (LoopData β)
  | _, .nil => .nil
  | parent, .node d ch sib =>
    if d.setColor ≠ id then takenPart trees id parent sib
    else if joinsParent parent d && !headerPostDominatesParent trees parent d then takenPart trees id parent sib
    else .node d (takenPart trees id (some d) ch) (takenPart trees id parent sib)

theorem pruned_linkedPart (id : Nat) (t : Forest (LoopData β)) : (linkedPart id t).Pruned t := by
  induction t with
  | nil => exact .nil
  | node d ch sib ihc ihs =>
    unfold linkedPart
    split
    · exact .keep d ihc ihs
    · exact .drop d ch ihs

theorem pruned_takenPart (trees : DominatorTrees β) (id : Nat) (parent : Option (LoopData β))
    (t : Forest (LoopData β)) : (takenPart trees id parent t).Pruned t := by
  induction t generalizing parent with
  | nil => exact .nil
  | node d ch sib ihc ihs =>
    unfold takenPart
    split
    · exact .drop d ch (ihs parent)
    · split
      · exact .drop d ch (ihs parent)
      · exact .keep d (ihc (some d)) (ihs parent)

/-- The nodes of one color. -/
def ofColor (id : Nat) (t : Forest (LoopData β)) : List (LoopData β) := t.nodes.filter fun d => d.setColor = id

theorem ofColor_node (id : Nat) (d : LoopData β) (ch sib : Forest (LoopData β)) :
    ofColor id (.node d ch sib) = (if d.setColor = id then [d] else []) ++ (ofColor id ch ++ ofColor id sib) := by
  unfold ofColor
  rw [Forest.nodes_node, List.filter_cons, List.filter_append]
  simp only [decide_eq_true_eq]
  split <;> simp

/-- A tree without a top of the set, under a node of another color, is outside the set. -/
theorem ofColor_eq_nil {j pc : Nat} (hj : j ≠ 0) (hpc : pc ≠ j) {t : Forest (LoopData β)} (hno : j ∉ topColors pc t) :
    ofColor j t = [] := by
  refine List.filter_eq_nil_iff.mpr fun d hd hcolor => hno ?_
  exact mem_topColors_of_node hj hpc hd (by simpa using hcolor)

/-- Under a node of the set, and without another top of it, the loops of the set are the linked ones. -/
theorem ofColor_eq_linkedPart {j : Nat} (hj : j ≠ 0) {t : Forest (LoopData β)} (hno : j ∉ topColors j t) :
    ofColor j t = (linkedPart j t).nodes := by
  induction t with
  | nil => rfl
  | node d ch sib ihc ihs =>
    simp only [topColors, List.mem_append, not_or] at hno
    obtain ⟨-, hch, hsib⟩ := hno
    rw [ofColor_node, ihs hsib, linkedPart]
    by_cases hd : d.setColor = j
    · rw [if_pos hd, if_pos hd, ihc (hd ▸ hch)]
      simp
    · rw [if_neg hd, if_neg hd, ofColor_eq_nil hj hd hch]
      simp

/-- A part that is split off leaves no loop in the set. -/
theorem ofColor_recolorSFLoopSet {j n : Nat} (hj : j ≠ 0) (hn : n ≠ j) {t : Forest (LoopData β)}
    (hno : j ∉ topColors j t) : ofColor j (recolorSFLoopSet j n t) = [] := by
  induction t with
  | nil => rfl
  | node d ch sib ihc ihs =>
    simp only [topColors, List.mem_append, not_or] at hno
    obtain ⟨-, hch, hsib⟩ := hno
    unfold recolorSFLoopSet
    by_cases hd : d.setColor = j
    · simp [ofColor_node, hd, hn, ihc (hd ▸ hch), ihs hsib]
    · simp [ofColor_node, hd, ofColor_eq_nil hj hd hch, ihs hsib]

theorem joinsParent_of_color {p d : LoopData β} {j : Nat} (hp : p.setColor = j) (hd : d.setColor = j) :
    joinsParent (some p) d = true := by
  simp [joinsParent, hp, hd]

theorem joinsParent_of_parentColor_ne {p : Option (LoopData β)} {d : LoopData β} (h : parentColor p ≠ d.setColor) :
    joinsParent p d = false := by
  cases p with
  | none => rfl
  | some q => simpa [joinsParent] using h

variable [DecidableEq β]

/-! ### One step of `instrumentSFLoopSet` -/

section step

variable (opts : PassOptions) (trees : DominatorTrees β) {j : Nat} {parent : Option (LoopData β)} {p d : LoopData β}
  (sf : Nat) (ch sib : Forest (LoopData β)) (s : SetState β)

theorem instrumentSFLoopSet_other (hd : d.setColor ≠ j) :
    instrumentSFLoopSet opts trees j parent sf (.node d ch sib) s =
      (.node d ch (instrumentSFLoopSet opts trees j parent sf sib s).1,
        (instrumentSFLoopSet opts trees j parent sf sib s).2) := by
  rw [instrumentSFLoopSet, if_pos hd]

theorem instrumentSFLoopSet_split (hp : p.setColor = j) (hd : d.setColor = j) (hchain : chains trees p d = false) :
    instrumentSFLoopSet opts trees j (some p) sf (.node d ch sib) s =
      (.node { d with setColor := s.loopSFSet } (recolorSFLoopSet j s.loopSFSet ch)
        (instrumentSFLoopSet opts trees j (some p) sf sib { s with loopSFSet := s.loopSFSet + 1 }).1,
        (instrumentSFLoopSet opts trees j (some p) sf sib { s with loopSFSet := s.loopSFSet + 1 }).2) := by
  have hsplit : (joinsParent (some p) d && !headerPostDominatesParent trees (some p) d) = true := by
    rw [joinsParent_of_color hp hd, Bool.true_and, Bool.not_eq_true']
    exact hchain
  rw [instrumentSFLoopSet, if_neg (not_not.mpr hd), if_pos hsplit, hd]

theorem instrumentSFLoopSet_taken (hp : p.setColor = j) (hd : d.setColor = j) (hchain : chains trees p d = true) :
    instrumentSFLoopSet opts trees j (some p) sf (.node d ch sib) s =
      let r := instrumentSFLoopSet opts trees j (some d) (d.scaleFactor * sf % 2 ^ 64) ch
        (s.takeLoop opts trees d (d.scaleFactor * sf % 2 ^ 64))
      (.node d r.1 (instrumentSFLoopSet opts trees j (some p) sf sib r.2).1,
        (instrumentSFLoopSet opts trees j (some p) sf sib r.2).2) := by
  have hkeep : ¬ (joinsParent (some p) d && !headerPostDominatesParent trees (some p) d) = true := by
    rw [joinsParent_of_color hp hd, Bool.true_and, Bool.not_eq_true']
    exact fun h => by simp [chains, headerPostDominatesParent] at hchain h; simp [hchain] at h
  rw [instrumentSFLoopSet, if_neg (not_not.mpr hd), if_neg hkeep, if_pos (joinsParent_of_color hp hd)]

theorem instrumentSFLoopSet_top (hparent : parentColor parent ≠ j) (hd : d.setColor = j) :
    instrumentSFLoopSet opts trees j parent sf (.node d ch .nil) s =
      let r := instrumentSFLoopSet opts trees j (some d) d.scaleFactor ch (s.takeLoop opts trees d d.scaleFactor)
      (.node d r.1 .nil, r.2) := by
  have hjoins : joinsParent parent d = false := joinsParent_of_parentColor_ne (hd ▸ hparent)
  simp only [instrumentSFLoopSet, hd, ne_eq, not_true_eq_false, if_false, hjoins, Bool.false_and, Bool.false_eq_true]

end step

omit [DecidableEq β] in
theorem takenPart_other {trees : DominatorTrees β} {j : Nat} {parent : Option (LoopData β)} {d : LoopData β}
    {ch sib : Forest (LoopData β)} (hd : d.setColor ≠ j) :
    takenPart trees j parent (.node d ch sib) = takenPart trees j parent sib := by
  rw [takenPart, if_pos hd]

omit [DecidableEq β] in
theorem takenPart_member {trees : DominatorTrees β} {j : Nat} {p d : LoopData β} {ch sib : Forest (LoopData β)}
    (hp : p.setColor = j) (hd : d.setColor = j) :
    takenPart trees j (some p) (.node d ch sib) =
      if chains trees p d then .node d (takenPart trees j (some d) ch) (takenPart trees j (some p) sib)
      else takenPart trees j (some p) sib := by
  rw [takenPart, if_neg (not_not.mpr hd), joinsParent_of_color hp hd, Bool.true_and]
  cases hchain : chains trees p d <;> simp_all [chains, headerPostDominatesParent]

omit [DecidableEq β] in
theorem takenPart_top {trees : DominatorTrees β} {j : Nat} {parent : Option (LoopData β)} {d : LoopData β}
    {ch : Forest (LoopData β)} (hparent : parentColor parent ≠ j) (hd : d.setColor = j) :
    takenPart trees j parent (.node d ch .nil) = .node d (takenPart trees j (some d) ch) .nil := by
  have hjoins : joinsParent parent d = false := joinsParent_of_parentColor_ne (hd ▸ hparent)
  simp [takenPart, hd, hjoins]

/-- Below a loop of the set, the loops that keep its number are the ones taken. -/
theorem ofColor_instrumentSFLoopSet (opts : PassOptions) (trees : DominatorTrees β) {j : Nat} (hj : j ≠ 0)
    {p : LoopData β} (hp : p.setColor = j) (sf : Nat) {t : Forest (LoopData β)} (s : SetState β)
    (hjn : j < s.loopSFSet) (hno : j ∉ topColors j t) :
    ofColor j (instrumentSFLoopSet opts trees j (some p) sf t s).1 = (takenPart trees j (some p) t).nodes := by
  induction t generalizing p sf s with
  | nil => rfl
  | node d ch sib ihc ihs =>
    simp only [topColors, List.mem_append, not_or] at hno
    obtain ⟨-, hch, hsib⟩ := hno
    by_cases hd : d.setColor = j
    · rw [hd] at hch
      rw [takenPart_member hp hd]
      cases hchain : chains trees p d with
      | false =>
        have hn : s.loopSFSet ≠ j := by omega
        rw [instrumentSFLoopSet_split opts trees sf ch sib s hp hd hchain, ofColor_node,
          ofColor_recolorSFLoopSet hj hn hch, ihs hp sf _ (by dsimp only; omega) hsib]
        simp [hn]
      | true =>
        have hle := loopSFSet_le_instrumentSFLoopSet opts trees j (some d) (d.scaleFactor * sf % 2 ^ 64) ch
          (s.takeLoop opts trees d (d.scaleFactor * sf % 2 ^ 64))
        rw [instrumentSFLoopSet_taken opts trees sf ch sib s hp hd hchain]
        dsimp only
        rw [ofColor_node, ihc hd _ (s.takeLoop opts trees d (d.scaleFactor * sf % 2 ^ 64)) hjn hch,
          ihs hp sf _ (lt_of_lt_of_le hjn hle) hsib]
        simp [hd]
    · rw [instrumentSFLoopSet_other opts trees sf ch sib s hd, takenPart_other hd, ofColor_node,
        ofColor_eq_nil hj hd hch, ihs hp sf s hjn hsib]
      simp [hd]

omit [DecidableEq β] in
/-- The loops of other sets are not touched. -/
theorem filter_recolorSFLoopSet {q : LoopData β → Bool} {j n : Nat} (hj : ∀ d, d.setColor = j → q d = false)
    (hn : ∀ d, d.setColor = n → q d = false) (t : Forest (LoopData β)) :
    (recolorSFLoopSet j n t).nodes.filter q = t.nodes.filter q := by
  induction t with
  | nil => rfl
  | node d ch sib ihc ihs =>
    unfold recolorSFLoopSet
    by_cases hd : d.setColor = j
    · simp [hd, hj d hd, hn { d with setColor := n } rfl, ihc, ihs]
    · simp [hd, List.filter_cons, ihs]

theorem filter_instrumentSFLoopSet {q : LoopData β → Bool} (opts : PassOptions) (trees : DominatorTrees β) {j n : Nat}
    (hj : ∀ d, d.setColor = j → q d = false) (hn : ∀ d, n ≤ d.setColor → q d = false) {p : LoopData β}
    (hp : p.setColor = j) (sf : Nat) (t : Forest (LoopData β)) (s : SetState β) (hns : n ≤ s.loopSFSet) :
    (instrumentSFLoopSet opts trees j (some p) sf t s).1.nodes.filter q = t.nodes.filter q := by
  induction t generalizing p sf s with
  | nil => rfl
  | node d ch sib ihc ihs =>
    by_cases hd : d.setColor = j
    · cases hchain : chains trees p d with
      | false =>
        rw [instrumentSFLoopSet_split opts trees sf ch sib s hp hd hchain]
        have hrest := ihs hp sf { s with loopSFSet := s.loopSFSet + 1 } (Nat.le_succ_of_le hns)
        have hnew := hn { d with setColor := s.loopSFSet } hns
        have hrecolor := filter_recolorSFLoopSet hj (fun d hd => hn d (hd ▸ hns)) ch
        simp [hj d hd, hnew, hrest, hrecolor]
      | true =>
        have hle := loopSFSet_le_instrumentSFLoopSet opts trees j (some d) (d.scaleFactor * sf % 2 ^ 64) ch
          (s.takeLoop opts trees d (d.scaleFactor * sf % 2 ^ 64))
        rw [instrumentSFLoopSet_taken opts trees sf ch sib s hp hd hchain]
        have hsub := ihc hd (d.scaleFactor * sf % 2 ^ 64) (s.takeLoop opts trees d (d.scaleFactor * sf % 2 ^ 64)) hns
        have hrest := ihs hp sf _ (le_trans hns hle)
        simp only [Forest.nodes_node, List.filter_cons, List.filter_append, hsub, hrest]
    · rw [instrumentSFLoopSet_other opts trees sf ch sib s hd]
      simp [List.filter_cons, ihs hp sf s hns]

/-- The loops are taken in the order of the tree, each with the product of the factors on the way to it. -/
theorem takeLoop_instrumentSFLoopSet (opts : PassOptions) (trees : DominatorTrees β) {j : Nat} {p : LoopData β}
    (hp : p.setColor = j) (outerSF : Nat) (t : Forest (LoopData β)) (s : SetState β) (m : Nat) :
    { (instrumentSFLoopSet opts trees j (some p) (outerSF % 2 ^ 64) t s).2 with loopSFSet := m } =
      ((takenPart trees j (some p) t).pathProducts LoopData.scaleFactor outerSF).foldl
        (fun s x => s.takeLoop opts trees x.1 (x.2 % 2 ^ 64)) { s with loopSFSet := m } := by
  induction t generalizing p outerSF s with
  | nil => rfl
  | node d ch sib ihc ihs =>
    by_cases hd : d.setColor = j
    · rw [takenPart_member hp hd]
      cases hchain : chains trees p d with
      | false =>
        rw [instrumentSFLoopSet_split opts trees _ ch sib s hp hd hchain]
        exact ihs hp outerSF _
      | true =>
        have hfactor : d.scaleFactor * (outerSF % 2 ^ 64) % 2 ^ 64 = outerSF * d.scaleFactor % 2 ^ 64 := by
          rw [Nat.mul_mod_mod, Nat.mul_comm]
        rw [instrumentSFLoopSet_taken opts trees _ ch sib s hp hd hchain, hfactor]
        simp only [if_true, Forest.pathProducts, List.foldl_cons, List.foldl_append]
        rw [ihs hp outerSF, ihc hd (outerSF * d.scaleFactor)]
        rfl
    · rw [instrumentSFLoopSet_other opts trees _ ch sib s hd, takenPart_other hd]
      exact ihs hp outerSF s

/-! ### Rounds -/

/-- A round: the set's number, the bound of the loop and the state when it starts, the tree before and after, and the
top loop that `findLoopTreeSet` returns, with its parent and its children. -/
structure SetRound (β : Type*) where
  id : Nat
  loopSFSet : Nat
  start : RegionState β
  before : Forest (LoopData β)
  after : Forest (LoopData β)
  parent : Option (LoopData β)
  top : LoopData β
  children : Forest (LoopData β)

/-- `instrumentSFLoopSets` with the list of its rounds. -/
def sfLoopSetRounds (opts : PassOptions) (trees : DominatorTrees β) :
    Nat → Nat → Nat → Forest (LoopData β) → RegionState β →
      Option (List (SetRound β) × Forest (LoopData β) × RegionState β)
  | 0, j, loopSFSet, t, s => if j < loopSFSet then none else some ([], t, s)
  | fuel + 1, j, loopSFSet, t, s =>
    if j < loopSFSet then
      match findLoopTreeSet j (fun p d ch =>
          let r := instrumentSet opts trees j loopSFSet s p d ch
          (r.1, r.2, p, d, ch)) none t with
      | none => none
      | some (t', (loopSFSet', s'), p, d, ch) =>
        (sfLoopSetRounds opts trees fuel (j + 1) loopSFSet' t' s').map fun (rounds, out) =>
          (⟨j, loopSFSet, s, t, t', p, d, ch⟩ :: rounds, out)
    else some ([], t, s)

namespace SetRound

/-- The state with which `instrumentSFLoopSet` is called. -/
def startState (r : SetRound β) : SetState β := ⟨r.start.pragmaBlocks, r.loopSFSet, [], r.start.counters⟩

def endState (opts : PassOptions) (trees : DominatorTrees β) (r : SetRound β) : SetState β :=
  (instrumentSFLoopSet opts trees r.id r.parent 1 (.node r.top r.children .nil) r.startState).2

/-- The loops the round takes. -/
def taken (trees : DominatorTrees β) (r : SetRound β) : Forest (LoopData β) :=
  takenPart trees r.id r.parent (.node r.top r.children .nil)

/-- What holds of a round on the loop tree `tree`: the loops of the set are one connected subtree of it; the loops it
takes are another, and all that is left in the set; and each is taken with the product of the scale factors from the
top down to it. -/
structure Sound (opts : PassOptions) (trees : DominatorTrees β) (tree : Forest (LoopData β)) (r : SetRound β) :
    Prop where
  sameLoops : r.before.map LoopData.uncolored = tree.map LoopData.uncolored
  set_connected : ∃ part : Forest (LoopData β), part.ConnectedIn r.before ∧ ofColor r.id r.before = part.nodes
  taken_connected : (r.taken trees).ConnectedIn r.before
  taken_final : ofColor r.id r.after = (r.taken trees).nodes
  factors : { r.endState opts trees with loopSFSet := r.loopSFSet } =
    ((r.taken trees).pathProducts LoopData.scaleFactor 1).foldl
      (fun s x => s.takeLoop opts trees x.1 (x.2 % 2 ^ 64)) r.startState

end SetRound

omit [DecidableEq β] in
/-- What the visit returns besides the tree has no influence on the search. -/
theorem findLoopTreeSet_map {σ τ : Type*} {setID : Nat} (f : τ → σ)
    (visit : Option (LoopData β) → LoopData β → Forest (LoopData β) → Forest (LoopData β) × σ)
    (visit' : Option (LoopData β) → LoopData β → Forest (LoopData β) → Forest (LoopData β) × τ)
    (hvisit : ∀ p d ch, visit p d ch = Prod.map id f (visit' p d ch)) (parent : Option (LoopData β))
    (t : Forest (LoopData β)) :
    findLoopTreeSet setID visit parent t = (findLoopTreeSet setID visit' parent t).map (Prod.map id f) := by
  induction t generalizing parent with
  | nil => rfl
  | node d ch sib ihc ihs =>
    unfold findLoopTreeSet
    by_cases hd : d.setColor = setID
    · simp [hd, hvisit]
    · simp only [hd, if_false, ihc (some d), ihs parent]
      cases findLoopTreeSet setID visit' (some d) ch <;> simp [Function.comp_def]

/-- Without the list of its rounds the loop is the loop of the pass. -/
theorem map_snd_sfLoopSetRounds (opts : PassOptions) (trees : DominatorTrees β) (fuel j n : Nat)
    (t : Forest (LoopData β)) (s : RegionState β) :
    (sfLoopSetRounds opts trees fuel j n t s).map Prod.snd = instrumentSFLoopSets opts trees fuel j n t s := by
  induction fuel generalizing j n t s with
  | zero =>
    unfold sfLoopSetRounds instrumentSFLoopSets
    split <;> rfl
  | succ fuel ih =>
    unfold sfLoopSetRounds instrumentSFLoopSets
    by_cases hjn : j < n
    · rw [if_pos hjn, if_pos hjn, findLoopTreeSet_map Prod.fst (instrumentSet opts trees j n s)
        (fun p d ch =>
          ((instrumentSet opts trees j n s p d ch).1, (instrumentSet opts trees j n s p d ch).2, p, d, ch))
        (fun p d ch => rfl)]
      cases hfind : findLoopTreeSet j (fun p d ch => ((instrumentSet opts trees j n s p d ch).1,
          (instrumentSet opts trees j n s p d ch).2, p, d, ch)) none t with
      | none => simp
      | some out => simp [← ih, Function.comp_def]
    · rw [if_neg hjn, if_neg hjn]
      rfl

omit [DecidableEq β] in
theorem ReplacedAt.hasSubtree {id : Nat} {p parent : Option (LoopData β)} {d : LoopData β}
    {ch new t t' : Forest (LoopData β)} (h : ReplacedAt id p d ch new parent t t') : Forest.HasSubtree d ch t := by
  induction h with
  | here sib => exact .here sib
  | child sib _ _ ih => exact .child _ sib ih
  | sibling xch _ _ ih => exact .sibling _ xch ih

omit [DecidableEq β] in
/-- The replaced node and what hangs on it, between the nodes in front and those behind, none of which
is in the set. -/
theorem ReplacedAt.exists_nodes {j : Nat} (hj : j ≠ 0) {p parent : Option (LoopData β)} {d : LoopData β}
    {ch new t t' : Forest (LoopData β)} (h : ReplacedAt j p d ch new parent t t') (hd : d.setColor = j)
    (hparent : parentColor parent ≠ j) (hnodup : (topColors (parentColor parent) t).Nodup) :
    ∃ l r, t.nodes = l ++ (d :: ch.nodes) ++ r ∧ t'.nodes = l ++ new.nodes ++ r ∧
      ∀ x ∈ l ++ r, x.setColor ≠ j := by
  induction h with
  | here sib =>
    refine ⟨[], sib.nodes, by simp, by simp, fun x hx hcolor => ?_⟩
    have hsib := mem_topColors_of_node hj hparent (by simpa using hx) hcolor
    simp only [topColors, hd, ne_eq, hj, hparent.symm, not_false_eq_true, and_self, if_true] at hnodup
    exact (List.nodup_append'.mp hnodup).2.2 (List.mem_singleton_self j) (List.mem_append_right _ hsib)
  | @child parent x t t' sib hx0 hrep ih =>
    have hmem : j ∈ topColors x.setColor t :=
      mem_topColors_of_node hj hx0 (Forest.mem_nodes_of_mem_parentPairs hrep.parentPairs_mem) hd
    obtain ⟨-, hnodup', -⟩ := List.nodup_append'.mp hnodup
    obtain ⟨hnodupt, -, hdisj⟩ := List.nodup_append'.mp hnodup'
    obtain ⟨l, r, ht, ht', hout⟩ := ih hx0 hnodupt
    refine ⟨x :: l, r ++ sib.nodes, by simp [ht], by simp [ht'], fun y hy hcolor => ?_⟩
    simp only [List.cons_append, List.mem_cons, List.mem_append] at hy
    rcases hy with rfl | hy | hy | hy
    · exact hx0 hcolor
    · exact hout y (List.mem_append_left r hy) hcolor
    · exact hout y (List.mem_append_right l hy) hcolor
    · exact hdisj hmem (mem_topColors_of_node hj hparent hy hcolor)
  | @sibling parent x t t' xch hx0 hrep ih =>
    have hmem : j ∈ topColors (parentColor parent) t :=
      mem_topColors_of_node hj hparent (Forest.mem_nodes_of_mem_parentPairs hrep.parentPairs_mem) hd
    obtain ⟨-, hnodup', -⟩ := List.nodup_append'.mp hnodup
    obtain ⟨-, hnodupt, hdisj⟩ := List.nodup_append'.mp hnodup'
    obtain ⟨l, r, ht, ht', hout⟩ := ih hparent hnodupt
    refine ⟨x :: (xch.nodes ++ l), r, by simp [ht], by simp [ht'], fun y hy hcolor => ?_⟩
    simp only [List.cons_append, List.mem_cons, List.mem_append] at hy
    rcases hy with rfl | (hy | hy) | hy
    · exact hx0 hcolor
    · exact hdisj (mem_topColors_of_node hj hx0 hy hcolor) hmem
    · exact hout y (List.mem_append_left r hy) hcolor
    · exact hout y (List.mem_append_right l hy) hcolor

/-- The loops that earlier sets have taken: a color from 1 to `j - 1`. -/
def earlier (j : Nat) (d : LoopData β) : Bool := 0 < d.setColor && d.setColor < j

omit [DecidableEq β] in
/-- After the round of set `j` its loops are among the earlier ones. -/
theorem filter_earlier_succ_perm {j : Nat} (hj : 0 < j) (ds : List (LoopData β)) :
    (ds.filter (earlier (j + 1))).Perm (ds.filter (earlier j) ++ ds.filter fun d => d.setColor = j) := by
  have hsplit := List.filter_append_perm (fun d : LoopData β => d.setColor < j) (ds.filter (earlier (j + 1)))
  rw [List.filter_filter, List.filter_filter] at hsplit
  refine hsplit.symm.trans (List.Perm.of_eq (congrArg₂ _ (List.filter_congr fun d _ => ?_)
    (List.filter_congr fun d _ => ?_)))
  · unfold earlier
    rw [Bool.eq_iff_iff]
    simp only [Bool.and_eq_true, decide_eq_true_eq]
    omega
  · unfold earlier
    rw [Bool.eq_iff_iff]
    simp only [Bool.and_eq_true, Bool.not_eq_true', decide_eq_true_eq, decide_eq_false_iff_not]
    omega

/-- One round: it is sound, and the earlier loops after it are those before it and the ones it takes. -/
theorem SetRound.sound_of_replacedAt (opts : PassOptions) (trees : DominatorTrees β) (tree : Forest (LoopData β))
    {r : SetRound β} (hsize : r.top.scaleFactor < 2 ^ 64)
    (hT : r.before.map LoopData.uncolored = tree.map LoopData.uncolored) (hnum : SetNumbers r.loopSFSet r.before)
    (hj : 0 < r.id) (hjn : r.id < r.loopSFSet) (hd : r.top.setColor = r.id)
    (hrep : ReplacedAt r.id r.parent r.top r.children
      (instrumentSet opts trees r.id r.loopSFSet r.start r.parent r.top r.children).1 none r.before r.after) :
    r.Sound opts trees tree ∧
      (r.after.nodes.filter (earlier (r.id + 1))).Perm
        (r.before.nodes.filter (earlier r.id) ++ (r.taken trees).nodes) := by
  obtain ⟨j, n, s, t, t', p, d, ch⟩ := r
  dsimp only at hsize hT hnum hj hjn hd hrep ⊢
  have hj0 : j ≠ 0 := by omega
  have hnodup : (topColors 0 t).Nodup := hnum.tops.nodup_iff.mpr List.nodup_range'
  have hp : parentColor p ≠ j := hrep.parentColor_ne hj0.symm
  have hno : j ∉ topColors j ch := hrep.not_mem_topColors hj0 hd hj0.symm hnodup
  obtain ⟨l, r, ht, ht', hout⟩ := hrep.exists_nodes hj0 hd hj0.symm hnodup
  have hl : l.filter (fun x => x.setColor = j) = [] :=
    List.filter_eq_nil_iff.mpr fun x hx => by simpa using hout x (List.mem_append_left r hx)
  have hr : r.filter (fun x => x.setColor = j) = [] :=
    List.filter_eq_nil_iff.mpr fun x hx => by simpa using hout x (List.mem_append_right l hx)
  have htaken : takenPart trees j p (.node d ch .nil) = .node d (takenPart trees j (some d) ch) .nil :=
    takenPart_top hp hd
  -- the tree at the top after the round
  have hnew : (instrumentSet opts trees j n s p d ch).1 =
    .node d (instrumentSFLoopSet opts trees j (some d) d.scaleFactor
      ch (SetState.takeLoop opts trees d d.scaleFactor ⟨s.pragmaBlocks, n, [], s.counters⟩)).1 .nil := by
    unfold instrumentSet
    rw [instrumentSFLoopSet_top opts trees 1 ch ⟨s.pragmaBlocks, n, [], s.counters⟩ hp hd]
  have hcolor := ofColor_instrumentSFLoopSet opts trees hj0 hd d.scaleFactor
    (SetState.takeLoop opts trees d d.scaleFactor ⟨s.pragmaBlocks, n, [], s.counters⟩) hjn hno
  have hafter : ofColor j t' = (takenPart trees j p (.node d ch .nil)).nodes := by
    unfold ofColor at hcolor ⊢
    rw [ht', hnew, htaken, List.filter_append, List.filter_append, hl, hr]
    simp [hd, hcolor]
  refine ⟨⟨hT, ?_, ?_, hafter, ?_⟩, ?_⟩
  · refine ⟨.node d (linkedPart j ch) .nil, ⟨d, _, ch, rfl, pruned_linkedPart j ch, hrep.hasSubtree⟩, ?_⟩
    have hch := ofColor_eq_linkedPart hj0 hno
    unfold ofColor at hch ⊢
    dsimp only
    rw [ht, List.filter_append, List.filter_append, hl, hr]
    simp [hd, hch]
  · exact ⟨d, _, ch, htaken, pruned_takenPart trees j (some d) ch, hrep.hasSubtree⟩
  · unfold SetRound.endState SetRound.taken SetRound.startState
    dsimp only
    have hmod : d.scaleFactor % 2 ^ 64 = d.scaleFactor := Nat.mod_eq_of_lt hsize
    have hfold := takeLoop_instrumentSFLoopSet opts trees hd d.scaleFactor ch
      (SetState.takeLoop opts trees d d.scaleFactor ⟨s.pragmaBlocks, n, [], s.counters⟩) n
    rw [hmod] at hfold
    rw [instrumentSFLoopSet_top opts trees 1 ch ⟨s.pragmaBlocks, n, [], s.counters⟩ hp hd, htaken]
    dsimp only
    rw [hfold, Forest.pathProducts, Forest.pathProducts, List.append_nil, List.foldl_cons, Nat.one_mul, hmod]
    rfl
  · have hkeep : t'.nodes.filter (earlier j) = t.nodes.filter (earlier j) := by
      have hfilter := filter_instrumentSFLoopSet (q := earlier j) opts trees (n := n)
        (fun x hx => by simp [earlier, hx])
        (fun x hx => by simp only [earlier, Bool.and_eq_false_iff, decide_eq_false_iff_not]; omega)
          hd d.scaleFactor ch
        (SetState.takeLoop opts trees d d.scaleFactor ⟨s.pragmaBlocks, n, [], s.counters⟩) (Nat.le_refl n)
      rw [ht, ht', hnew]
      simp [List.filter_cons, hfilter]
    have hsucc := filter_earlier_succ_perm hj t'.nodes
    rw [hkeep] at hsucc
    unfold ofColor at hafter
    rw [hafter] at hsucc
    exact hsucc

omit [DecidableEq β] in
/-- When the bound is reached all loops with a scale factor are among the earlier ones. -/
theorem filter_earlier_of_le {n j : Nat} {t : Forest (LoopData β)} (hnum : SetNumbers n t) (hnj : n ≤ j) :
    t.nodes.filter (earlier j) = t.nodes.filter fun d => d.scaleFactor ≠ 0 := by
  refine List.filter_congr fun d hd => ?_
  have hbelow := hnum.below d hd
  have hzero := hnum.colorZero d hd
  unfold earlier
  rw [Bool.eq_iff_iff]
  simp only [Bool.and_eq_true, decide_eq_true_eq, ne_eq]
  omega

omit [DecidableEq β] in
/-- The loops with a scale factor, as nodes of any coloring of the tree. -/
theorem map_uncolored_filter_scaleFactor {t tree : Forest (LoopData β)}
    (hT : t.map LoopData.uncolored = tree.map LoopData.uncolored) :
    (t.nodes.filter fun d => d.scaleFactor ≠ 0).map LoopData.uncolored =
      (tree.nodes.filter fun d => d.scaleFactor ≠ 0).map LoopData.uncolored := by
  have hnodes : t.nodes.map LoopData.uncolored = tree.nodes.map LoopData.uncolored := by
    rw [← Forest.nodes_map, hT, Forest.nodes_map]
  have hfilter := congrArg (List.filter fun d : LoopData β => d.scaleFactor ≠ 0) hnodes
  rw [List.filter_map, List.filter_map] at hfilter
  exact hfilter

/-- The rounds from set `j` on: each is sound, they have the numbers from `j` on, and they take the loops that earlier
rounds have not. -/
theorem exists_rounds_from (opts : PassOptions) (trees : DominatorTrees β) {tree : Forest (LoopData β)}
    (hsize : ∀ d ∈ tree.nodes, d.scaleFactor < 2 ^ 64) (fuel j n : Nat) (t : Forest (LoopData β)) (s : RegionState β)
    (hT : t.map LoopData.uncolored = tree.map LoopData.uncolored) (hnum : SetNumbers n t) (hj : 0 < j)
    (hfuel : t.nodes.length < fuel + j) :
    ∃ rounds out, sfLoopSetRounds opts trees fuel j n t s = some (rounds, out) ∧
      rounds.map SetRound.id = List.range' j rounds.length ∧ (∀ r ∈ rounds, r.Sound opts trees tree) ∧
      (((t.nodes.filter (earlier j)) ++ rounds.flatMap fun r => (r.taken trees).nodes).map LoopData.uncolored).Perm
        ((tree.nodes.filter fun d => d.scaleFactor ≠ 0).map LoopData.uncolored) := by
  induction fuel generalizing j n t s with
  | zero =>
    have hle := hnum.le_length
    have hstop : ¬ j < n := by omega
    refine ⟨[], (t, s), by simp [sfLoopSetRounds, hstop], rfl, by simp, ?_⟩
    rw [List.flatMap_nil, List.append_nil, ← map_uncolored_filter_scaleFactor hT]
    exact List.Perm.of_eq (congrArg _ (filter_earlier_of_le hnum (by omega)))
  | succ fuel ih =>
    by_cases hjn : j < n
    · obtain ⟨p, d, ch, t', hfind, hd, hrep⟩ := exists_findLoopTreeSet (fun p d ch =>
        ((instrumentSet opts trees j n s p d ch).1, (instrumentSet opts trees j n s p d ch).2, p, d, ch)) none
        (hnum.exists_node hj hjn)
      dsimp only at hfind hrep
      obtain ⟨hnum', hun⟩ := hnum.instrumentSet opts trees hj hjn hrep
      have hdsize : d.scaleFactor < 2 ^ 64 := by
        have hmem : d ∈ t.nodes := hrep.nodes_subset (by simp)
        obtain ⟨e, he, heq⟩ := exists_node_uncolored hT hmem
        have hsf : e.scaleFactor = d.scaleFactor := by simpa using congrArg LoopData.scaleFactor heq
        exact hsf ▸ hsize e he
      obtain ⟨hsound, hperm⟩ := SetRound.sound_of_replacedAt opts trees tree
        (r := ⟨j, n, s, t, t', p, d, ch⟩) hdsize hT hnum hj hjn hd hrep
      have hlen := length_nodes_eq hun
      obtain ⟨rounds, out, hrun, hids, hall, hrest⟩ := ih (j + 1) _ t' (instrumentSet opts trees j n s p d ch).2.2
        (hun.trans hT) hnum' (by omega) (by omega)
      refine ⟨⟨j, n, s, t, t', p, d, ch⟩ :: rounds, out, ?_, ?_, ?_, ?_⟩
      · simp [sfLoopSetRounds, hjn, hfind, hrun]
      · simp [hids, List.range'_succ]
      · intro r hr
        rcases List.mem_cons.mp hr with rfl | hr
        · exact hsound
        · exact hall r hr
      · rw [List.flatMap_cons, ← List.append_assoc]
        exact ((hperm.symm.append_right _).map _).trans hrest
    · refine ⟨[], (t, s), by simp [sfLoopSetRounds, hjn], rfl, by simp, ?_⟩
      rw [List.flatMap_nil, List.append_nil, ← map_uncolored_filter_scaleFactor hT]
      exact List.Perm.of_eq (congrArg _ (filter_earlier_of_le hnum (by omega)))

/-- The loop over the sets of a region, for every loop tree and every answer of the dominator trees: it ends, every
round finds its set, the rounds are sound and take every loop with a scale factor once and no other, and there are at
most as many rounds as such loops. -/
theorem exists_sfLoopSetRounds (opts : PassOptions) (trees : DominatorTrees β) (tree : Forest (LoopData β))
    (hsize : ∀ d ∈ tree.nodes, d.scaleFactor < 2 ^ 64) (s : RegionState β) :
    ∃ rounds out,
      sfLoopSetRounds opts trees (colorLoopTreeSF 0 1 tree).1.nodes.length 1 (colorLoopTreeSF 0 1 tree).2
        (colorLoopTreeSF 0 1 tree).1 s = some (rounds, out) ∧
      instrumentSFLoopSets opts trees (colorLoopTreeSF 0 1 tree).1.nodes.length 1 (colorLoopTreeSF 0 1 tree).2
        (colorLoopTreeSF 0 1 tree).1 s = some out ∧
      rounds.map SetRound.id = List.range' 1 rounds.length ∧
      rounds.length ≤ (tree.nodes.filter fun d => d.scaleFactor ≠ 0).length ∧
      (∀ r ∈ rounds, r.Sound opts trees tree) ∧
      ((rounds.flatMap fun r => (r.taken trees).nodes).map LoopData.uncolored).Perm
        ((tree.nodes.filter fun d => d.scaleFactor ≠ 0).map LoopData.uncolored) := by
  obtain ⟨rounds, out, hrun, hids, hsound, hperm⟩ := exists_rounds_from opts trees hsize
    (colorLoopTreeSF 0 1 tree).1.nodes.length 1 (colorLoopTreeSF 0 1 tree).2 (colorLoopTreeSF 0 1 tree).1 s
    (map_uncolored_colorLoopTreeSF 0 1 tree) (.colorLoopTreeSF tree) Nat.one_pos (by omega)
  have hnone : ((colorLoopTreeSF 0 1 tree).1.nodes.filter (earlier 1)) = [] := by
    refine List.filter_eq_nil_iff.mpr fun d _ => ?_
    simp only [earlier, Bool.and_eq_true, decide_eq_true_eq]
    omega
  rw [hnone, List.nil_append] at hperm
  refine ⟨rounds, out, hrun, ?_, hids, ?_, hsound, hperm⟩
  · rw [← map_snd_sfLoopSetRounds, hrun]
    rfl
  · -- each round takes at least its top loop
    have hlen := hperm.length_eq
    rw [List.length_map, List.length_map] at hlen
    rw [← hlen]
    have hone : ∀ l : List (SetRound β), (∀ r ∈ l, r.Sound opts trees tree) →
        l.length ≤ (l.flatMap fun r => (r.taken trees).nodes).length := by
      intro l hl
      induction l with
      | nil => simp
      | cons r l ih =>
        have hpos := List.length_pos_iff.mpr (hl r List.mem_cons_self).taken_connected.nodes_ne_nil
        have hrest := ih fun r hr => hl r (List.mem_cons_of_mem _ hr)
        rw [List.flatMap_cons, List.length_append, List.length_cons]
        omega
    exact hone rounds hsound

/-! ### Wrapping factors -/

/-- Dominator trees for which every header post-dominates every other. -/
def allPostDominate (β : Type*) : DominatorTrees β where
  dominates _ _ := false
  postDominates _ _ := true

/-- Two loops of `2 ^ 32` iterations, one inside the other. -/
def wrappingLoops : Forest (LoopData Nat) :=
  .node { loop := ⟨0, [0, 1]⟩, subLoops := [⟨1, [1]⟩], scaleFactor := 2 ^ 32 }
    (.node { loop := ⟨1, [1]⟩, subLoops := [], scaleFactor := 2 ^ 32 } .nil .nil) .nil

/-- The loop over their sets ends; there are at most two. -/
theorem exists_sfLoopSetRounds_wrappingLoops :
    ∃ rounds out, sfLoopSetRounds {} (allPostDominate Nat) (colorLoopTreeSF 0 1 wrappingLoops).1.nodes.length 1
      (colorLoopTreeSF 0 1 wrappingLoops).2 (colorLoopTreeSF 0 1 wrappingLoops).1 ⟨[0, 1], []⟩ = some (rounds, out) ∧
      rounds.length ≤ 2 := by
  obtain ⟨rounds, out, hrun, -, -, hlen, -⟩ := exists_sfLoopSetRounds {} (allPostDominate Nat) wrappingLoops
    (by decide) ⟨[0, 1], []⟩
  exact ⟨rounds, out, hrun, hlen⟩

/-- They are one set; the product down to the inner loop is `2 ^ 64`, and the loop is taken with factor 0. -/
theorem factors_wrappingLoops :
    (instrumentSFLoopSets {} (allPostDominate Nat) (colorLoopTreeSF 0 1 wrappingLoops).1.nodes.length 1
      (colorLoopTreeSF 0 1 wrappingLoops).2 (colorLoopTreeSF 0 1 wrappingLoops).1 ⟨[0, 1], []⟩).map
        (fun out => out.2.counters) = some [.scaleFactorSet 0 [([0], 2 ^ 32), ([1], 0)]] ∧
      (wrappingLoops.pathProducts LoopData.scaleFactor 1).map Prod.snd = [2 ^ 32, 2 ^ 64] := by
  decide

end ZRay.Pass
