import Mathlib
import ZRay.Forest

/-!
# The loop tree and its scale-factor sets

`createLoopTree` keeps the loops of `LoopInfo` whose header lies in the region's bounds, with the trip count scalar
evolution gives for them; `colorLoopTreeSF` and `recolorSFLoopSet` number the sets of loops that share one hoisted
counter.  `topColors` reads the numbers off the top nodes of the sets.  The key fact about the numbering: every set
has one top node, so that the tops carry each number once (`topColors_colorLoopTreeSF`, `topColors_recolorSFLoopSet`).
-/

namespace ZRay.Pass

variable {β : Type*}

/-! ### Loops and trip counts -/

/-- A natural loop of `LoopInfo`: its header and all its blocks, those of its subloops included. -/
structure Loop (β : Type*) where
  header : β
  blocks : List β
  deriving DecidableEq, Repr

/-- What the pass makes of the answer of `getBackedgeTakenCount(L, Exact)`: nothing, a constant, or
an expression, with the answer of `isLoopInvariant`.  A constant is the number its printed text is
read back as (`BackedgeTaken.asRead`). -/
inductive BackedgeTakenCount where
  | couldNotCompute
  | constant (n : Nat)
  | expression (loopInvariant : Bool)
  deriving DecidableEq, Repr

/-- `scCouldNotCompute` excluded and `isLoopInvariant` (a constant is). -/
def BackedgeTakenCount.isHoistable : BackedgeTakenCount → Bool
  | .couldNotCompute => false
  | .constant _ => true
  | .expression loopInvariant => loopInvariant

/-- `getLoopTripCount`: the number read back plus one when the count is a constant, else the initial 0.  Printing and
reading are `ScalarEvolution.getLoopTripCount`. -/
def getLoopTripCount : BackedgeTakenCount → Nat
  | .couldNotCompute => 0
  | .constant n => n + 1
  | .expression _ => 0

/-- `LoopData`, with the direct subloops the source reads through the loop pointer. -/
structure LoopData (β : Type*) where
  loop : Loop β
  subLoops : List (Loop β)
  setColor : Nat := 0
  scaleFactor : Nat := 0
  deriving DecidableEq, Repr

/-- `_createLoopTree`: a loop outside the bounds gets no node, and its subloops go to the enclosing node. -/
def createLoopTree (inBounds : β → Bool) (backedgeTakenCount : β → BackedgeTakenCount) :
    Forest (Loop β) → Forest (LoopData β)
  | .nil => .nil
  | .node L subs rest =>
    let children := createLoopTree inBounds backedgeTakenCount subs
    let siblings := createLoopTree inBounds backedgeTakenCount rest
    if inBounds L.header then
      .node { loop := L, subLoops := subs.roots, scaleFactor := getLoopTripCount (backedgeTakenCount L.header) }
        children siblings
    else children.append siblings

/-- The blocks of the loop that are in no subloop. -/
def getUniqueLoopBB [DecidableEq β] (d : LoopData β) : List β :=
  d.loop.blocks.filter fun bb => !d.subLoops.any fun sub => decide (bb ∈ sub.blocks)

/-- What `LoopInfo` promises of its loops: a loop's subloops lie inside it and leave out its header, and loops beside
each other are disjoint. -/
def LoopsWellFormed : Forest (Loop β) → Prop
  | .nil => True
  | .node L subs rest =>
    L.blocks.Nodup ∧ L.header ∈ L.blocks ∧ (∀ S ∈ subs.roots, S.blocks ⊆ L.blocks ∧ L.header ∉ S.blocks) ∧
      (∀ M ∈ rest.roots, L.blocks.Disjoint M.blocks) ∧ LoopsWellFormed subs ∧ LoopsWellFormed rest

/-- Every loop lies in one of the topmost loops. -/
theorem exists_root_of_mem_nodes {f : Forest (Loop β)} (hwf : LoopsWellFormed f) {L : Loop β} (hL : L ∈ f.nodes) :
    ∃ R ∈ f.roots, L.blocks ⊆ R.blocks := by
  induction f with
  | nil => simp at hL
  | node M subs rest ihs ihr =>
    obtain ⟨-, -, hsub, -, hwfs, hwfr⟩ := hwf
    simp only [Forest.nodes_node, List.mem_cons, List.mem_append] at hL
    rcases hL with rfl | hL | hL
    · exact ⟨L, by simp, fun x hx => hx⟩
    · obtain ⟨S, hS, hsubset⟩ := ihs hwfs hL
      exact ⟨M, by simp, fun x hx => (hsub S hS).1 (hsubset hx)⟩
    · obtain ⟨R, hR, hsubset⟩ := ihr hwfr hL
      exact ⟨R, by simp [hR], hsubset⟩

theorem LoopsWellFormed.header_mem {f : Forest (Loop β)} (hwf : LoopsWellFormed f) {L : Loop β} (hL : L ∈ f.nodes) :
    L.header ∈ L.blocks := by
  induction f with
  | nil => simp at hL
  | node M subs rest ihs ihr =>
    obtain ⟨-, hheader, -, -, hwfs, hwfr⟩ := hwf
    simp only [Forest.nodes_node, List.mem_cons, List.mem_append] at hL
    rcases hL with rfl | hL | hL
    · exact hheader
    · exact ihs hwfs hL
    · exact ihr hwfr hL

/-- A block is the header of one loop at most. -/
theorem LoopsWellFormed.eq_of_header_eq {f : Forest (Loop β)} (hwf : LoopsWellFormed f) {L M : Loop β}
    (hL : L ∈ f.nodes) (hM : M ∈ f.nodes) (h : L.header = M.header) : L = M := by
  induction f with
  | nil => simp at hL
  | node N subs rest ihs ihr =>
    obtain ⟨-, hheader, hsub, hdisj, hwfs, hwfr⟩ := hwf
    -- the loops below `N` leave its header out, and those beside it are disjoint from it
    have hbelow : ∀ K ∈ subs.nodes, K.header ∈ N.blocks ∧ K.header ≠ N.header := by
      intro K hK
      obtain ⟨S, hS, hsubset⟩ := exists_root_of_mem_nodes hwfs hK
      have hmem : K.header ∈ S.blocks := hsubset (hwfs.header_mem hK)
      exact ⟨(hsub S hS).1 hmem, fun heq => (hsub S hS).2 (heq ▸ hmem)⟩
    have hbeside : ∀ K ∈ rest.nodes, K.header ∉ N.blocks := by
      intro K hK hmem
      obtain ⟨R, hR, hsubset⟩ := exists_root_of_mem_nodes hwfr hK
      exact hdisj R hR hmem (hsubset (hwfr.header_mem hK))
    simp only [Forest.nodes_node, List.mem_cons, List.mem_append] at hL hM
    rcases hL with rfl | hL | hL <;> rcases hM with rfl | hM | hM
    · rfl
    · exact absurd h.symm (hbelow M hM).2
    · exact absurd (h ▸ hheader) (hbeside M hM)
    · exact absurd h (hbelow L hL).2
    · exact ihs hwfs hL hM
    · exact absurd (h ▸ (hbelow L hL).1) (hbeside M hM)
    · exact absurd (h ▸ hheader) (hbeside L hL)
    · exact absurd (h ▸ (hbelow M hM).1) (hbeside L hL)
    · exact ihr hwfr hL hM

section createLoopTree

variable {inBounds : β → Bool} {counts : β → BackedgeTakenCount}

/-- The nodes of the tree are the loops whose header is in the bounds. -/
theorem map_loop_createLoopTree (f : Forest (Loop β)) :
    (createLoopTree inBounds counts f).nodes.map LoopData.loop = f.nodes.filter fun L => inBounds L.header := by
  induction f with
  | nil => rfl
  | node L subs rest ihs ihr =>
    simp only [createLoopTree, Forest.nodes_node]
    split
    · rename_i hbounds
      simp [hbounds, ihs, ihr]
    · rename_i hbounds
      simp [hbounds, ihs, ihr]

theorem mem_loops_createLoopTree {f : Forest (Loop β)} {L : Loop β} :
    (∃ d ∈ (createLoopTree inBounds counts f).nodes, d.loop = L) ↔ L ∈ f.nodes ∧ inBounds L.header = true := by
  rw [← List.mem_map, map_loop_createLoopTree, List.mem_filter]

/-- Bounds that agree on the headers give the same tree. -/
theorem createLoopTree_congr {inBounds' : β → Bool} {f : Forest (Loop β)}
    (h : ∀ L ∈ f.nodes, inBounds L.header = inBounds' L.header) :
    createLoopTree inBounds counts f = createLoopTree inBounds' counts f := by
  induction f with
  | nil => rfl
  | node L subs rest ihs ihr =>
    have hs := ihs fun M hM => h M (by simp [hM])
    have hr := ihr fun M hM => h M (by simp [hM])
    simp only [createLoopTree, hs, hr, h L (by simp)]

/-- Every node of the tree is a loop, with the trip count of its header. -/
theorem mem_createLoopTree {f : Forest (Loop β)} {d : LoopData β}
    (hd : d ∈ (createLoopTree inBounds counts f).nodes) :
    d.loop ∈ f.nodes ∧ d.scaleFactor = getLoopTripCount (counts d.loop.header) := by
  induction f with
  | nil => simp [createLoopTree] at hd
  | node L subs rest ihs ihr =>
    have hinside : d ∈ (createLoopTree inBounds counts subs).nodes ∨ d ∈ (createLoopTree inBounds counts rest).nodes →
        d.loop ∈ (Forest.node L subs rest).nodes ∧ d.scaleFactor = getLoopTripCount (counts d.loop.header) := by
      rintro (hd | hd)
      · exact ⟨by simp [(ihs hd).1], (ihs hd).2⟩
      · exact ⟨by simp [(ihr hd).1], (ihr hd).2⟩
    simp only [createLoopTree] at hd
    split at hd
    · simp only [Forest.nodes_node, List.mem_cons, List.mem_append] at hd
      rcases hd with rfl | hd
      · exact ⟨by simp, rfl⟩
      · exact hinside hd
    · rw [Forest.nodes_append, List.mem_append] at hd
      exact hinside hd

/-- A child of the tree lies in its parent and leaves out the parent's header. -/
theorem inside_of_mem_parentPairs_createLoopTree {f : Forest (Loop β)} (hwf : LoopsWellFormed f)
    {parent : Option (LoopData β)} {p d : LoopData β}
    (hpd : (some p, d) ∈ (createLoopTree inBounds counts f).parentPairs parent) :
    (d.loop.blocks ⊆ p.loop.blocks ∧ p.loop.header ∉ d.loop.blocks) ∨
      (parent = some p ∧ ∃ R ∈ f.roots, d.loop.blocks ⊆ R.blocks) := by
  induction f generalizing parent with
  | nil => simp [createLoopTree, Forest.parentPairs] at hpd
  | node L subs rest ihs ihr =>
    obtain ⟨-, -, hsub, -, hwfs, hwfr⟩ := hwf
    have hrest : (some p, d) ∈ (createLoopTree inBounds counts rest).parentPairs parent →
        (d.loop.blocks ⊆ p.loop.blocks ∧ p.loop.header ∉ d.loop.blocks) ∨
          (parent = some p ∧ ∃ R ∈ (Forest.node L subs rest).roots, d.loop.blocks ⊆ R.blocks) := by
      intro hmem
      rcases ihr hwfr hmem with h | ⟨hp, R, hR, hsubset⟩
      · exact .inl h
      · exact .inr ⟨hp, R, by simp [hR], hsubset⟩
    simp only [createLoopTree] at hpd
    split at hpd
    · simp only [Forest.parentPairs, List.mem_cons, List.mem_append, Prod.mk.injEq] at hpd
      rcases hpd with ⟨hp, rfl⟩ | hpd | hpd
      · exact .inr ⟨hp.symm, L, by simp, fun x hx => hx⟩
      · rcases ihs hwfs hpd with h | ⟨hp, R, hR, hsubset⟩
        · exact .inl h
        · -- a child of the node for `L`
          rw [Option.some.injEq] at hp
          subst hp
          exact .inl ⟨fun x hx => (hsub R hR).1 (hsubset hx), fun hh => (hsub R hR).2 (hsubset hh)⟩
      · exact hrest hpd
    · rw [Forest.parentPairs_append, List.mem_append] at hpd
      rcases hpd with hpd | hpd
      · rcases ihs hwfs hpd with h | ⟨hp, R, hR, hsubset⟩
        · exact .inl h
        · exact .inr ⟨hp, L, by simp, fun x hx => (hsub R hR).1 (hsubset hx)⟩
      · exact hrest hpd

end createLoopTree

section getUniqueLoopBB

variable [DecidableEq β] {inBounds : β → Bool} {counts : β → BackedgeTakenCount}

theorem mem_getUniqueLoopBB {d : LoopData β} {bb : β} :
    bb ∈ getUniqueLoopBB d ↔ bb ∈ d.loop.blocks ∧ ∀ sub ∈ d.subLoops, bb ∉ sub.blocks := by
  unfold getUniqueLoopBB
  rw [List.mem_filter]
  simp

/-- A block is directly in one loop of the list only. -/
theorem eq_of_mem_uniqueLoopBB {ds : List (LoopData β)}
    (hnodup : (ds.flatMap getUniqueLoopBB).Nodup) {d e : LoopData β} (hd : d ∈ ds) (he : e ∈ ds) {x : β}
    (hxd : x ∈ getUniqueLoopBB d) (hxe : x ∈ getUniqueLoopBB e) : d = e := by
  by_contra hne
  have hpair := (List.nodup_flatMap.mp hnodup).2
  have hsymm : Std.Symm (Function.onFun List.Disjoint (getUniqueLoopBB : LoopData β → List β)) :=
    ⟨fun _ _ h x hx hy => h hy hx⟩
  exact hpair.forall hd he hne hxd hxe

/-- The blocks directly in a loop of the tree lie in one of the topmost loops. -/
theorem exists_root_of_mem_createLoopTree {f : Forest (Loop β)} (hwf : LoopsWellFormed f) {d : LoopData β}
    (hd : d ∈ (createLoopTree inBounds counts f).nodes) :
    ∃ R ∈ f.roots, ∀ bb ∈ getUniqueLoopBB d, bb ∈ R.blocks := by
  induction f with
  | nil => simp [createLoopTree] at hd
  | node L subs rest ihs ihr =>
    obtain ⟨-, -, hsub, -, hwfs, hwfr⟩ := hwf
    have hcases : (d.loop = L) ∨ d ∈ (createLoopTree inBounds counts subs).nodes ∨
        d ∈ (createLoopTree inBounds counts rest).nodes := by
      simp only [createLoopTree] at hd
      split at hd
      · simp only [Forest.nodes_node, List.mem_cons, List.mem_append] at hd
        rcases hd with rfl | hd | hd
        · exact .inl rfl
        · exact .inr (.inl hd)
        · exact .inr (.inr hd)
      · rw [Forest.nodes_append, List.mem_append] at hd
        exact .inr hd
    rcases hcases with heq | hd | hd
    · refine ⟨L, by simp, fun bb hbb => ?_⟩
      rw [← heq]
      exact (mem_getUniqueLoopBB.mp hbb).1
    · obtain ⟨S, hS, hsubset⟩ := ihs hwfs hd
      exact ⟨L, by simp, fun bb hbb => (hsub S hS).1 (hsubset bb hbb)⟩
    · obtain ⟨M, hM, hsubset⟩ := ihr hwfr hd
      exact ⟨M, by simp [hM], hsubset⟩

/-- No block is directly in two loops of the tree, and none twice. -/
theorem nodup_uniqueLoopBB {f : Forest (Loop β)} (hwf : LoopsWellFormed f) :
    ((createLoopTree inBounds counts f).nodes.flatMap getUniqueLoopBB).Nodup := by
  induction f with
  | nil => simp [createLoopTree]
  | node L subs rest ihs ihr =>
    obtain ⟨hnodup, -, hsub, hdisj, hwfs, hwfr⟩ := hwf
    have hrest : ∀ bb ∈ L.blocks, bb ∉ (createLoopTree inBounds counts rest).nodes.flatMap getUniqueLoopBB := by
      intro bb hbb hmem
      obtain ⟨d, hd, hbd⟩ := List.mem_flatMap.mp hmem
      obtain ⟨M, hM, hsubset⟩ := exists_root_of_mem_createLoopTree hwfr hd
      exact hdisj M hM hbb (hsubset bb hbd)
    have hinside : ∀ bb ∈ (createLoopTree inBounds counts subs).nodes.flatMap getUniqueLoopBB,
        ∃ S ∈ subs.roots, bb ∈ S.blocks := by
      intro bb hmem
      obtain ⟨d, hd, hbd⟩ := List.mem_flatMap.mp hmem
      obtain ⟨S, hS, hsubset⟩ := exists_root_of_mem_createLoopTree hwfs hd
      exact ⟨S, hS, hsubset bb hbd⟩
    have hboth : ((createLoopTree inBounds counts subs).nodes.flatMap getUniqueLoopBB ++
        (createLoopTree inBounds counts rest).nodes.flatMap getUniqueLoopBB).Nodup := by
      refine List.Nodup.append (ihs hwfs) (ihr hwfr) ?_
      intro bb hbs hbr
      obtain ⟨S, hS, hbS⟩ := hinside bb hbs
      exact hrest bb ((hsub S hS).1 hbS) hbr
    simp only [createLoopTree]
    split
    · simp only [Forest.nodes_node, List.flatMap_cons, List.flatMap_append]
      refine List.Nodup.append (List.Nodup.filter _ hnodup) hboth ?_
      intro bb hbd hbb
      obtain ⟨hbL, hbS⟩ := mem_getUniqueLoopBB.mp hbd
      rcases List.mem_append.mp hbb with hbb | hbb
      · obtain ⟨S, hS, hbS'⟩ := hinside bb hbb
        exact hbS S hS hbS'
      · exact hrest bb hbL hbb
    · simp only [Forest.nodes_append, List.flatMap_append]
      exact hboth

end getUniqueLoopBB

/-! ### Scale-factor sets -/

/-- `colorLoopTreeSF` below a node of color `parentColor` (the root's is 0), with the next free set number. -/
def colorLoopTreeSF (parentColor : Nat) : Nat → Forest (LoopData β) → Forest (LoopData β) × Nat
  | loopSFSet, .nil => (.nil, loopSFSet)
  | loopSFSet, .node d ch sib =>
    let (color, loopSFSet) :=
      if d.scaleFactor = 0 then (0, loopSFSet)
      else if parentColor ≠ 0 then (parentColor, loopSFSet)
      else (loopSFSet, loopSFSet + 1)
    let (ch, loopSFSet) := colorLoopTreeSF color loopSFSet ch
    let (sib, loopSFSet) := colorLoopTreeSF parentColor loopSFSet sib
    (.node { d with setColor := color } ch sib, loopSFSet)

/-- `recolorSFLoopSet` on each of the nodes: the part of the set hanging on it gets the number `newID`. -/
def recolorSFLoopSet (oldID newID : Nat) : Forest (LoopData β) → Forest (LoopData β)
  | .nil => .nil
  | .node d ch sib =>
    if d.setColor ≠ oldID then .node d ch (recolorSFLoopSet oldID newID sib)
    else .node { d with setColor := newID } (recolorSFLoopSet oldID newID ch) (recolorSFLoopSet oldID newID sib)

/-- `findLoopTreeSet`: the first node of the set in preorder is replaced by what `visit` makes of it, its children
and its parent's data. -/
def findLoopTreeSet {σ : Type*} (id : Nat)
    (visit : Option (LoopData β) → LoopData β → Forest (LoopData β) → Forest (LoopData β) × σ) :
    Option (LoopData β) → Forest (LoopData β) → Option (Forest (LoopData β) × σ)
  | _, .nil => none
  | parent, .node d ch sib =>
    if d.setColor = id then
      let (node, out) := visit parent d ch
      some (node.append sib, out)
    else
      match findLoopTreeSet id visit (some d) ch with
      | some (ch, out) => some (.node d ch sib, out)
      | none => (findLoopTreeSet id visit parent sib).map fun (sib, out) => (.node d ch sib, out)

/-- The color of a parent; the root of the tree has color 0. -/
def parentColor (parent : Option (LoopData β)) : Nat := parent.elim 0 LoopData.setColor

@[simp] theorem parentColor_none : parentColor (none : Option (LoopData β)) = 0 := rfl

@[simp] theorem parentColor_some (d : LoopData β) : parentColor (some d) = d.setColor := rfl

/-- The numbers of the top nodes of the sets, in preorder. -/
def topColors (parentColor : Nat) : Forest (LoopData β) → List Nat
  | .nil => []
  | .node d ch sib =>
    (if d.setColor ≠ 0 ∧ d.setColor ≠ parentColor then [d.setColor] else []) ++
      (topColors d.setColor ch ++ topColors parentColor sib)

/-- All set numbers in the tree are below `bound`. -/
def ColorsBelow (bound : Nat) (t : Forest (LoopData β)) : Prop := ∀ d ∈ t.nodes, d.setColor < bound

theorem ColorsBelow.mono {m n : Nat} {t : Forest (LoopData β)} (h : ColorsBelow m t) (hmn : m ≤ n) :
    ColorsBelow n t := fun d hd => lt_of_lt_of_le (h d hd) hmn

theorem colorsBelow_node {n : Nat} {d : LoopData β} {ch sib : Forest (LoopData β)} :
    ColorsBelow n (.node d ch sib) ↔ d.setColor < n ∧ ColorsBelow n ch ∧ ColorsBelow n sib := by
  unfold ColorsBelow
  simp only [Forest.nodes_node, List.mem_cons, List.mem_append]
  constructor
  · intro h
    exact ⟨h d (.inl rfl), fun x hx => h x (.inr (.inl hx)), fun x hx => h x (.inr (.inr hx))⟩
  · rintro ⟨hd, hch, hsib⟩ x (rfl | hx | hx)
    · exact hd
    · exact hch x hx
    · exact hsib x hx

/-- Consecutive ranges join. -/
theorem range'_join {a b c : Nat} (hab : a ≤ b) (hbc : b ≤ c) :
    List.range' a (b - a) ++ List.range' b (c - b) = List.range' a (c - a) := by
  have happ := List.range'_append_1 (s := a) (m := b - a) (n := c - b)
  rw [show a + (b - a) = b by omega, show b - a + (c - b) = c - a by omega] at happ
  exact happ

theorem le_colorLoopTreeSF (pc n : Nat) (t : Forest (LoopData β)) : n ≤ (colorLoopTreeSF pc n t).2 := by
  induction t generalizing pc n with
  | nil => exact le_refl n
  | node d ch sib ihc ihs =>
    simp only [colorLoopTreeSF]
    refine le_trans ?_ (le_trans (ihc _ _) (ihs _ _))
    split
    · exact le_refl n
    · split
      · exact le_refl n
      · exact Nat.le_succ n

/-- The coloring numbers the tops of its sets consecutively from the first free number, and colors 0 exactly the
loops without a trip count. -/
theorem topColors_colorLoopTreeSF (pc n : Nat) (hn : 0 < n) (hpc : pc < n) (t : Forest (LoopData β)) :
    n ≤ (colorLoopTreeSF pc n t).2 ∧
      topColors pc (colorLoopTreeSF pc n t).1 = List.range' n ((colorLoopTreeSF pc n t).2 - n) ∧
      ColorsBelow (colorLoopTreeSF pc n t).2 (colorLoopTreeSF pc n t).1 := by
  induction t generalizing pc n with
  | nil => simp [colorLoopTreeSF, topColors, ColorsBelow]
  | node d ch sib ihc ihs =>
    -- the color of the node and the first number free below it
    obtain ⟨c, m, hcm, htop, hnm, hc⟩ : ∃ c m,
        (if d.scaleFactor = 0 then (0, n) else if pc ≠ 0 then (pc, n) else (n, n + 1)) = (c, m) ∧
        (if c ≠ 0 ∧ c ≠ pc then [c] else []) = List.range' n (m - n) ∧ n ≤ m ∧ c < m := by
      by_cases h0 : d.scaleFactor = 0
      · exact ⟨0, n, by simp [h0], by simp, le_refl n, hn⟩
      · by_cases hp : pc = 0
        · refine ⟨n, n + 1, by simp [h0, hp], ?_, by omega, by omega⟩
          rw [if_pos ⟨by omega, by omega⟩, Nat.add_sub_cancel_left]
          rfl
        · exact ⟨pc, n, by simp [h0, hp], by simp, le_refl n, hpc⟩
    simp only [colorLoopTreeSF, hcm]
    have hch := ihc c m (by omega) hc
    have hsib := ihs pc (colorLoopTreeSF c m ch).2 (by omega) (by omega)
    obtain ⟨hle1, htop1, hbelow1⟩ := hch
    obtain ⟨hle2, htop2, hbelow2⟩ := hsib
    refine ⟨by omega, ?_, ?_⟩
    · simp only [topColors]
      rw [htop, htop1, htop2, range'_join hle1 hle2, range'_join hnm (by omega)]
    · rw [colorsBelow_node]
      exact ⟨by dsimp only; omega, hbelow1.mono hle2, hbelow2⟩

/-- Renumbering the part of a set below a split moves no top except the split's own. -/
theorem topColors_recolorSFLoopSet {old new : Nat} {t : Forest (LoopData β)}
    (hbelow : ColorsBelow new t) : topColors new (recolorSFLoopSet old new t) = topColors old t := by
  induction t with
  | nil => rfl
  | node d ch sib ihc ihs =>
    obtain ⟨hd, hch, hsib⟩ := colorsBelow_node.mp hbelow
    unfold recolorSFLoopSet
    by_cases hc : d.setColor = old
    · simp only [hc, ne_eq, not_true_eq_false, if_false, topColors, and_false, ihc hch, ihs hsib]
    · have hcnew : d.setColor ≠ new := by omega
      simp only [hc, hcnew, ne_eq, not_false_eq_true, if_true, topColors, and_true, ihs hsib]

/-- A renumbered node keeps everything else it holds. -/
def LoopData.uncolored (d : LoopData β) : LoopData β := { d with setColor := 0 }

@[simp] theorem getUniqueLoopBB_uncolored [DecidableEq β] (d : LoopData β) :
    getUniqueLoopBB d.uncolored = getUniqueLoopBB d := rfl

@[simp] theorem LoopData.scaleFactor_uncolored (d : LoopData β) : d.uncolored.scaleFactor = d.scaleFactor := rfl

/-- A new tree has no colors yet. -/
theorem map_uncolored_createLoopTree (inBounds : β → Bool) (counts : β → BackedgeTakenCount) (f : Forest (Loop β)) :
    (createLoopTree inBounds counts f).map LoopData.uncolored = createLoopTree inBounds counts f := by
  induction f with
  | nil => rfl
  | node L subs rest ihs ihr =>
    simp only [createLoopTree]
    split
    · rw [Forest.map, ihs, ihr]
      rfl
    · rw [Forest.map_append, ihs, ihr]

theorem colorsBelow_recolorSFLoopSet {old new bound : Nat} (hnew : new < bound) {t : Forest (LoopData β)}
    (hbelow : ColorsBelow bound t) : ColorsBelow bound (recolorSFLoopSet old new t) := by
  induction t with
  | nil => exact hbelow
  | node d ch sib ihc ihs =>
    obtain ⟨hd, hch, hsib⟩ := colorsBelow_node.mp hbelow
    unfold recolorSFLoopSet
    split
    · exact colorsBelow_node.mpr ⟨hd, hch, ihs hsib⟩
    · exact colorsBelow_node.mpr ⟨hnew, ihc hch, ihs hsib⟩

theorem map_uncolored_colorLoopTreeSF (pc n : Nat) (t : Forest (LoopData β)) :
    (colorLoopTreeSF pc n t).1.map LoopData.uncolored = t.map LoopData.uncolored := by
  induction t generalizing pc n with
  | nil => rfl
  | node d ch sib ihc ihs =>
    simp only [colorLoopTreeSF, Forest.map, ihc, ihs]
    rfl

theorem map_uncolored_recolorSFLoopSet (old new : Nat) (t : Forest (LoopData β)) :
    (recolorSFLoopSet old new t).map LoopData.uncolored = t.map LoopData.uncolored := by
  induction t with
  | nil => rfl
  | node d ch sib ihc ihs =>
    unfold recolorSFLoopSet
    split
    · simp only [Forest.map, ihs]
    · simp only [Forest.map, ihc, ihs]
      rfl

/-- Color 0 marks exactly the loops without a trip count. -/
def ColorZeroIff (t : Forest (LoopData β)) : Prop := ∀ d ∈ t.nodes, d.setColor = 0 ↔ d.scaleFactor = 0

theorem colorZeroIff_node {d : LoopData β} {ch sib : Forest (LoopData β)} :
    ColorZeroIff (.node d ch sib) ↔ (d.setColor = 0 ↔ d.scaleFactor = 0) ∧ ColorZeroIff ch ∧ ColorZeroIff sib := by
  unfold ColorZeroIff
  simp only [Forest.nodes_node, List.mem_cons, List.mem_append]
  constructor
  · intro h
    exact ⟨h d (.inl rfl), fun x hx => h x (.inr (.inl hx)), fun x hx => h x (.inr (.inr hx))⟩
  · rintro ⟨hd, hch, hsib⟩ x (rfl | hx | hx)
    · exact hd
    · exact hch x hx
    · exact hsib x hx

theorem colorZeroIff_colorLoopTreeSF {pc n : Nat} (hn : 0 < n) (t : Forest (LoopData β)) :
    ColorZeroIff (colorLoopTreeSF pc n t).1 := by
  induction t generalizing pc n with
  | nil => simp [ColorZeroIff, colorLoopTreeSF]
  | node d ch sib ihc ihs =>
    simp only [colorLoopTreeSF, colorZeroIff_node]
    refine ⟨?_, ihc ?_, ihs ?_⟩
    · by_cases h0 : d.scaleFactor = 0
      · simp [h0]
      · by_cases hp : pc = 0
        · simp [h0, hp]; omega
        · simp [h0, hp]
    · split
      · exact hn
      · split
        · exact hn
        · exact Nat.succ_pos n
    · refine lt_of_lt_of_le ?_ (le_colorLoopTreeSF _ _ _)
      split
      · exact hn
      · split
        · exact hn
        · exact Nat.succ_pos n

theorem colorZeroIff_recolorSFLoopSet {old new : Nat} (hold : old ≠ 0) (hnew : new ≠ 0) {t : Forest (LoopData β)}
    (h : ColorZeroIff t) : ColorZeroIff (recolorSFLoopSet old new t) := by
  induction t with
  | nil => exact h
  | node d ch sib ihc ihs =>
    obtain ⟨hd, hch, hsib⟩ := colorZeroIff_node.mp h
    unfold recolorSFLoopSet
    by_cases hc : d.setColor = old
    · have hsf : d.scaleFactor ≠ 0 := fun h0 => hold (hc ▸ hd.mpr h0)
      simp only [hc, ne_eq, not_true_eq_false, if_false]
      exact colorZeroIff_node.mpr ⟨by simp [hnew, hsf], ihc hch, ihs hsib⟩
    · simp only [hc, ne_eq, not_false_eq_true, if_true]
      exact colorZeroIff_node.mpr ⟨hd, hch, ihs hsib⟩

/-! ### The first node of a set -/

/-- `t'` is `t` with the node `d`, whose parent is `p` and whose children are `ch`, replaced by `new`; no node on the
way to `d` has the number `id`. -/
inductive ReplacedAt (id : Nat) (p : Option (LoopData β)) (d : LoopData β) (ch new : Forest (LoopData β)) :
    Option (LoopData β) → Forest (LoopData β) → Forest (LoopData β) → Prop
  | here (sib : Forest (LoopData β)) : ReplacedAt id p d ch new p (.node d ch sib) (new.append sib)
  | child {parent : Option (LoopData β)} {x : LoopData β} {t t' : Forest (LoopData β)} (sib : Forest (LoopData β)) :
      x.setColor ≠ id → ReplacedAt id p d ch new (some x) t t' →
        ReplacedAt id p d ch new parent (.node x t sib) (.node x t' sib)
  | sibling {parent : Option (LoopData β)} {x : LoopData β} {t t' : Forest (LoopData β)} (xch : Forest (LoopData β)) :
      x.setColor ≠ id → ReplacedAt id p d ch new parent t t' →
        ReplacedAt id p d ch new parent (.node x xch t) (.node x xch t')

section findLoopTreeSet

variable {σ : Type*} {id : Nat}
  {visit : Option (LoopData β) → LoopData β → Forest (LoopData β) → Forest (LoopData β) × σ}

theorem findLoopTreeSet_eq_none (parent : Option (LoopData β)) {t : Forest (LoopData β)}
    (h : ∀ d ∈ t.nodes, d.setColor ≠ id) : findLoopTreeSet id visit parent t = none := by
  induction t generalizing parent with
  | nil => rfl
  | node x xch sib ihc ihs =>
    have hx : x.setColor ≠ id := h x (by simp)
    have hch := ihc (some x) fun d hd => h d (by simp [hd])
    have hsib := ihs parent fun d hd => h d (by simp [hd])
    simp [findLoopTreeSet, hx, hch, hsib]

variable (visit) in
/-- A set number in the tree is found, and the tree changes at the node found only. -/
theorem exists_findLoopTreeSet (parent : Option (LoopData β)) {t : Forest (LoopData β)}
    (hmem : ∃ d ∈ t.nodes, d.setColor = id) :
    ∃ p d ch t', findLoopTreeSet id visit parent t = some (t', (visit p d ch).2) ∧ d.setColor = id ∧
      ReplacedAt id p d ch (visit p d ch).1 parent t t' := by
  induction t generalizing parent with
  | nil => simp at hmem
  | node x xch sib ihc ihs =>
    by_cases hx : x.setColor = id
    · refine ⟨parent, x, xch, (visit parent x xch).1.append sib, ?_, hx, .here sib⟩
      simp [findLoopTreeSet, hx]
    · by_cases hch : ∃ d ∈ xch.nodes, d.setColor = id
      · obtain ⟨p, d, ch, t', hfind, hd, hrep⟩ := ihc (some x) hch
        refine ⟨p, d, ch, .node x t' sib, ?_, hd, .child sib hx hrep⟩
        simp [findLoopTreeSet, hx, hfind]
      · have hnone : findLoopTreeSet id visit (some x) xch = none :=
          findLoopTreeSet_eq_none _ fun d hd heq => hch ⟨d, hd, heq⟩
        have hsib : ∃ d ∈ sib.nodes, d.setColor = id := by
          obtain ⟨d, hd, heq⟩ := hmem
          simp only [Forest.nodes_node, List.mem_cons, List.mem_append] at hd
          rcases hd with rfl | hd | hd
          · exact absurd heq hx
          · exact absurd ⟨d, hd, heq⟩ hch
          · exact ⟨d, hd, heq⟩
        obtain ⟨p, d, ch, t', hfind, hd, hrep⟩ := ihs parent hsib
        refine ⟨p, d, ch, .node x xch t', ?_, hd, .sibling xch hx hrep⟩
        simp [findLoopTreeSet, hx, hnone, hfind]

end findLoopTreeSet

theorem mem_topColors_elim {pc c : Nat} {t : Forest (LoopData β)} (h : c ∈ topColors pc t) :
    ∃ d ∈ t.nodes, d.setColor = c := by
  induction t generalizing pc with
  | nil => simp [topColors] at h
  | node d ch sib ihc ihs =>
    simp only [topColors, List.mem_append] at h
    rcases h with h | h | h
    · split at h
      · exact ⟨d, by simp, (List.mem_singleton.mp h).symm⟩
      · simp at h
    · obtain ⟨e, he, hc⟩ := ihc h
      exact ⟨e, by simp [he], hc⟩
    · obtain ⟨e, he, hc⟩ := ihs h
      exact ⟨e, by simp [he], hc⟩

theorem length_topColors_le (pc : Nat) (t : Forest (LoopData β)) : (topColors pc t).length ≤ t.nodes.length := by
  induction t generalizing pc with
  | nil => simp [topColors]
  | node d ch sib ihc ihs =>
    have h1 := ihc d.setColor
    have h2 := ihs pc
    have h3 : (if d.setColor ≠ 0 ∧ d.setColor ≠ pc then [d.setColor] else []).length ≤ 1 := by
      split <;> simp
    simp only [topColors, Forest.nodes_node, List.length_append, List.length_cons]
    omega

theorem topColors_append (pc : Nat) (t u : Forest (LoopData β)) :
    topColors pc (t.append u) = topColors pc t ++ topColors pc u := by
  induction t with
  | nil => rfl
  | node d ch sib _ ih => simp [Forest.append, topColors, ih]

/-- What the middle part gains, the whole gains. -/
private theorem perm_insert_middle {a a' new : List Nat} (pre post : List Nat) (h : a'.Perm (a ++ new)) :
    (pre ++ (a' ++ post)).Perm (pre ++ (a ++ post) ++ new) := by
  have hpost : (a' ++ post).Perm (a ++ (post ++ new)) := by
    have h1 : (a' ++ post).Perm (a ++ new ++ post) := List.Perm.append_right post h
    rw [List.append_assoc] at h1
    exact h1.trans (List.Perm.append_left a List.perm_append_comm)
  rw [List.append_assoc, List.append_assoc]
  exact List.Perm.append_left pre hpost

namespace ReplacedAt

variable {id : Nat} {p parent : Option (LoopData β)} {d : LoopData β} {ch new t t' : Forest (LoopData β)}

/-- The node found is the top of its set: its parent is in another one. -/
theorem parentColor_ne (h : ReplacedAt id p d ch new parent t t') (hp : parentColor parent ≠ id) :
    parentColor p ≠ id := by
  induction h with
  | here _ => exact hp
  | child _ hx _ ih => exact ih hx
  | sibling _ _ _ ih => exact ih hp

theorem parentPairs_mem (h : ReplacedAt id p d ch new parent t t') : (p, d) ∈ t.parentPairs parent := by
  induction h with
  | here _ => simp [Forest.parentPairs]
  | child _ _ _ ih => simp [Forest.parentPairs, ih]
  | sibling _ _ _ ih => simp [Forest.parentPairs, ih]

theorem childPairs_mem (h : ReplacedAt id p d ch new parent t t') {x : Option (LoopData β) × LoopData β}
    (hx : x ∈ ch.parentPairs (some d)) : x ∈ t.parentPairs parent := by
  induction h with
  | here _ => simp [Forest.parentPairs, hx]
  | child _ _ _ ih => simp [Forest.parentPairs, ih]
  | sibling _ _ _ ih => simp [Forest.parentPairs, ih]

/-- The nodes replaced are nodes of the tree. -/
theorem nodes_subset (h : ReplacedAt id p d ch new parent t t') {x : LoopData β}
    (hx : x ∈ (Forest.node d ch .nil).nodes) : x ∈ t.nodes := by
  induction h with
  | here sib => simp only [Forest.nodes_node, Forest.nodes_nil, List.mem_cons, List.mem_append] at hx ⊢; tauto
  | child _ _ _ ih => simp [ih]
  | sibling _ _ _ ih => simp [ih]

/-- The nodes of the new tree are old nodes or new ones. -/
theorem nodes_elim (h : ReplacedAt id p d ch new parent t t') {x : LoopData β} (hx : x ∈ t'.nodes) :
    x ∈ t.nodes ∨ x ∈ new.nodes := by
  induction h with
  | here sib =>
    rw [Forest.nodes_append, List.mem_append] at hx
    rcases hx with hx | hx
    · exact .inr hx
    · exact .inl (by simp [hx])
  | child sib _ _ ih =>
    simp only [Forest.nodes_node, List.mem_cons, List.mem_append] at hx ⊢
    tauto
  | sibling xch _ _ ih =>
    simp only [Forest.nodes_node, List.mem_cons, List.mem_append] at hx ⊢
    tauto

theorem map_uncolored (h : ReplacedAt id p d ch new parent t t')
    (hnew : new.map LoopData.uncolored = (Forest.node d ch .nil).map LoopData.uncolored) :
    t'.map LoopData.uncolored = t.map LoopData.uncolored := by
  induction h with
  | here sib => rw [Forest.map_append, hnew]; rfl
  | child sib _ _ ih => simp only [Forest.map, ih]
  | sibling xch _ _ ih => simp only [Forest.map, ih]

/-- The tops of the whole tree gain what the tops of the replaced part gain. -/
theorem topColors_perm (h : ReplacedAt id p d ch new parent t t') {gain : List Nat}
    (hnew : (topColors (parentColor p) new).Perm (topColors (parentColor p) (.node d ch .nil) ++ gain)) :
    (topColors (parentColor parent) t').Perm (topColors (parentColor parent) t ++ gain) := by
  induction h with
  | here sib =>
    have hgain := perm_insert_middle [] (topColors (parentColor p) sib) hnew
    simpa [topColors_append, topColors] using hgain
  | child sib _ _ ih =>
    simp only [topColors, parentColor_some] at ih ⊢
    exact perm_insert_middle _ _ ih
  | sibling xch _ _ ih =>
    simp only [topColors]
    rw [← List.append_assoc, ← List.append_assoc, List.append_assoc _ (topColors _ _) gain]
    exact List.Perm.append_left _ ih

end ReplacedAt

end ZRay.Pass
