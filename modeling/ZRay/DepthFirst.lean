import Mathlib.Data.List.Basic
import Mathlib.Data.List.Sublists

/-!
# Depth-first walks that change what they walk on

A walk visits a node, with what its caller hands it, and walks on from the successors that are not visited yet, which
get what the visit hands on.  The visits change the state, and with it the successors of nodes that are not visited.
What a node may expect when it is walked from (`A`) must outlast the visits in between; with that, what one visit
keeps the walk keeps, and the nodes visited are closed under the successors they have in the end (`Sound.walk`).
Where all nodes come from a finite list the walk ends (`Sound.exists_walk`).
-/

namespace ZRay

variable {σ κ δ : Type*}

/-- The nodes visited in a state, the visit of a node, and the successors of a node. -/
structure DepthFirst (σ κ δ : Type*) where
  visited : σ → List κ
  visit : κ → δ → σ → δ × σ
  succs : σ → κ → List κ

namespace DepthFirst

variable [DecidableEq κ]

/-- The walk from a node, for at most `fuel` nested calls. -/
def walk (d : DepthFirst σ κ δ) : Nat → κ → δ → σ → Option σ
  | 0, _, _, _ => none
  | fuel + 1, node, handed, s =>
    let r := d.visit node handed s
    (d.succs r.2 node).foldlM (fun s child => if child ∈ d.visited s then some s else walk d fuel child r.1 s) r.2

/-- `P` holds between two visits, and `A` is what a node may expect of what it is handed. -/
structure Sound (d : DepthFirst σ κ δ) (P : σ → Prop) (A : κ → δ → σ → Prop) : Prop where
  marks : ∀ node handed s, d.visited (d.visit node handed s).2 = node :: d.visited s
  visit : ∀ {node handed s}, node ∉ d.visited s → A node handed s → P s → P (d.visit node handed s).2
  hand : ∀ {node handed s}, node ∉ d.visited s → A node handed s → P s →
    ∀ child ∈ d.succs (d.visit node handed s).2 node, A child (d.visit node handed s).1 (d.visit node handed s).2
  keep : ∀ {node handed s}, node ∉ d.visited s → A node handed s → P s →
    ∀ x a, A x a s → A x a (d.visit node handed s).2
  stay : ∀ {node handed s}, node ∉ d.visited s → A node handed s → P s →
    ∀ x ∈ d.visited s, d.succs (d.visit node handed s).2 x = d.succs s x

/-- What a part of the walk does: the nodes visited stay so, with their successors, and the successors of the others
it has visited are visited. -/
structure Walked (d : DepthFirst σ κ δ) (P : σ → Prop) (A : κ → δ → σ → Prop) (s s' : σ) : Prop where
  holds : P s'
  keep : ∀ x a, A x a s → A x a s'
  subset : d.visited s ⊆ d.visited s'
  stay : ∀ x ∈ d.visited s, d.succs s' x = d.succs s x
  closed : ∀ x ∈ d.visited s', x ∈ d.visited s ∨ ∀ y ∈ d.succs s' x, y ∈ d.visited s'

variable {d : DepthFirst σ κ δ} {P : σ → Prop} {A : κ → δ → σ → Prop}

omit [DecidableEq κ] in
theorem Walked.refl {s : σ} (h : P s) : Walked d P A s s :=
  ⟨h, fun _ _ ha => ha, fun _ hx => hx, fun _ _ => rfl, fun _ hx => .inl hx⟩

omit [DecidableEq κ] in
theorem Walked.trans {s s' s'' : σ} (h : Walked d P A s s') (h' : Walked d P A s' s'') : Walked d P A s s'' where
  holds := h'.holds
  keep x a ha := h'.keep x a (h.keep x a ha)
  subset x hx := h'.subset (h.subset hx)
  stay x hx := by rw [h'.stay x (h.subset hx), h.stay x hx]
  closed x hx := by
    rcases h'.closed x hx with hx' | hsucc
    · rcases h.closed x hx' with hx | hsucc
      · exact .inl hx
      · -- visited in the first part: the successors are the same in the end
        rw [← h'.stay x hx'] at hsucc
        exact .inr fun y hy => h'.subset (hsucc y hy)
    · exact .inr hsucc

namespace Sound

/-- The walk from a node that is not visited. -/
theorem walk (h : d.Sound P A) {fuel : Nat} {node : κ} {handed : δ} {s s' : σ} (hnode : node ∉ d.visited s)
    (hA : A node handed s) (hP : P s) (hrun : d.walk fuel node handed s = some s') :
    Walked d P A s s' ∧ node ∈ d.visited s' := by
  induction fuel generalizing node handed s s' with
  | zero => simp [DepthFirst.walk] at hrun
  | succ fuel ih =>
    rw [DepthFirst.walk] at hrun
    have hmarks := h.marks node handed s
    have hvisit := h.visit hnode hA hP
    have hhand := h.hand hnode hA hP
    have hkeep := h.keep hnode hA hP
    have hstay := h.stay hnode hA hP
    generalize d.visit node handed s = r at hmarks hvisit hhand hkeep hstay hrun
    -- the successors, each visited or walked from
    have hfold : ∀ (cs : List κ) (s2 : σ), P s2 → (∀ c ∈ cs, A c r.1 s2) →
        (cs.foldlM (fun s child => if child ∈ d.visited s then some s else d.walk fuel child r.1 s) s2) = some s' →
        Walked d P A s2 s' ∧ ∀ c ∈ cs, c ∈ d.visited s' := by
      intro cs
      induction cs with
      | nil =>
        intro s2 hP2 _ heq
        simp only [List.foldlM_nil, Option.pure_def, Option.some.injEq] at heq
        subst heq
        exact ⟨.refl hP2, by simp⟩
      | cons c cs ihcs =>
        intro s2 hP2 hcs heq
        rw [List.foldlM_cons, Option.bind_eq_bind] at heq
        have hcs' : ∀ c' ∈ cs, A c' r.1 s2 := fun c' hc' => hcs c' (List.mem_cons_of_mem c hc')
        by_cases hc : c ∈ d.visited s2
        · rw [if_pos hc, Option.bind_some] at heq
          obtain ⟨hwalked, hall⟩ := ihcs s2 hP2 hcs' heq
          refine ⟨hwalked, fun c' hc' => ?_⟩
          rcases List.mem_cons.mp hc' with rfl | hc'
          · exact hwalked.subset hc
          · exact hall c' hc'
        · rw [if_neg hc] at heq
          obtain ⟨s3, hs3, hrest⟩ := Option.bind_eq_some_iff.mp heq
          obtain ⟨hwalked3, hc3⟩ := ih hc (hcs c List.mem_cons_self) hP2 hs3
          obtain ⟨hwalked, hall⟩ := ihcs s3 hwalked3.holds (fun c' hc' => hwalked3.keep _ _ (hcs' c' hc')) hrest
          refine ⟨hwalked3.trans hwalked, fun c' hc' => ?_⟩
          rcases List.mem_cons.mp hc' with rfl | hc'
          · exact hwalked.subset hc3
          · exact hall c' hc'
    obtain ⟨hwalked, hall⟩ := hfold (d.succs r.2 node) r.2 hvisit hhand hrun
    have hmem : node ∈ d.visited r.2 := by rw [hmarks]; exact List.mem_cons_self
    have hsub : d.visited s ⊆ d.visited r.2 := by rw [hmarks]; exact List.subset_cons_self _ _
    refine ⟨⟨hwalked.holds, fun x a ha => hwalked.keep x a (hkeep x a ha), fun x hx => hwalked.subset (hsub hx),
      fun x hx => (hwalked.stay x (hsub hx)).trans (hstay x hx), fun x hx => ?_⟩, hwalked.subset hmem⟩
    rcases hwalked.closed x hx with hx' | hsucc
    · rw [hmarks] at hx'
      rcases List.mem_cons.mp hx' with rfl | hx'
      · rw [hwalked.stay x hmem]
        exact .inr hall
      · exact .inl hx'
    · exact .inr hsucc

/-- How many nodes of the list are not yet visited. -/
private def unvisited (d : DepthFirst σ κ δ) (nodes : List κ) (s : σ) : Nat :=
  (nodes.filter fun x => x ∉ d.visited s).length

private theorem unvisited_le (nodes : List κ) {s s' : σ} (h : d.visited s ⊆ d.visited s') :
    unvisited d nodes s' ≤ unvisited d nodes s := by
  refine List.Sublist.length_le (List.monotone_filter_right nodes fun x hx => ?_)
  simp only [decide_eq_true_eq] at hx ⊢
  exact fun hx' => hx (h hx')

private theorem unvisited_lt {nodes : List κ} {node : κ} {s s' : σ} (hmem : node ∈ nodes) (hnode : node ∉ d.visited s)
    (h : d.visited s' = node :: d.visited s) : unvisited d nodes s' < unvisited d nodes s := by
  have hsub : (nodes.filter fun x => x ∉ d.visited s') =
      (nodes.filter fun x => x ∉ d.visited s).filter fun x => x ≠ node := by
    rw [List.filter_filter]
    refine List.filter_congr fun x _ => ?_
    simp [h, not_or]
  unfold unvisited
  rw [hsub]
  exact List.length_filter_lt_length_iff_exists.mpr
    ⟨node, List.mem_filter.mpr ⟨hmem, by simpa using hnode⟩, by simp⟩

private theorem exists_walk_of_unvisited (h : d.Sound P A) {nodes : List κ}
    (hnodes : ∀ node handed s, A node handed s → P s → node ∈ nodes) {fuel : Nat} {node : κ} {handed : δ} {s : σ}
    (hnode : node ∉ d.visited s) (hA : A node handed s) (hP : P s) (hfuel : unvisited d nodes s ≤ fuel) :
    ∃ s', d.walk fuel node handed s = some s' := by
  induction fuel generalizing node handed s with
  | zero =>
    have hmem : node ∈ nodes.filter fun x => x ∉ d.visited s :=
      List.mem_filter.mpr ⟨hnodes node handed s hA hP, by simpa using hnode⟩
    have hpos := List.length_pos_of_mem hmem
    unfold unvisited at hfuel
    omega
  | succ fuel ih =>
    rw [DepthFirst.walk]
    -- the node is one less, and later states have visited more
    have hlt := unvisited_lt (hnodes node handed s hA hP) hnode (h.marks node handed s)
    have hvisit := h.visit hnode hA hP
    have hhand := h.hand hnode hA hP
    generalize d.visit node handed s = r at hlt hvisit hhand
    have hfold : ∀ (cs : List κ) (s2 : σ), P s2 → (∀ c ∈ cs, A c r.1 s2) → unvisited d nodes s2 ≤ fuel →
        ∃ s', cs.foldlM (fun s child =>
          if child ∈ d.visited s then some s else d.walk fuel child r.1 s) s2 = some s' := by
      intro cs
      induction cs with
      | nil =>
        intro s2 _ _ _
        exact ⟨s2, rfl⟩
      | cons c cs ihcs =>
        intro s2 hP2 hcs hs2
        rw [List.foldlM_cons, Option.bind_eq_bind]
        have hcs' : ∀ c' ∈ cs, A c' r.1 s2 := fun c' hc' => hcs c' (List.mem_cons_of_mem c hc')
        by_cases hc : c ∈ d.visited s2
        · rw [if_pos hc, Option.bind_some]
          exact ihcs s2 hP2 hcs' hs2
        · rw [if_neg hc]
          obtain ⟨s3, hs3⟩ := ih hc (hcs c List.mem_cons_self) hP2 hs2
          rw [hs3, Option.bind_some]
          obtain ⟨hwalked, -⟩ := h.walk hc (hcs c List.mem_cons_self) hP2 hs3
          have hle := unvisited_le nodes hwalked.subset
          exact ihcs s3 hwalked.holds (fun c' hc' => hwalked.keep _ _ (hcs' c' hc')) (by omega)
    exact hfold (d.succs r.2 node) r.2 hvisit hhand (by omega)

/-- The walk ends: as many nested calls as there are nodes suffice. -/
theorem exists_walk (h : d.Sound P A) (nodes : List κ)
    (hnodes : ∀ node handed s, A node handed s → P s → node ∈ nodes) {fuel : Nat} (hfuel : nodes.length ≤ fuel)
    {node : κ} {handed : δ} {s : σ} (hnode : node ∉ d.visited s) (hA : A node handed s) (hP : P s) :
    ∃ s', d.walk fuel node handed s = some s' :=
  exists_walk_of_unvisited h hnodes hnode hA hP (le_trans (List.length_filter_le _ _) hfuel)

end Sound

end DepthFirst

end ZRay
