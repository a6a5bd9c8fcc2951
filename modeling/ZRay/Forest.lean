import Mathlib.Data.List.Basic

/-!
# Ordered forests

A forest in first-child/next-sibling form, so that a recursion over all nodes is structural.  `nodes` lists the data
in preorder and `parentPairs` lists every node with the data of its parent.
-/

/-- A forest whose nodes carry data: empty, or a first node with its children and the nodes beside it. -/
inductive Forest (δ : Type*) where
  | nil
  | node (data : δ) (children siblings : Forest δ)
  deriving Repr, DecidableEq

namespace Forest

variable {δ ε : Type*}

/-- The data of all nodes, in preorder. -/
def nodes : Forest δ → List δ
  | nil => []
  | node d ch sib => d :: (ch.nodes ++ sib.nodes)

/-- The data of the topmost nodes. -/
def roots : Forest δ → List δ
  | nil => []
  | node d _ sib => d :: sib.roots

def append : Forest δ → Forest δ → Forest δ
  | nil, g => g
  | node d ch sib, g => node d ch (sib.append g)

def map (f : δ → ε) : Forest δ → Forest ε
  | nil => nil
  | node d ch sib => node (f d) (ch.map f) (sib.map f)

/-- Every node with the data of its parent, in preorder; the roots get the parent given. -/
def parentPairs (parent : Option δ) : Forest δ → List (Option δ × δ)
  | nil => []
  | node d ch sib => (parent, d) :: (ch.parentPairs (some d) ++ sib.parentPairs parent)

@[simp] theorem nodes_nil : (nil : Forest δ).nodes = [] := rfl

@[simp] theorem nodes_node (d : δ) (ch sib : Forest δ) : (node d ch sib).nodes = d :: (ch.nodes ++ sib.nodes) := rfl

@[simp] theorem roots_nil : (nil : Forest δ).roots = [] := rfl

@[simp] theorem roots_node (d : δ) (ch sib : Forest δ) : (node d ch sib).roots = d :: sib.roots := rfl

theorem roots_subset_nodes (f : Forest δ) : f.roots ⊆ f.nodes := by
  induction f with
  | nil => exact List.Subset.refl _
  | node d ch sib _ ih =>
    intro x hx
    rcases List.mem_cons.mp hx with rfl | hx
    · exact List.mem_cons_self
    · exact List.mem_cons_of_mem d (List.mem_append_right ch.nodes (ih hx))

@[simp] theorem nodes_append (f g : Forest δ) : (f.append g).nodes = f.nodes ++ g.nodes := by
  induction f with
  | nil => rfl
  | node d ch sib _ ih => simp [append, ih]

theorem append_nil (f : Forest δ) : f.append nil = f := by
  induction f with
  | nil => rfl
  | node d ch sib _ ih => simp [append, ih]

theorem map_append (h : δ → ε) (f g : Forest δ) : (f.append g).map h = (f.map h).append (g.map h) := by
  induction f with
  | nil => rfl
  | node d ch sib _ ih => simp [append, map, ih]

theorem nodes_map (h : δ → ε) (f : Forest δ) : (f.map h).nodes = f.nodes.map h := by
  induction f with
  | nil => rfl
  | node d ch sib ihc ihs => simp [map, ihc, ihs]

theorem parentPairs_append (parent : Option δ) (f g : Forest δ) :
    (f.append g).parentPairs parent = f.parentPairs parent ++ g.parentPairs parent := by
  induction f with
  | nil => rfl
  | node d ch sib _ ih => simp [append, parentPairs, ih]

theorem parentPairs_map (h : δ → ε) (parent : Option δ) (f : Forest δ) :
    (f.map h).parentPairs (parent.map h) = (f.parentPairs parent).map (Prod.map (Option.map h) h) := by
  induction f generalizing parent with
  | nil => rfl
  | node d ch sib ihc ihs =>
    have hch := ihc (some d)
    rw [Option.map_some] at hch
    simp [map, parentPairs, hch, ihs]

/-- Forgetting the parents leaves the nodes. -/
theorem map_snd_parentPairs (parent : Option δ) (f : Forest δ) :
    (f.parentPairs parent).map Prod.snd = f.nodes := by
  induction f generalizing parent with
  | nil => rfl
  | node d ch sib ihc ihs => simp [parentPairs, ihc, ihs]

theorem mem_nodes_of_mem_parentPairs {parent : Option δ} {f : Forest δ} {x : Option δ × δ}
    (hx : x ∈ f.parentPairs parent) : x.2 ∈ f.nodes := by
  rw [← map_snd_parentPairs parent]
  exact List.mem_map_of_mem hx

/-- A parent other than the one given is a node. -/
theorem parent_mem_nodes_or {parent : Option δ} {f : Forest δ} {p d : δ} (h : (some p, d) ∈ f.parentPairs parent) :
    p ∈ f.nodes ∨ parent = some p := by
  induction f generalizing parent with
  | nil => simp [parentPairs] at h
  | node e ch sib ihc ihs =>
    simp only [parentPairs, List.mem_cons, List.mem_append, Prod.mk.injEq] at h
    rcases h with ⟨h, -⟩ | h | h
    · exact .inr h.symm
    · rcases ihc h with hmem | heq
      · exact .inl (by simp [hmem])
      · exact .inl (by simp [Option.some.inj heq])
    · rcases ihs h with hmem | heq
      · exact .inl (by simp [hmem])
      · exact .inr heq

theorem parent_mem_nodes {f : Forest δ} {p d : δ} (h : (some p, d) ∈ f.parentPairs none) : p ∈ f.nodes :=
  (parent_mem_nodes_or h).resolve_right (by simp)

/-! ### Parts of a forest -/

/-- `f.Pruned g`: the forest `f` is `g` with some subtrees left out. -/
inductive Pruned : Forest δ → Forest δ → Prop
  | nil : Pruned nil nil
  | drop {f sib : Forest δ} (d : δ) (ch : Forest δ) : Pruned f sib → Pruned f (node d ch sib)
  | keep {f ch s sib : Forest δ} (d : δ) : Pruned f ch → Pruned s sib → Pruned (node d f s) (node d ch sib)

/-- The node `d` with the children `ch` is somewhere in the forest. -/
inductive HasSubtree (d : δ) (ch : Forest δ) : Forest δ → Prop
  | here (sib : Forest δ) : HasSubtree d ch (node d ch sib)
  | child {f : Forest δ} (x : δ) (sib : Forest δ) : HasSubtree d ch f → HasSubtree d ch (node x f sib)
  | sibling {f : Forest δ} (x : δ) (xch : Forest δ) : HasSubtree d ch f → HasSubtree d ch (node x xch f)

/-- `f` is one tree, and a connected part of `g`: a node of `g` with its descendants, some subtrees left out. -/
def ConnectedIn (f g : Forest δ) : Prop := ∃ d kept ch, f = node d kept nil ∧ kept.Pruned ch ∧ HasSubtree d ch g

/-- Every node with the product of the factors on the way to it, its own included, starting from `outer`. -/
def pathProducts (factor : δ → Nat) (outer : Nat) : Forest δ → List (δ × Nat)
  | nil => []
  | node d ch sib =>
    (d, outer * factor d) :: (ch.pathProducts factor (outer * factor d) ++ sib.pathProducts factor outer)

theorem ConnectedIn.nodes_ne_nil {f g : Forest δ} (h : f.ConnectedIn g) : f.nodes ≠ [] := by
  obtain ⟨d, kept, ch, rfl, -, -⟩ := h
  simp

end Forest
