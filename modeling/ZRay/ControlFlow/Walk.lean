import Mathlib.Data.List.Count
import Mathlib.Tactic.Common

/-!
# Walks in a flow graph

A flow graph has an entry and successor lists; a walk is the list of the nodes visited.  Dominance is stated over
walks: `a` dominates `x` when every walk from the entry to `x` visits `a`, and `a` post-dominates `x` when every walk
from `x` to a root (an exit, or a node chosen in an endless loop) does.  The key fact: two nodes of which one
dominates the other, and is post-dominated by it, are visited equally often by a complete walk when no cycle visits
one without the other (`count_eq_of_cycles`).  On a concrete graph dominance is decided by `reachAvoiding`.
-/

/-- A control-flow graph: a node is an exit when it has no successor. -/
structure FlowGraph (β : Type*) where
  entry : β
  succs : β → List β

namespace FlowGraph

variable {β : Type*} (g : FlowGraph β)

/-- `g.Walk a w b`: the walk `w` from `a` to `b`, both included. -/
inductive Walk : β → List β → β → Prop
  | single (a : β) : Walk a [a] a
  | cons {a b c : β} {w : List β} : b ∈ g.succs a → Walk b w c → Walk a (a :: w) c

/-- A run from the entry to an exit. -/
def Complete (w : List β) : Prop := ∃ z, g.succs z = [] ∧ g.Walk g.entry w z

def Reachable (x : β) : Prop := ∃ w, g.Walk g.entry w x

def Dominates (a x : β) : Prop := ∀ w, g.Walk g.entry w x → a ∈ w

/-- `root` says where the post-dominator tree starts. -/
def PostDominates (root : β → Prop) (a x : β) : Prop := ∀ z, root z → ∀ w, g.Walk x w z → a ∈ w

variable {g}

namespace Walk

theorem exists_cons {a b : β} {w : List β} (h : g.Walk a w b) : ∃ v, w = a :: v := by
  cases h with
  | single => exact ⟨[], rfl⟩
  | cons => exact ⟨_, rfl⟩

theorem source_mem {a b : β} {w : List β} (h : g.Walk a w b) : a ∈ w := by
  obtain ⟨v, rfl⟩ := h.exists_cons
  exact List.mem_cons_self

theorem target_mem {a b : β} {w : List β} (h : g.Walk a w b) : b ∈ w := by
  induction h with
  | single => exact List.mem_singleton_self _
  | cons _ _ ih => exact List.mem_cons_of_mem _ ih

/-- Two walks join where the first ends and the second starts. -/
theorem append {a b c : β} {u v : List β} (hu : g.Walk a u b) (hv : g.Walk b (b :: v) c) : g.Walk a (u ++ v) c := by
  induction hu with
  | single => exact hv
  | cons he _ ih => exact .cons he (ih hv)

/-- A walk goes on along an edge. -/
theorem concat {a b c d : β} {u v : List β} (hu : g.Walk a u b) (he : c ∈ g.succs b) (hv : g.Walk c v d) :
    g.Walk a (u ++ v) d := by
  obtain ⟨v', rfl⟩ := hv.exists_cons
  exact hu.append (.cons he hv)

/-- The first step of a walk. -/
theorem step {a b c : β} {v : List β} (h : g.Walk a (a :: b :: v) c) : b ∈ g.succs a ∧ g.Walk b (b :: v) c := by
  cases h with
  | cons he hw =>
    obtain ⟨v', hv⟩ := hw.exists_cons
    obtain ⟨rfl, rfl⟩ := List.cons.inj hv
    exact ⟨he, hw⟩

/-- Nodes in a row, each a successor of the one before it, are a walk. -/
theorem of_isChain {a : β} {w : List β} (h : (a :: w).IsChain fun x y => y ∈ g.succs x) :
    g.Walk a (a :: w) ((a :: w).getLast (List.cons_ne_nil a w)) := by
  induction w generalizing a with
  | nil => exact .single a
  | cons b w ih =>
    obtain ⟨he, hw⟩ := List.isChain_cons_cons.mp h
    rw [List.getLast_cons (List.cons_ne_nil b w)]
    exact .cons he (ih hw)

/-- A walk splits at a node it visits. -/
theorem split {a c x : β} {u v : List β} (h : g.Walk a (u ++ x :: v) c) :
    g.Walk a (u ++ [x]) x ∧ g.Walk x (x :: v) c := by
  induction u generalizing a with
  | nil =>
    rw [List.nil_append] at h
    cases h with
    | single => exact ⟨.single _, .single _⟩
    | cons he hw => exact ⟨.single _, .cons he hw⟩
  | cons y u ih =>
    rw [List.cons_append] at h
    cases hw : u ++ x :: v with
    | nil => simp at hw
    | cons z t =>
      rw [hw] at h
      cases h with
      | cons he htail =>
        rw [← hw] at htail
        obtain ⟨h1, h2⟩ := ih htail
        exact ⟨.cons he h1, h2⟩

/-- The walk up to the first visit of `x`. -/
theorem exists_first {a c x : β} {w : List β} (h : g.Walk a w c) (hx : x ∈ w) :
    ∃ u v, w = u ++ x :: v ∧ x ∉ u ∧ g.Walk a (u ++ [x]) x ∧ g.Walk x (x :: v) c := by
  obtain ⟨u, v, rfl, hu⟩ := List.eq_append_cons_of_mem hx
  exact ⟨u, v, rfl, hu, h.split⟩

/-- A walk ends with its target. -/
theorem exists_concat {a c : β} {w : List β} (h : g.Walk a w c) : ∃ u, w = u ++ [c] := by
  induction h with
  | single a => exact ⟨[], rfl⟩
  | @cons a _ _ _ _ _ ih =>
    obtain ⟨u, rfl⟩ := ih
    exact ⟨a :: u, rfl⟩

/-- A walk does not leave a set closed under edges. -/
theorem mem_of_closed {a c : β} {w S : List β} (h : g.Walk a w c) (hS : ∀ x ∈ S, ∀ y ∈ g.succs x, y ∈ S)
    (ha : a ∈ S) : c ∈ S := by
  induction h with
  | single => exact ha
  | cons he _ ih => exact ih (hS _ ha _ he)

/-- What a walk visits is reached by its beginning. -/
theorem reachable_of_mem {c x : β} {w : List β} (h : g.Walk g.entry w c) (hx : x ∈ w) : g.Reachable x := by
  obtain ⟨u, v, -, -, hu, -⟩ := h.exists_first hx
  exact ⟨_, hu⟩

/-- A walk splits between two nodes. -/
theorem split_step {a b c : β} {u v : List β} (h : g.Walk a (u ++ b :: v) c) (hu : u ≠ []) :
    ∃ e, g.Walk a u e ∧ b ∈ g.succs e ∧ g.Walk b (b :: v) c := by
  rcases List.eq_nil_or_concat u with rfl | ⟨u', e, rfl⟩
  · exact absurd rfl hu
  · rw [List.concat_eq_append, List.append_assoc, List.singleton_append] at h
    obtain ⟨h1, h2⟩ := h.split
    obtain ⟨he, hv⟩ := h2.step
    exact ⟨e, by rwa [List.concat_eq_append], he, hv⟩

/-- A cycle can be inserted where the walk passes. -/
theorem pump {a c y : β} {u v m : List β} (hw : g.Walk a (u ++ y :: v) c) (hm : g.Walk y (y :: m) y) :
    g.Walk a (u ++ y :: (m ++ v)) c := by
  obtain ⟨hu, hv⟩ := hw.split
  have hwhole := hu.append (hm.append hv)
  rwa [List.append_assoc, List.singleton_append] at hwhole

/-- A cycle can be walked any number of times in front of a walk. -/
theorem rounds {a e : β} {p r : List β} (hp : g.Walk a (a :: p) e) (hr : g.Walk a (a :: r) a) (k : Nat) :
    g.Walk a (a :: ((List.replicate k r).flatten ++ p)) e := by
  induction k with
  | zero => exact hp
  | succ k ih =>
    rw [List.replicate_succ, List.flatten_cons, List.append_assoc]
    exact pump (u := []) ih hr

/-- Cycles can be cut out until no node is visited twice. -/
theorem exists_nodup {a c : β} {w : List β} (h : g.Walk a w c) : ∃ v, g.Walk a v c ∧ v.Nodup ∧ v ⊆ w := by
  induction h with
  | single a => exact ⟨[a], .single a, by simp, List.Subset.refl _⟩
  | @cons a b c w he _ ih =>
    obtain ⟨v, hv, hnodup, hsub⟩ := ih
    by_cases ha : a ∈ v
    · obtain ⟨u, t, rfl⟩ := List.append_of_mem ha
      refine ⟨a :: t, hv.split.2, (List.nodup_append.mp hnodup).2.1, fun x hx => ?_⟩
      exact List.mem_cons_of_mem a (hsub (List.mem_append_right u hx))
    · refine ⟨a :: v, .cons he hv, List.nodup_cons.mpr ⟨ha, hnodup⟩, fun x hx => ?_⟩
      rcases List.mem_cons.mp hx with rfl | hx
      · exact List.mem_cons_self
      · exact List.mem_cons_of_mem a (hsub hx)

end Walk

/-! ### Dominance -/

theorem Dominates.refl (a : β) : g.Dominates a a := fun _ hw => hw.target_mem

theorem PostDominates.refl {root : β → Prop} (a : β) : g.PostDominates root a a := fun _ _ _ hw => hw.source_mem

theorem Dominates.trans {a b c : β} (hab : g.Dominates a b) (hbc : g.Dominates b c) : g.Dominates a c := by
  intro w hw
  obtain ⟨u, v, rfl, -, hu, -⟩ := hw.exists_first (hbc w hw)
  have ha := hab _ hu
  simp only [List.mem_append, List.mem_cons, List.not_mem_nil, or_false] at ha ⊢
  tauto

theorem PostDominates.trans {root : β → Prop} {a b c : β} (hab : g.PostDominates root a b)
    (hbc : g.PostDominates root b c) : g.PostDominates root a c := by
  intro z hz w hw
  obtain ⟨u, v, rfl, -, -, hv⟩ := hw.exists_first (hbc z hz w hw)
  exact List.mem_append_right u (hab z hz _ hv)

/-! ### Nodes visited equally often -/

/-- Every cycle through `a` visits `x`. -/
def EveryCycleVisits (g : FlowGraph β) (a x : β) : Prop := ∀ w, g.Walk a (a :: w) a → w ≠ [] → x ∈ a :: w

/-- In the list the visits of `b` and `x` alternate, from a first `b` to a last `x`. -/
structure Alternates (b x : β) (w : List β) : Prop where
  before : ∀ u v, w = u ++ x :: v → b ∈ u
  after : ∀ u v, w = u ++ b :: v → x ∈ v
  between : ∀ u m v, w = u ++ b :: (m ++ b :: v) → x ∈ m
  between' : ∀ u m v, w = u ++ x :: (m ++ x :: v) → b ∈ m

/-- After the first visit of each the visits alternate again. -/
private theorem Alternates.tail {b x : β} {u m v : List β} (h : Alternates b x (u ++ b :: (m ++ x :: v))) :
    Alternates b x v where
  before := by
    intro u' v' hv
    exact h.between' (u ++ b :: m) u' v' (by simp [hv])
  after := by
    intro u' v' hv
    exact h.after (u ++ b :: (m ++ x :: u')) v' (by simp [hv])
  between := by
    intro u' m' v' hv
    exact h.between (u ++ b :: (m ++ x :: u')) m' v' (by simp [hv])
  between' := by
    intro u' m' v' hv
    exact h.between' (u ++ b :: (m ++ x :: u')) m' v' (by simp [hv])

/-- Alternating visits are equally many. -/
theorem Alternates.count_eq [DecidableEq β] {b x : β} (hne : b ≠ x) {w : List β} (h : Alternates b x w) :
    w.count b = w.count x := by
  induction hn : w.length using Nat.strongRecOn generalizing w with
  | _ n ih =>
    by_cases hb : b ∈ w
    · obtain ⟨u, t, rfl, hbu⟩ := List.eq_append_cons_of_mem hb
      have hxu : x ∉ u := by
        intro hxu
        obtain ⟨u1, u2, rfl⟩ := List.append_of_mem hxu
        have hbu1 := h.before u1 (u2 ++ b :: t) (by simp)
        exact hbu (List.mem_append_left _ hbu1)
      obtain ⟨m, v, rfl, hxm⟩ := List.eq_append_cons_of_mem (h.after u t rfl)
      have hbm : b ∉ m := by
        intro hbm
        obtain ⟨m1, m2, rfl⟩ := List.append_of_mem hbm
        have hxm1 := h.between u m1 (m2 ++ x :: v) (by simp)
        exact hxm (List.mem_append_left _ hxm1)
      have hrest : v.count b = v.count x := by
        refine ih v.length ?_ h.tail rfl
        simp only [List.length_append, List.length_cons] at hn
        omega
      have hxb : x ≠ b := hne.symm
      simp [List.count_append, List.count_eq_zero_of_not_mem, hbu, hxu, hbm, hxm, hne, hxb, hrest]
    · have hx : x ∉ w := by
        intro hx
        obtain ⟨u, v, rfl⟩ := List.append_of_mem hx
        exact hb (List.mem_append_left _ (h.before u v rfl))
      rw [List.count_eq_zero_of_not_mem hb, List.count_eq_zero_of_not_mem hx]

/-- A cycle inside a walk. -/
theorem Walk.cycle {a c x : β} {u m v : List β} (h : g.Walk a (u ++ x :: (m ++ x :: v)) c) :
    g.Walk x (x :: (m ++ [x])) x := by
  have htail := h.split.2
  rw [← List.cons_append] at htail
  exact htail.split.1

/-- The visits of `b` and `x` on the way to a root alternate when every cycle visits both or none. -/
theorem Walk.alternates {root : β → Prop} {b x z : β} {w : List β} (hne : b ≠ x) (hdom : g.Dominates b x)
    (hpdom : g.PostDominates root x b) (hbx : g.EveryCycleVisits b x) (hxb : g.EveryCycleVisits x b)
    (hw : g.Walk g.entry w z) (hz : root z) : Alternates b x w where
  before := by
    rintro u v rfl
    have hmem := hdom _ hw.split.1
    rcases List.mem_append.mp hmem with h | h
    · exact h
    · exact absurd (List.mem_singleton.mp h) hne
  after := by
    rintro u v rfl
    have hmem := hpdom z hz _ hw.split.2
    rcases List.mem_cons.mp hmem with h | h
    · exact absurd h.symm hne
    · exact h
  between := by
    rintro u m v rfl
    have hmem := hbx _ hw.cycle (by simp)
    simp only [List.mem_cons, List.mem_append, List.not_mem_nil, or_false] at hmem
    rcases hmem with h | h | h
    · exact absurd h.symm hne
    · exact h
    · exact absurd h.symm hne
  between' := by
    rintro u m v rfl
    have hmem := hxb _ hw.cycle (by simp)
    simp only [List.mem_cons, List.mem_append, List.not_mem_nil, or_false] at hmem
    rcases hmem with h | h | h
    · exact absurd h hne
    · exact h
    · exact absurd h hne

section count

variable [DecidableEq β] {root : β → Prop} {b x : β}

/-- A dominator and its post-dominator are visited equally often when no cycle visits one of them only. -/
theorem count_eq_of_cycles (hdom : g.Dominates b x) (hpdom : g.PostDominates root x b)
    (hbx : g.EveryCycleVisits b x) (hxb : g.EveryCycleVisits x b) {w : List β} {z : β} (hw : g.Walk g.entry w z)
    (hz : root z) : w.count b = w.count x := by
  by_cases hne : b = x
  · rw [hne]
  · exact (hw.alternates hne hdom hpdom hbx hxb hz).count_eq hne

/-- Nodes visited equally often by all complete walks, one of which visits them, share their cycles. -/
theorem everyCycleVisits_of_count_eq (hcount : ∀ w, g.Complete w → w.count b = w.count x)
    (hb : ∃ w, g.Complete w ∧ b ∈ w) : g.EveryCycleVisits b x := by
  intro c hc hne
  by_contra hx
  obtain ⟨w, ⟨z, hz, hw⟩, hbw⟩ := hb
  obtain ⟨u, v, rfl⟩ := List.append_of_mem hbw
  have h1 := hcount _ ⟨z, hz, hw⟩
  have h2 := hcount _ ⟨z, hz, hw.pump hc⟩
  simp only [List.count_append, List.count_cons] at h1 h2
  have hxc : c.count x = 0 := List.count_eq_zero_of_not_mem fun h => hx (List.mem_cons_of_mem b h)
  have hbc : 0 < c.count b := by
    cases hc with
    | single => exact absurd rfl hne
    | cons _ hc => exact List.count_pos_iff.mpr hc.target_mem
  omega

end count

/-! ### Deciding dominance on a concrete graph -/

section decide

variable [DecidableEq β]

/-- The nodes reached from `s` by a walk that avoids `a` and has at most `n` steps. -/
def reachAvoiding (g : FlowGraph β) (a : β) : Nat → β → List β
  | 0, s => if s = a then [] else [s]
  | n + 1, s => if s = a then [] else s :: (g.succs s).flatMap (g.reachAvoiding a n)

/-- The list is closed under the steps that avoid `a`. -/
def ClosedAvoiding (g : FlowGraph β) (a : β) (S : List β) : Prop := ∀ s ∈ S, ∀ t ∈ g.succs s, t ≠ a → t ∈ S

instance (g : FlowGraph β) (a : β) (S : List β) : Decidable (g.ClosedAvoiding a S) :=
  inferInstanceAs (Decidable (∀ s ∈ S, ∀ t ∈ g.succs s, t ≠ a → t ∈ S))

theorem exists_walk_of_mem_reachAvoiding {a s x : β} {n : Nat} (h : x ∈ g.reachAvoiding a n s) :
    ∃ w, g.Walk s w x ∧ a ∉ w := by
  induction n generalizing s with
  | zero =>
    unfold reachAvoiding at h
    split at h
    · simp at h
    · rename_i hsa
      rw [List.mem_singleton.mp h]
      exact ⟨[s], .single s, fun hmem => hsa (List.mem_singleton.mp hmem).symm⟩
  | succ n ih =>
    unfold reachAvoiding at h
    split at h
    · simp at h
    · rename_i hsa
      rcases List.mem_cons.mp h with rfl | h
      · exact ⟨[x], .single x, fun hmem => hsa (List.mem_singleton.mp hmem).symm⟩
      · obtain ⟨t, ht, hx⟩ := List.mem_flatMap.mp h
        obtain ⟨w, hw, haw⟩ := ih hx
        refine ⟨s :: w, .cons ht hw, fun hmem => ?_⟩
        rcases List.mem_cons.mp hmem with rfl | hmem
        · exact hsa rfl
        · exact haw hmem

omit [DecidableEq β] in
/-- A closed list that holds the start of a walk holds its end. -/
theorem mem_of_closedAvoiding {a s x : β} {S w : List β} (hS : g.ClosedAvoiding a S) (hs : s ∈ S)
    (hw : g.Walk s w x) (ha : a ∉ w) : x ∈ S := by
  induction hw with
  | single => exact hs
  | cons he hw ih =>
    have haw := fun h => ha (List.mem_cons_of_mem _ h)
    refine ih (hS _ hs _ he fun heq => haw (heq ▸ hw.source_mem)) haw

/-- When the list is closed it holds exactly the nodes that walks avoiding `a` reach. -/
theorem mem_reachAvoiding_iff {a s x : β} {n : Nat} (hclosed : g.ClosedAvoiding a (g.reachAvoiding a n s)) :
    x ∈ g.reachAvoiding a n s ↔ ∃ w, g.Walk s w x ∧ a ∉ w := by
  refine ⟨exists_walk_of_mem_reachAvoiding, fun ⟨w, hw, ha⟩ => ?_⟩
  have hsa : s ≠ a := fun h => ha (h ▸ hw.source_mem)
  refine mem_of_closedAvoiding hclosed ?_ hw ha
  cases n <;> simp [reachAvoiding, hsa]

theorem dominates_iff_not_mem_reachAvoiding {a x : β} {n : Nat}
    (hclosed : g.ClosedAvoiding a (g.reachAvoiding a n g.entry)) :
    g.Dominates a x ↔ x ∉ g.reachAvoiding a n g.entry := by
  rw [mem_reachAvoiding_iff hclosed]
  unfold Dominates
  push Not
  rfl

theorem postDominates_iff_not_mem_reachAvoiding {root : β → Prop} {a x : β} {n : Nat}
    (hclosed : g.ClosedAvoiding a (g.reachAvoiding a n x)) :
    g.PostDominates root a x ↔ ∀ z, root z → z ∉ g.reachAvoiding a n x := by
  simp only [mem_reachAvoiding_iff hclosed]
  unfold PostDominates
  push Not
  rfl

end decide

end FlowGraph
