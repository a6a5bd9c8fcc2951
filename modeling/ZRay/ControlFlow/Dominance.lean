import ZRay.ControlFlow.Walk

/-!
# Dominators and post-dominators of a node

The dominators of a reachable node form a chain, and so do the post-dominators of a node that reaches a root; neither
relation has two different nodes in both directions.  The key fact about both together: when `c` dominates `x`, `x`
dominates `y`, and `y` post-dominates `c`, then `x` lies between them in the post-dominator order as well
(`postDominates_of_between`).
-/

namespace FlowGraph

variable {β : Type*} {g : FlowGraph β} {root : β → Prop} {a b c x y : β}

/-! ### First and last visits -/

/-- The first node of a list with a property. -/
private theorem exists_first_of {P : β → Prop} {w : List β} (h : ∃ y ∈ w, P y) :
    ∃ u y v, w = u ++ y :: v ∧ P y ∧ ∀ z ∈ u, ¬ P z := by
  induction w with
  | nil => simp at h
  | cons s w ih =>
    by_cases hs : P s
    · exact ⟨[], s, w, rfl, hs, by simp⟩
    · obtain ⟨y, hy, hP⟩ := h
      have hmem : y ∈ w := by
        rcases List.mem_cons.mp hy with rfl | hy
        · exact absurd hP hs
        · exact hy
      obtain ⟨u, y', v, rfl, hP', hu⟩ := ih ⟨y, hmem, hP⟩
      refine ⟨s :: u, y', v, rfl, hP', fun z hz => ?_⟩
      rcases List.mem_cons.mp hz with rfl | hz
      · exact hs
      · exact hu z hz

/-- The last node of a list with a property. -/
private theorem exists_last_of {P : β → Prop} {w : List β} (h : ∃ y ∈ w, P y) :
    ∃ u y v, w = u ++ y :: v ∧ P y ∧ ∀ z ∈ v, ¬ P z := by
  obtain ⟨y, hy, hP⟩ := h
  obtain ⟨u, y', v, hrev, hP', hu⟩ := exists_first_of (w := w.reverse) ⟨y, List.mem_reverse.mpr hy, hP⟩
  refine ⟨v.reverse, y', u.reverse, ?_, hP', fun z hz => hu z (List.mem_reverse.mp hz)⟩
  have hw := congrArg List.reverse hrev
  simpa using hw

/-- A reachable dominator is reached by a walk without the node it dominates. -/
theorem Dominates.exists_walk_without (hab : g.Dominates a b) (hne : a ≠ b) (ha : g.Reachable a) :
    ∃ w, g.Walk g.entry w a ∧ b ∉ w := by
  obtain ⟨w, hw⟩ := ha
  obtain ⟨u, v, rfl, hu, hwa, -⟩ := hw.exists_first hw.target_mem
  refine ⟨u ++ [a], hwa, fun hb => ?_⟩
  rcases List.mem_append.mp hb with hb | hb
  · -- on the way to `b` there would be an earlier visit of `a`
    obtain ⟨p, q, rfl⟩ := List.append_of_mem hb
    rw [List.append_assoc, List.cons_append] at hwa
    rcases List.mem_append.mp (hab _ hwa.split.1) with ha | ha
    · exact hu (List.mem_append_left _ ha)
    · exact hne (List.mem_singleton.mp ha)
  · exact hne (List.mem_singleton.mp hb).symm

/-- A walk to a root goes on from a post-dominator without the node it post-dominates. -/
theorem PostDominates.exists_walk_without (hab : g.PostDominates root a b) (hne : a ≠ b) {z : β} (hz : root z)
    {w : List β} (hw : g.Walk a w z) : ∃ v, g.Walk a v z ∧ b ∉ v := by
  obtain ⟨u, y, v, rfl, rfl, hv⟩ := exists_last_of (P := (· = a)) ⟨a, hw.source_mem, rfl⟩
  have htail := hw.split.2
  refine ⟨y :: v, htail, fun hb => ?_⟩
  rcases List.mem_cons.mp hb with rfl | hb
  · exact hne rfl
  · -- behind `b` there would be a later visit of `a`
    obtain ⟨p, q, rfl⟩ := List.append_of_mem hb
    rw [← List.cons_append] at htail
    rcases List.mem_cons.mp (hab z hz _ htail.split.2) with ha | ha
    · exact hne ha
    · exact hv y (List.mem_append_right p (List.mem_cons_of_mem b ha)) rfl

/-! ### No two nodes in both directions -/

theorem Dominates.antisymm (hab : g.Dominates a b) (hba : g.Dominates b a) (ha : g.Reachable a) : a = b := by
  by_contra hne
  obtain ⟨w, hw, hb⟩ := hab.exists_walk_without hne ha
  exact hb (hba w hw)

theorem PostDominates.antisymm (hab : g.PostDominates root a b) (hba : g.PostDominates root b a) {z : β} (hz : root z)
    {w : List β} (hw : g.Walk a w z) : a = b := by
  by_contra hne
  obtain ⟨v, hv, hb⟩ := hab.exists_walk_without hne hz hw
  exact hb (hba z hz v hv)

/-! ### Chains -/

/-- The dominators of a reachable node form a chain. -/
theorem Dominates.total (ha : g.Dominates a x) (hb : g.Dominates b x) (hx : g.Reachable x) :
    g.Dominates a b ∨ g.Dominates b a := by
  by_contra hno
  rw [not_or] at hno
  obtain ⟨hab, hba⟩ := hno
  unfold Dominates at hab hba
  push Not at hab hba
  obtain ⟨p, hp, hap⟩ := hab
  obtain ⟨q, hq, hbq⟩ := hba
  obtain ⟨w, hw⟩ := hx
  -- the way to `x` from the last visit of `a` or `b`, reached without the other
  obtain ⟨u, y, v, rfl, hy, hv⟩ := exists_last_of (P := fun y => y = a ∨ y = b) ⟨a, ha w hw, .inl rfl⟩
  have htail := hw.split.2
  rcases hy with rfl | rfl
  · rcases List.mem_append.mp (hb _ (hq.append htail)) with h | h
    · exact hbq h
    · exact hv b h (.inr rfl)
  · rcases List.mem_append.mp (ha _ (hp.append htail)) with h | h
    · exact hap h
    · exact hv a h (.inl rfl)

/-- The post-dominators of a node that reaches a root form a chain. -/
theorem PostDominates.total (ha : g.PostDominates root a x) (hb : g.PostDominates root b x) {z : β} (hz : root z)
    {w : List β} (hw : g.Walk x w z) : g.PostDominates root a b ∨ g.PostDominates root b a := by
  by_contra hno
  rw [not_or] at hno
  obtain ⟨hab, hba⟩ := hno
  unfold PostDominates at hab hba
  push Not at hab hba
  obtain ⟨z₁, hz₁, p, hp, hap⟩ := hab
  obtain ⟨z₂, hz₂, q, hq, hbq⟩ := hba
  -- the way from `x` to the first visit of `a` or `b`, and on without the other
  obtain ⟨u, y, v, rfl, hy, hu⟩ := exists_first_of (P := fun y => y = a ∨ y = b) ⟨a, ha z hz w hw, .inl rfl⟩
  have hhead := hw.split.1
  rcases hy with rfl | rfl
  · obtain ⟨q', rfl⟩ := hq.exists_cons
    rcases List.mem_append.mp (hb z₂ hz₂ _ (hhead.append hq)) with h | h
    · rcases List.mem_append.mp h with h | h
      · exact hu b h (.inr rfl)
      · exact hbq (List.mem_singleton.mp h ▸ List.mem_cons_self)
    · exact hbq (List.mem_cons_of_mem _ h)
  · obtain ⟨p', rfl⟩ := hp.exists_cons
    rcases List.mem_append.mp (ha z₁ hz₁ _ (hhead.append hp)) with h | h
    · rcases List.mem_append.mp h with h | h
      · exact hu a h (.inl rfl)
      · exact hap (List.mem_singleton.mp h ▸ List.mem_cons_self)
    · exact hap (List.mem_cons_of_mem _ h)

/-! ### Both relations together -/

/-- A node between `c` and `y` in the dominator order post-dominates `c` when `y` does. -/
theorem postDominates_of_between (hcx : g.Dominates c x) (hxy : g.Dominates x y) (hyc : g.PostDominates root y c)
    (hc : g.Reachable c) : g.PostDominates root x c := by
  by_cases hne : c = x
  · subst hne
    exact .refl c
  intro z hz w hw
  obtain ⟨u, hu, hxu⟩ := hcx.exists_walk_without hne hc
  obtain ⟨p, q, rfl, -, hp, -⟩ := hw.exists_first (hyc z hz w hw)
  -- the way to `y` past `c` has `x` behind `c`
  obtain ⟨v, hv⟩ := hp.exists_cons
  rw [hv] at hp
  rcases List.mem_append.mp (hxy _ (hu.append hp)) with h | h
  · exact absurd h hxu
  · have hmem : x ∈ p ++ [y] := hv ▸ List.mem_cons_of_mem c h
    simp only [List.mem_append, List.mem_cons, List.not_mem_nil, or_false] at hmem ⊢
    tauto

/-- A node `y` that `c` dominates is dominated by the post-dominators of `c` that it post-dominates. -/
theorem dominates_of_postDominates (hcy : g.Dominates c y) (hxc : g.PostDominates root x c)
    (hyx : g.PostDominates root y x) {z : β} (hz : root z) {w : List β} (hw : g.Walk x w z) : g.Dominates x y := by
  by_cases hne : x = y
  · subst hne
    exact .refl x
  intro u hu
  by_contra hxu
  -- from `y`, reached past `c` without `x`, every way to a root visits `x`
  have hxy : g.PostDominates root x y := by
    intro z' hz' v hv
    obtain ⟨p, q, rfl, -, -, hq⟩ := hu.exists_first (hcy u hu)
    obtain ⟨v', rfl⟩ := hv.exists_cons
    rcases List.mem_append.mp (hxc z' hz' _ (hq.append hv)) with h | h
    · exact absurd (List.mem_append_right p h) hxu
    · exact List.mem_cons_of_mem y h
  exact hne (hxy.antisymm hyx hz hw)

end FlowGraph
