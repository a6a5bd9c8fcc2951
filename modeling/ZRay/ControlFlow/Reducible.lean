import Mathlib.Data.List.MinMax
import ZRay.ControlFlow.Loops

/-!
# Reducible graphs

The loops of a reducible graph: natural loops, any two of which are nested or disjoint, such that every edge that does
not go up in some order goes back to the header of a loop it lies in.  Then every cycle runs in one of the loops and
visits its header (`LoopNest.exists_loop_of_cycle`).  So nothing happens twice without the header in between: a node
directly in a loop is visited at most as often as the header (`LoopNest.count_le_header`), and a loop directly inside
another is entered at most as often as the header of the other is visited (`LoopNest.length_stretches_le_count`).
-/

namespace FlowGraph

variable {β ι : Type*}

/-- The loops with the given headers and nodes, and an order that only the edges back to their headers go against. -/
structure LoopNest (g : FlowGraph β) (loops : List ι) (header : ι → β) (nodes : ι → List β) (rank : β → Nat) :
    Prop where
  natural : ∀ L ∈ loops, g.NaturalLoop (header L) (nodes L)
  nested : ∀ L ∈ loops, ∀ M ∈ loops, L = M ∨ (nodes L).Disjoint (nodes M) ∨
    (nodes L ⊆ nodes M ∧ header M ∉ nodes L) ∨ (nodes M ⊆ nodes L ∧ header L ∉ nodes M)
  retreating : ∀ u, g.Reachable u → ∀ v ∈ g.succs u, rank u < rank v ∨ ∃ L ∈ loops, v = header L ∧ u ∈ nodes L

/-- The loop is the innermost one around the node. -/
def DirectlyIn (loops : List ι) (nodes : ι → List β) (L : ι) (x : β) : Prop :=
  x ∈ nodes L ∧ ∀ M ∈ loops, x ∈ nodes M → nodes L ⊆ nodes M

/-- The inner loop lies in the outer one, with no loop between. -/
structure DirectlyInside (loops : List ι) (header : ι → β) (nodes : ι → List β) (outer inner : ι) : Prop where
  subset : nodes inner ⊆ nodes outer
  header_not_mem : header outer ∉ nodes inner
  between : ∀ M ∈ loops, nodes inner ⊆ nodes M → M = inner ∨ nodes outer ⊆ nodes M

variable {g : FlowGraph β}

/-! ### Walking around a cycle -/

namespace Walk

/-- From every node of a cycle the walk comes to every other. -/
theorem exists_within_cycle {a x y : β} {c : List β} (h : g.Walk a (a :: c) a) (hx : x ∈ a :: c) (hy : y ∈ a :: c) :
    ∃ w, g.Walk x w y ∧ ∀ z ∈ w, z ∈ a :: c := by
  obtain ⟨u, v, huv, -, -, hxa⟩ := h.exists_first hx
  obtain ⟨p, q, hpq, -, hay, -⟩ := h.exists_first hy
  have hax : ∀ z ∈ x :: v, z ∈ a :: c := fun z hz => by
    rw [huv]
    exact List.mem_append_right u hz
  have hya : ∀ z ∈ p ++ [y], z ∈ a :: c := fun z hz => by
    rw [hpq]
    simp only [List.mem_append, List.mem_cons, List.not_mem_nil, or_false] at hz ⊢
    tauto
  obtain ⟨t, ht⟩ := hay.exists_cons
  rw [ht] at hay hya
  refine ⟨_, hxa.append hay, fun z hz => ?_⟩
  rcases List.mem_append.mp hz with hz | hz
  · exact hax z hz
  · exact hya z (List.mem_cons_of_mem a hz)

/-- Every node of a cycle has a predecessor in it. -/
theorem exists_pred_of_cycle {a x : β} {c : List β} (h : g.Walk a (a :: c) a) (hne : c ≠ []) (hx : x ∈ a :: c) :
    ∃ u ∈ a :: c, x ∈ g.succs u := by
  have hxc : x ∈ c := by
    rcases List.mem_cons.mp hx with rfl | hx
    · cases h with
      | single => exact absurd rfl hne
      | cons _ h => exact h.target_mem
    · exact hx
  obtain ⟨p, q, rfl⟩ := List.append_of_mem hxc
  rw [← List.cons_append] at h
  obtain ⟨u, hu, hxu, -⟩ := h.split_step (by simp)
  exact ⟨u, List.mem_append_left _ hu.target_mem, hxu⟩

/-- A walk that comes into a set from outside does so along an edge. -/
theorem exists_edge_into {x y : β} {w B : List β} (h : g.Walk x w y) (hx : x ∉ B) (hy : y ∈ B) :
    ∃ u ∈ w, ∃ v ∈ w, v ∈ g.succs u ∧ u ∉ B ∧ v ∈ B := by
  induction h with
  | single => exact absurd hy hx
  | @cons a b _ w he hw ih =>
    by_cases hb : b ∈ B
    · exact ⟨a, List.mem_cons_self, b, List.mem_cons_of_mem a hw.source_mem, he, hx, hb⟩
    · obtain ⟨u, hu, v, hv, huv⟩ := ih hb hy
      exact ⟨u, List.mem_cons_of_mem a hu, v, List.mem_cons_of_mem a hv, huv⟩

end Walk

/-! ### Cycles -/

section nest

variable {loops : List ι} {header : ι → β} {nodes : ι → List β} {rank : β → Nat}

/-- A node is the header of one loop at most. -/
theorem LoopNest.eq_of_header_eq (h : g.LoopNest loops header nodes rank) {L M : ι} (hL : L ∈ loops) (hM : M ∈ loops)
    (heq : header L = header M) : L = M := by
  have hLm := (h.natural L hL).header_mem
  have hMm := (h.natural M hM).header_mem
  rcases h.nested L hL M hM with hsame | hdisj | ⟨-, hout⟩ | ⟨-, hout⟩
  · exact hsame
  · exact absurd (heq ▸ hMm) (hdisj hLm)
  · exact absurd (heq ▸ hLm) hout
  · exact absurd (heq ▸ hMm) hout

/-- A cycle runs in a loop and visits its header. -/
theorem LoopNest.exists_loop_of_cycle (h : g.LoopNest loops header nodes rank) {a : β} {c : List β}
    (ha : g.Reachable a) (hc : g.Walk a (a :: c) a) (hne : c ≠ []) :
    ∃ L ∈ loops, header L ∈ a :: c ∧ ∀ x ∈ a :: c, x ∈ nodes L := by
  have hreach : ∀ x ∈ a :: c, g.Reachable x := by
    intro x hx
    obtain ⟨w, hw, -⟩ := hc.exists_within_cycle List.mem_cons_self hx
    obtain ⟨u, hu⟩ := ha
    obtain ⟨v, rfl⟩ := hw.exists_cons
    exact ⟨_, hu.append hw⟩
  -- the lowest node of the cycle is entered on a retreating edge
  obtain ⟨m, hm, hmin⟩ : ∃ m ∈ a :: c, ∀ x ∈ a :: c, rank m ≤ rank x := by
    obtain ⟨m, hm⟩ : ∃ m, (a :: c).argmin rank = some m :=
      Option.ne_none_iff_exists'.mp fun hnone => absurd (List.argmin_eq_none.mp hnone) (List.cons_ne_nil a c)
    exact ⟨m, List.argmin_mem hm, fun x hx => List.le_of_mem_argmin hx hm⟩
  obtain ⟨u, hu, hmu⟩ := hc.exists_pred_of_cycle hne hm
  obtain ⟨L, hL, rfl, huL⟩ : ∃ L ∈ loops, m = header L ∧ u ∈ nodes L := by
    rcases h.retreating u (hreach u hu) m hmu with hlt | hback
    · have hle := hmin u hu
      omega
    · exact hback
  refine ⟨L, hL, hm, fun y hy => ?_⟩
  by_contra hyL
  -- from outside, the cycle comes back into the loop at the header
  obtain ⟨w, hw, hsub⟩ := hc.exists_within_cycle hy hu
  obtain ⟨p, hp, q, -, hqp, hpL, hqL⟩ := hw.exists_edge_into hyL huL
  have hq : q = header L := (h.natural L hL).single_entry p (hreach p (hsub p hp)) hpL q hqp hqL
  subst hq
  rcases h.retreating p (hreach p (hsub p hp)) _ hqp with hlt | ⟨M, hM, heq, hpM⟩
  · have hle := hmin p (hsub p hp)
    omega
  · have hLM := h.eq_of_header_eq hL hM heq
    exact hpL (hLM ▸ hpM)

/-- A cycle through a node directly in a loop visits the header. -/
theorem LoopNest.header_mem_of_cycle (h : g.LoopNest loops header nodes rank) {L : ι} (hL : L ∈ loops) {x : β}
    (hx : DirectlyIn loops nodes L x) (hreach : g.Reachable x) {c : List β} (hc : g.Walk x (x :: c) x)
    (hne : c ≠ []) :
    header L ∈ x :: c := by
  obtain ⟨M, hM, hhM, hsub⟩ := h.exists_loop_of_cycle hreach hc hne
  have hxM : x ∈ nodes M := hsub x List.mem_cons_self
  rcases h.nested L hL M hM with rfl | hdisj | ⟨-, hout⟩ | ⟨-, hout⟩
  · exact hhM
  · exact absurd hxM (hdisj hx.1)
  · -- the header of the outer loop is on the cycle, which comes back through the header of the inner one
    have hne' : header M ≠ x := fun heq => hout (heq ▸ hx.1)
    obtain ⟨w, hw, hw'⟩ := hc.exists_within_cycle hhM List.mem_cons_self
    have hreachM : g.Reachable (header M) := (h.natural M hM).header_reachable
    exact hw' _ ((h.natural L hL).header_mem_of_walk hw hreachM hout hx.1)
  · exact absurd (hx.2 M hM hxM (h.natural L hL).header_mem) hout

/-- A dominator in the same loops is on every cycle of the node. -/
theorem LoopNest.everyCycleVisits (h : g.LoopNest loops header nodes rank) {b x : β} (hdom : g.Dominates b x)
    (hreach : g.Reachable x) (hsame : ∀ M ∈ loops, x ∈ nodes M → b ∈ nodes M) : g.EveryCycleVisits x b := by
  intro c hc hne
  obtain ⟨M, hM, hhM, hsub⟩ := h.exists_loop_of_cycle hreach hc hne
  have hb : b ∈ nodes M := hsame M hM (hsub x List.mem_cons_self)
  -- in front of the header no node of the loop is visited, so the dominator is behind it
  obtain ⟨u, hu, hout⟩ := (h.natural M hM).exists_entry
  obtain ⟨w, hw, hw'⟩ := hc.exists_within_cycle hhM List.mem_cons_self
  obtain ⟨v, rfl⟩ := hw.exists_cons
  have hmem := hdom _ (hu.append hw)
  simp only [List.mem_append, List.mem_cons, List.not_mem_nil, or_false] at hmem
  rcases hmem with (hmem | hmem) | hmem
  · exact absurd hb (hout b hmem)
  · exact hw' b (hmem ▸ List.mem_cons_self)
  · exact hw' b (List.mem_cons_of_mem _ hmem)

end nest

/-! ### Counting -/

section count

variable [DecidableEq β]

/-- An element that never stands without `a` in front, since the last time it stood there, is no more frequent. -/
theorem count_le_of_between {a x : β} {w : List β} (hbefore : ∀ u v, w = u ++ x :: v → a ∈ u)
    (hbetween : ∀ u m v, w = u ++ x :: (m ++ x :: v) → a ∈ m) : w.count x ≤ w.count a := by
  induction hn : w.length using Nat.strongRecOn generalizing w with
  | _ n ih =>
    by_cases hx : x ∈ w
    · obtain ⟨u, v, rfl, hxu⟩ := List.eq_append_cons_of_mem hx
      have hrest : v.count x ≤ v.count a := by
        refine ih v.length ?_ (fun u' v' hv => ?_) (fun u' m v' hv => ?_) rfl
        · simp only [List.length_append, List.length_cons] at hn
          omega
        · exact hbetween u u' v' (by rw [hv])
        · exact hbetween (u ++ x :: u') m v' (by simp [hv])
      have hau : 0 < u.count a := List.count_pos_iff.mpr (hbefore u v rfl)
      rw [List.count_append, List.count_append, List.count_cons_self, List.count_eq_zero_of_not_mem hxu]
      have hle : v.count a ≤ (x :: v).count a := by
        rw [List.count_cons]
        omega
      omega
    · rw [List.count_eq_zero_of_not_mem hx]
      exact Nat.zero_le _

/-- A node is visited at most as often as a dominator that is on all its cycles, at every moment of a run. -/
theorem Walk.count_le_of_dominates {b x z : β} {w : List β} (hw : g.Walk g.entry w z) (hdom : g.Dominates b x)
    (hcycle : g.EveryCycleVisits x b) : w.count x ≤ w.count b := by
  by_cases hne : b = x
  · rw [hne]
  · refine count_le_of_between (fun u v heq => ?_) (fun u m v heq => ?_)
    · subst heq
      have hmem := hdom _ hw.split.1
      rcases List.mem_append.mp hmem with hmem | hmem
      · exact hmem
      · exact absurd (List.mem_singleton.mp hmem) hne
    · subst heq
      have hmem := hcycle _ hw.cycle (by simp)
      simp only [List.mem_cons, List.mem_append, List.not_mem_nil, or_false] at hmem
      rcases hmem with hmem | hmem | hmem
      · exact absurd hmem hne
      · exact hmem
      · exact absurd hmem hne

/-- A stretch of a walk from the entry starts at the header and stays in the loop. -/
theorem NaturalLoop.walk_of_mem_stretches {h : β} {B : List β} (hB : g.NaturalLoop h B) {w s : List β} {z : β}
    (hw : g.Walk g.entry w z) (hs : s ∈ stretches (inLoop B) w) :
    ∃ t e, s = h :: t ∧ g.Walk h s e ∧ ∀ x ∈ s, x ∈ B := by
  obtain ⟨u, v, rfl, hne, hin, hu, -⟩ := mem_stretches_iff.mp hs
  have hinB : ∀ x ∈ s, x ∈ B := fun x hx => by simpa [inLoop] using hin x hx
  cases s with
  | nil => exact absurd rfl hne
  | cons x t =>
    have hx : x ∈ B := hinB x List.mem_cons_self
    have hstart : x = h ∧ g.Walk x ((x :: t) ++ v) z := by
      rcases List.eq_nil_or_concat u with rfl | ⟨u', e, rfl⟩
      · obtain ⟨w', hw'⟩ := hw.exists_cons
        rw [List.nil_append, List.cons_append, List.cons.injEq] at hw'
        exact absurd (hw'.1 ▸ hx) hB.entry_not_mem
      · have he : e ∉ B := by simpa [inLoop] using hu
        rw [List.concat_eq_append, List.append_assoc, List.singleton_append] at hw
        obtain ⟨hfirst, hrest⟩ := hw.split
        obtain ⟨hxe, hwalk⟩ := hrest.step
        exact ⟨hB.single_entry e ⟨_, hfirst⟩ he x hxe hx, hwalk⟩
    obtain ⟨rfl, hwalk⟩ := hstart
    cases v with
    | nil => exact ⟨t, z, rfl, by simpa using hwalk, hinB⟩
    | cons y v =>
      obtain ⟨e, he, -, -⟩ := hwalk.split_step (by simp)
      exact ⟨t, e, rfl, he, hinB⟩

/-- A quantity that adds up over the passes, and is at most 1 on each, is at most the number of passes. -/
theorem le_count_of_passes {h : β} {F : List β → Nat} (hadd : ∀ u v, F (u ++ h :: v) = F u + F (h :: v)) (t : List β)
    (hpass : ∀ u m v, h :: t = u ++ h :: (m ++ v) → h ∉ m → (v = [] ∨ ∃ v', v = h :: v') → F (h :: m) ≤ 1) :
    F (h :: t) ≤ (h :: t).count h := by
  induction hn : t.length using Nat.strongRecOn generalizing t with
  | _ n ih =>
    by_cases hmem : h ∈ t
    · obtain ⟨m, v, rfl, hm⟩ := List.eq_append_cons_of_mem hmem
      have hfirst := hpass [] m (h :: v) rfl hm (.inr ⟨v, rfl⟩)
      have hrest := ih v.length (by simp at hn; omega) v (fun u' m' v' heq hm' hv' =>
        hpass (h :: m ++ u') m' v' (by simp [heq]) hm' hv') rfl
      have hm0 : (h :: m).count h = 1 := by rw [List.count_cons_self, List.count_eq_zero_of_not_mem hm]
      rw [← List.cons_append, hadd, List.count_append, hm0]
      omega
    · have honly := hpass [] t [] (by simp) hmem (.inl rfl)
      rw [List.count_cons_self, List.count_eq_zero_of_not_mem hmem]
      omega

variable {loops : List ι} {header : ι → β} {nodes : ι → List β} {rank : β → Nat}

/-- On every entry a node directly in a loop is visited at most as often as the header. -/
theorem LoopNest.count_le_header (h : g.LoopNest loops header nodes rank) {L : ι} (hL : L ∈ loops) {x : β}
    (hx : DirectlyIn loops nodes L x) {w s : List β} {z : β} (hw : g.Walk g.entry w z)
    (hs : s ∈ stretches (inLoop (nodes L)) w) : s.count x ≤ s.count (header L) := by
  obtain ⟨t, e, rfl, hwalk, -⟩ := (h.natural L hL).walk_of_mem_stretches hw hs
  by_cases hne : header L = x
  · rw [hne]
  · have hreach : ∀ y ∈ header L :: t, g.Reachable y := by
      intro y hy
      obtain ⟨u, v, rfl, -⟩ := mem_stretches_iff.mp hs
      exact hw.reachable_of_mem (List.mem_append_right u (List.mem_append_left v hy))
    refine count_le_of_between (fun u v heq => ?_) (fun u m v heq => ?_)
    · cases u with
      | nil => exact absurd (List.cons.inj heq).1 hne
      | cons y u =>
        rw [(List.cons.inj heq).1]
        exact List.mem_cons_self
    · rw [heq] at hwalk
      have hmem := h.header_mem_of_cycle hL hx (hreach x (by simp [heq])) hwalk.cycle (by simp)
      simp only [List.mem_cons, List.mem_append, List.not_mem_nil, or_false] at hmem
      rcases hmem with hmem | hmem | hmem
      · exact absurd hmem hne
      · exact hmem
      · exact absurd hmem hne

/-- A pass of the outer loop enters the inner one at most once. -/
private theorem LoopNest.length_stretches_pass (h : g.LoopNest loops header nodes rank) {P C : ι} (hP : P ∈ loops)
    (hC : C ∈ loops) (hin : DirectlyInside loops header nodes P C) {m : List β} {l : β}
    (hwalk : g.Walk (header P) (header P :: m) l) (hm : header P ∉ m) (hsub : ∀ x ∈ header P :: m, x ∈ nodes P) :
    (stretches (inLoop (nodes C)) (header P :: m)).length ≤ 1 := by
  by_contra htwo
  obtain ⟨u, x, m', y, v, heq, hx, hy, hne, hm'⟩ := exists_return (Nat.lt_of_not_le htwo)
  have hxC : x ∈ nodes C := by simpa [inLoop] using hx
  have hyC : y ∈ nodes C := by simpa [inLoop] using hy
  have hm'C : ∀ z ∈ m', z ∉ nodes C := fun z hz => by simpa [inLoop] using hm' z hz
  have hreachP : g.Reachable (header P) := (h.natural P hP).header_reachable
  have hreach : ∀ z ∈ header P :: m, g.Reachable z := by
    intro z hz
    obtain ⟨w, hw⟩ := id hreachP
    rcases List.mem_cons.mp hz with rfl | hz
    · exact hreachP
    · exact (hw.append hwalk).reachable_of_mem (List.mem_append_right w hz)
  rw [heq] at hwalk
  -- both times the loop is entered at its header
  have hfirst : header C ∈ u ++ [x] :=
    (h.natural C hC).header_mem_of_walk hwalk.split.1 hreachP hin.header_not_mem hxC
  have hsecond : y = header C := by
    obtain ⟨m0, q, rfl⟩ := (List.eq_nil_or_concat m').resolve_left hne
    have hqC := hm'C q (by simp)
    have hstep : y ∈ g.succs q := by
      have htail := hwalk.split.2
      rw [List.concat_eq_append, List.append_assoc, List.singleton_append, ← List.cons_append] at htail
      exact htail.split.2.step.1
    exact (h.natural C hC).single_entry q (hreach q (by rw [heq]; simp)) hqC y hstep hyC
  subst hsecond
  obtain ⟨p, q, hpq⟩ := List.append_of_mem hfirst
  have hlist : header P :: m = p ++ header C :: ((q ++ m') ++ header C :: v) := by
    calc header P :: m = (u ++ [x]) ++ (m' ++ header C :: v) := by rw [heq]; simp
      _ = p ++ header C :: ((q ++ m') ++ header C :: v) := by rw [hpq]; simp
  rw [← heq, hlist] at hwalk
  -- so there is a cycle that leaves the inner loop and misses the header of the outer one
  have hcycle := hwalk.cycle
  have hmem : ∀ z ∈ header C :: ((q ++ m') ++ [header C]), z ∈ m := by
    have hneP : header C ≠ header P := fun heq' => hin.header_not_mem (heq' ▸ (h.natural C hC).header_mem)
    cases p with
    | nil => exact absurd (List.cons.inj hlist).1.symm hneP
    | cons a p =>
      intro z hz
      have hback : z ∈ header C :: ((q ++ m') ++ header C :: v) := by
        simp only [List.mem_append, List.mem_cons, List.not_mem_nil, or_false] at hz ⊢
        rcases hz with hz | hz | hz
        · exact .inl hz
        · exact .inr (.inl hz)
        · exact .inl hz
      rw [(List.cons.inj hlist).2]
      exact List.mem_append_right p hback
  obtain ⟨M, hM, hhM, hMsub⟩ := h.exists_loop_of_cycle (h.natural C hC).header_reachable hcycle (by simp)
  obtain ⟨z, hz⟩ := List.exists_mem_of_ne_nil m' hne
  have hzM : z ∈ nodes M := hMsub z (by simp [hz])
  have hCM : nodes C ⊆ nodes M := by
    rcases h.nested C hC M hM with rfl | hdisj | ⟨hsub', -⟩ | ⟨hsub', -⟩
    · exact absurd hzM (hm'C z hz)
    · exact absurd (hMsub _ List.mem_cons_self) (hdisj (h.natural C hC).header_mem)
    · exact hsub'
    · exact absurd (hsub' hzM) (hm'C z hz)
  rcases hin.between M hM hCM with rfl | hPM
  · exact hm'C z hz hzM
  · rcases h.nested P hP M hM with rfl | hdisj | ⟨-, hout⟩ | ⟨-, hout⟩
    · exact hm (hmem _ hhM)
    · exact hdisj (h.natural P hP).header_mem (hPM (h.natural P hP).header_mem)
    · exact hout (hsub _ (List.mem_cons_of_mem _ (hmem _ hhM)))
    · exact hout (hPM (h.natural P hP).header_mem)

/-- On every entry of the outer loop the inner one is entered at most as often as the outer header is visited. -/
theorem LoopNest.length_stretches_le_count (h : g.LoopNest loops header nodes rank) {P C : ι} (hP : P ∈ loops)
    (hC : C ∈ loops) (hin : DirectlyInside loops header nodes P C) {w s : List β} {z : β} (hw : g.Walk g.entry w z)
    (hs : s ∈ stretches (inLoop (nodes P)) w) : (stretches (inLoop (nodes C)) s).length ≤ s.count (header P) := by
  obtain ⟨t, e, rfl, hwalk, hsub⟩ := (h.natural P hP).walk_of_mem_stretches hw hs
  refine le_count_of_passes (F := fun s => (stretches (inLoop (nodes C)) s).length) (fun u v => ?_) t
    fun u m v heq hm hv => ?_
  · rw [stretches_append_of_head u (by simpa [inLoop] using hin.header_not_mem), List.length_append]
  · obtain ⟨hinm, hpass⟩ := exists_of_pass hwalk hsub heq hv
    obtain ⟨l, hl⟩ : ∃ l, g.Walk (header P) (header P :: m) l := by
      rcases hpass with hp | ⟨l, hp, -⟩
      · exact ⟨e, hp⟩
      · exact ⟨l, hp⟩
    exact h.length_stretches_pass hP hC hin hl hm hinm

end count

end FlowGraph
