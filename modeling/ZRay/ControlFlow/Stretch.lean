import Mathlib

/-!
# Stretches of a list

`stretches p w` lists the maximal runs of elements of `w` that satisfy `p`.  They are cut out at the places where an
element outside `p` stands (`stretches_append_of_head`, `stretches_append_of_getLast`).  What is counted inside `p` is
counted stretch by stretch (`count_eq_sum_stretches`), and the stretches of a smaller predicate are those of each
stretch (`stretches_eq_flatMap`).  What is added up at the entries into `p` is a sum over the stretches
(`sumEntries_modEq`).
-/

variable {β : Type*}

/-- The maximal runs of elements of the list that satisfy `p`. -/
def stretches (p : β → Bool) : List β → List (List β)
  | [] => []
  | x :: w =>
    if p x then
      if w.head?.any p then
        match stretches p w with
        | s :: rest => (x :: s) :: rest
        | [] => [[x]]
      else [x] :: stretches p w
    else stretches p w

section

variable {p q : β → Bool}

@[simp] theorem stretches_nil : stretches p ([] : List β) = [] := rfl

theorem stretches_cons_of_not {x : β} (hx : p x = false) (w : List β) : stretches p (x :: w) = stretches p w := by
  simp [stretches, hx]

theorem stretches_cons_of_head {x : β} {w s : List β} {rest : List (List β)} (hx : p x = true)
    (hw : w.head?.any p = true) (hs : stretches p w = s :: rest) : stretches p (x :: w) = (x :: s) :: rest := by
  simp [stretches, hx, hw, hs]

theorem stretches_cons_of_end {x : β} {w : List β} (hx : p x = true) (hw : w.head?.any p = false) :
    stretches p (x :: w) = [x] :: stretches p w := by
  simp [stretches, hx, hw]

/-- A list that starts inside `p` has a first stretch. -/
theorem exists_stretches_of_head {w : List β} (hw : w.head?.any p = true) :
    ∃ s rest, stretches p w = s :: rest := by
  cases w with
  | nil => simp at hw
  | cons x w =>
    have hx : p x = true := by simpa using hw
    by_cases hnext : w.head?.any p = true
    · cases hrest : stretches p w with
      | nil => exact ⟨[x], [], by simp [stretches, hx, hnext, hrest]⟩
      | cons s rest => exact ⟨x :: s, rest, stretches_cons_of_head hx hnext hrest⟩
    · exact ⟨[x], stretches p w, stretches_cons_of_end hx (by simpa using hnext)⟩

theorem stretches_append_of_head (u : List β) {v : List β} (hv : v.head?.any p = false) :
    stretches p (u ++ v) = stretches p u ++ stretches p v := by
  induction u with
  | nil => rfl
  | cons x u ih =>
    by_cases hx : p x = true
    · cases u with
      | nil =>
        rw [List.singleton_append, stretches_cons_of_end hx hv, stretches_cons_of_end hx rfl]
        rfl
      | cons y u =>
        by_cases hy : p y = true
        · obtain ⟨s, rest, hs⟩ := exists_stretches_of_head (w := y :: u) (p := p) (by simpa using hy)
          rw [hs, List.cons_append] at ih
          rw [stretches_cons_of_head hx (by simpa using hy) hs]
          exact stretches_cons_of_head hx (by simpa using hy) ih
        · have hy' : p y = false := by simpa using hy
          rw [stretches_cons_of_end hx (by simpa using hy'), List.cons_append, List.cons_append,
            stretches_cons_of_end hx (by simpa using hy'), ← List.cons_append, ih, List.cons_append]
    · have hx' : p x = false := by simpa using hx
      rw [List.cons_append, stretches_cons_of_not hx', stretches_cons_of_not hx', ih]

theorem stretches_append_of_getLast {u : List β} (v : List β) (hu : u.getLast?.any p = false) :
    stretches p (u ++ v) = stretches p u ++ stretches p v := by
  rcases List.eq_nil_or_concat u with rfl | ⟨u', y, rfl⟩
  · rfl
  · have hy : p y = false := by simpa using hu
    rw [List.concat_eq_append, List.append_assoc, stretches_append_of_head u' (by simpa using hy),
      stretches_append_of_head u' (by simpa using hy), List.singleton_append, stretches_cons_of_not hy,
      stretches_cons_of_not hy, stretches_nil, List.append_nil]

theorem stretches_eq_nil {w : List β} (hw : ∀ x ∈ w, p x = false) : stretches p w = [] := by
  induction w with
  | nil => rfl
  | cons x w ih =>
    rw [stretches_cons_of_not (hw x List.mem_cons_self)]
    exact ih fun y hy => hw y (List.mem_cons_of_mem x hy)

theorem stretches_eq_singleton {s : List β} (hne : s ≠ []) (hs : ∀ x ∈ s, p x = true) : stretches p s = [s] := by
  induction s with
  | nil => exact absurd rfl hne
  | cons x s ih =>
    have hx := hs x List.mem_cons_self
    cases s with
    | nil => simp [stretches, hx]
    | cons y s =>
      have hy := hs y (by simp)
      have hrest := ih (by simp) fun z hz => hs z (List.mem_cons_of_mem x hz)
      rw [stretches, hrest]
      simp [hx, hy]

/-- The longest start of the list inside `p`. -/
private theorem exists_start (p : β → Bool) (w : List β) :
    ∃ s v, w = s ++ v ∧ (∀ x ∈ s, p x = true) ∧ v.head?.any p = false := by
  induction w with
  | nil => exact ⟨[], [], rfl, by simp, rfl⟩
  | cons x w ih =>
    by_cases hx : p x = true
    · obtain ⟨s, v, rfl, hs, hv⟩ := ih
      refine ⟨x :: s, v, rfl, fun y hy => ?_, hv⟩
      rcases List.mem_cons.mp hy with rfl | hy
      · exact hx
      · exact hs y hy
    · exact ⟨[], x :: w, rfl, by simp, by simpa using hx⟩

/-- A list lies outside `p`, or it is a part outside `p`, the first stretch, and the rest. -/
theorem exists_first_stretch (p : β → Bool) (w : List β) :
    (∀ x ∈ w, p x = false) ∨
      ∃ u s v, w = u ++ (s ++ v) ∧ (∀ x ∈ u, p x = false) ∧ s ≠ [] ∧ (∀ x ∈ s, p x = true) ∧
        v.head?.any p = false := by
  obtain ⟨u, t, rfl, hu, ht⟩ := exists_start (fun x => !p x) w
  have hu' : ∀ x ∈ u, p x = false := fun x hx => by simpa using hu x hx
  cases t with
  | nil => exact .inl fun x hx => hu' x (by simpa using hx)
  | cons y t =>
    obtain ⟨s, v, hsv, hs, hv⟩ := exists_start p (y :: t)
    refine .inr ⟨u, s, v, by rw [hsv], hu', ?_, hs, hv⟩
    rintro rfl
    rw [List.nil_append] at hsv
    rw [← hsv] at hv
    simp at ht hv
    simp [ht] at hv

theorem getLast?_any_eq_false {u : List β} (hu : ∀ x ∈ u, p x = false) : u.getLast?.any p = false := by
  cases hlast : u.getLast? with
  | none => rfl
  | some y => simpa using hu y (List.mem_of_getLast? hlast)

/-- The stretches of a list cut at its first stretch. -/
theorem stretches_first {u s v : List β} (hu : ∀ x ∈ u, p x = false) (hne : s ≠ []) (hs : ∀ x ∈ s, p x = true)
    (hv : v.head?.any p = false) : stretches p (u ++ (s ++ v)) = s :: stretches p v := by
  rw [stretches_append_of_getLast _ (getLast?_any_eq_false hu), stretches_eq_nil hu, List.nil_append,
    stretches_append_of_head s hv, stretches_eq_singleton hne hs, List.singleton_append]

/-- A stretch is a nonempty run inside `p`, with the ends of the list or elements outside `p` around it. -/
theorem mem_stretches_iff {s w : List β} :
    s ∈ stretches p w ↔ ∃ u v, w = u ++ (s ++ v) ∧ s ≠ [] ∧ (∀ x ∈ s, p x = true) ∧ u.getLast?.any p = false ∧
      v.head?.any p = false := by
  constructor
  · intro hs
    induction hn : w.length using Nat.strongRecOn generalizing w with
    | _ n ih =>
      rcases exists_first_stretch p w with hnone | ⟨u, t, v, rfl, hu, hne, ht, hv⟩
      · rw [stretches_eq_nil hnone] at hs
        simp at hs
      · rw [stretches_first hu hne ht hv] at hs
        rcases List.mem_cons.mp hs with rfl | hs
        · exact ⟨u, v, rfl, hne, ht, getLast?_any_eq_false hu, hv⟩
        · have hlen : 0 < t.length := List.length_pos_iff.mpr hne
          simp only [List.length_append] at hn
          obtain ⟨u', v', rfl, hne', hs', hu', hv'⟩ := ih v.length (by omega) hs rfl
          refine ⟨u ++ (t ++ u'), v', by simp, hne', hs', ?_, hv'⟩
          cases u' with
          | nil =>
            -- the rest of the list starts outside `p`
            cases s with
            | nil => exact absurd rfl hne'
            | cons y s =>
              have hy := hs' y List.mem_cons_self
              simp [hy] at hv
          | cons y u' =>
            rw [← List.append_assoc, List.getLast?_append_of_ne_nil _ (by simp)]
            exact hu'
  · rintro ⟨u, v, rfl, hne, hs, hu, hv⟩
    rw [stretches_append_of_getLast _ hu, stretches_append_of_head s hv, stretches_eq_singleton hne hs]
    simp

theorem stretches_ne_nil {w : List β} {x : β} (hx : x ∈ w) (hp : p x = true) : stretches p w ≠ [] := by
  rcases exists_first_stretch p w with hnone | ⟨u, s, v, rfl, hu, hne, hs, hv⟩
  · have hfalse := hnone x hx
    simp [hp] at hfalse
  · rw [stretches_first hu hne hs hv]
    simp

/-- Between two stretches the list leaves `p` and comes back. -/
theorem exists_return {w : List β} (hw : 1 < (stretches p w).length) :
    ∃ u x m y v, w = u ++ x :: (m ++ y :: v) ∧ p x = true ∧ p y = true ∧ m ≠ [] ∧ ∀ z ∈ m, p z = false := by
  rcases exists_first_stretch p w with hnone | ⟨u, s, v, rfl, hu, hne, hs, hv⟩
  · rw [stretches_eq_nil hnone] at hw
    simp at hw
  · rw [stretches_first hu hne hs hv, List.length_cons] at hw
    rcases exists_first_stretch p v with hnone | ⟨m, s', v', rfl, hm, hne', hs', -⟩
    · rw [stretches_eq_nil hnone] at hw
      simp at hw
    · obtain ⟨s0, x, rfl⟩ := (List.eq_nil_or_concat s).resolve_left hne
      cases s' with
      | nil => exact absurd rfl hne'
      | cons y s' =>
        have hy := hs' y List.mem_cons_self
        refine ⟨u ++ s0, x, m, y, s' ++ v', by simp, hs x (by simp), hy, ?_, hm⟩
        rintro rfl
        simp [hy] at hv

/-- An element inside `p` is counted in the stretches. -/
theorem count_eq_sum_stretches [DecidableEq β] {b : β} (hb : p b = true) (w : List β) :
    w.count b = ((stretches p w).map (List.count b)).sum := by
  induction hn : w.length using Nat.strongRecOn generalizing w with
  | _ n ih =>
    have hout : ∀ u : List β, (∀ x ∈ u, p x = false) → u.count b = 0 := by
      intro u hu
      refine List.count_eq_zero_of_not_mem fun hmem => ?_
      have hfalse := hu b hmem
      simp [hb] at hfalse
    rcases exists_first_stretch p w with hnone | ⟨u, s, v, rfl, hu, hne, hs, hv⟩
    · rw [stretches_eq_nil hnone, hout w hnone]
      rfl
    · have hlen : 0 < s.length := List.length_pos_iff.mpr hne
      simp only [List.length_append] at hn
      have hrest := ih v.length (by omega) v rfl
      rw [stretches_first hu hne hs hv, List.map_cons, List.sum_cons, ← hrest, List.count_append, List.count_append,
        hout u hu, Nat.zero_add]

/-- The stretches of a smaller predicate lie in the stretches of a larger one. -/
theorem stretches_eq_flatMap (hqp : ∀ x, q x = true → p x = true) (w : List β) :
    stretches q w = (stretches p w).flatMap (stretches q) := by
  have hout : ∀ x, p x = false → q x = false := by
    intro x hx
    by_contra hq
    have hpx := hqp x (by simpa using hq)
    simp [hx] at hpx
  induction hn : w.length using Nat.strongRecOn generalizing w with
  | _ n ih =>
    rcases exists_first_stretch p w with hnone | ⟨u, s, v, rfl, hu, hne, hs, hv⟩
    · rw [stretches_eq_nil hnone, stretches_eq_nil fun x hx => hout x (hnone x hx)]
      rfl
    · have hlen : 0 < s.length := List.length_pos_iff.mpr hne
      simp only [List.length_append] at hn
      have hrest := ih v.length (by omega) v rfl
      have huq : ∀ x ∈ u, q x = false := fun x hx => hout x (hu x hx)
      have hvq : v.head?.any q = false := by
        cases v with
        | nil => rfl
        | cons y v => simpa using hout y (by simpa using hv)
      rw [stretches_first hu hne hs hv, List.flatMap_cons, ← hrest,
        stretches_append_of_getLast _ (getLast?_any_eq_false huq), stretches_eq_nil huq, List.nil_append,
        stretches_append_of_head s hvq]

/-! ### Entries -/

/-- The sum of `F` over the places where the list enters `p`, each with the list from there on; `inside` says whether
the list goes on from inside `p`. -/
def sumEntries (p : β → Bool) (F : List β → Nat) : Bool → List β → Nat
  | _, [] => 0
  | inside, x :: w => (if p x && !inside then F (x :: w) else 0) + sumEntries p F (p x) w

/-- Outside `p` nothing is added. -/
theorem sumEntries_outside (F : List β → Nat) {u : List β} (hu : ∀ x ∈ u, p x = false) (v : List β) :
    sumEntries p F false (u ++ v) = sumEntries p F false v := by
  induction u with
  | nil => rfl
  | cons x u ih =>
    have hx := hu x List.mem_cons_self
    have hrest := ih fun y hy => hu y (List.mem_cons_of_mem x hy)
    rw [List.cons_append, sumEntries, hx, hrest]
    simp

/-- Neither is it before `p` is left. -/
theorem sumEntries_inside (F : List β → Nat) {s : List β} (hs : ∀ x ∈ s, p x = true) {v : List β}
    (hv : v.head?.any p = false) : sumEntries p F true (s ++ v) = sumEntries p F false v := by
  induction s with
  | nil =>
    cases v with
    | nil => rfl
    | cons y v =>
      have hy : p y = false := by simpa using hv
      rw [List.nil_append, sumEntries, sumEntries, hy]
      rfl
  | cons x s ih =>
    have hx := hs x List.mem_cons_self
    have hrest := ih fun y hy => hs y (List.mem_cons_of_mem x hy)
    rw [List.cons_append, sumEntries, hx, hrest]
    simp

/-- The entry into the first stretch, and those behind it. -/
theorem sumEntries_first (F : List β → Nat) {u s v : List β} (hu : ∀ x ∈ u, p x = false) (hne : s ≠ [])
    (hs : ∀ x ∈ s, p x = true) (hv : v.head?.any p = false) :
    sumEntries p F false (u ++ (s ++ v)) = F (s ++ v) + sumEntries p F false v := by
  rw [sumEntries_outside F hu]
  cases s with
  | nil => exact absurd rfl hne
  | cons x s =>
    have hx := hs x List.mem_cons_self
    have hrest := sumEntries_inside F (fun y hy => hs y (List.mem_cons_of_mem x hy)) hv
    rw [List.cons_append, sumEntries, hx, hrest]
    simp

theorem mul_sumEntries (n : Nat) (F : List β → Nat) (inside : Bool) (w : List β) :
    n * sumEntries p F inside w = sumEntries p (fun v => n * F v) inside w := by
  induction w generalizing inside with
  | nil => rfl
  | cons x w ih =>
    rw [sumEntries, sumEntries, Nat.mul_add, ih]
    split
    · rfl
    · omega

/-- When `F` at an entry is what `G` makes of the stretch that starts there, the entries add up to the stretches. -/
theorem sumEntries_modEq {n : Nat} {F G : List β → Nat} {w : List β}
    (h : ∀ u s v, w = u ++ (s ++ v) → s ∈ stretches p w → v.head?.any p = false → F (s ++ v) ≡ G s [MOD n]) :
    sumEntries p F false w ≡ ((stretches p w).map G).sum [MOD n] := by
  induction hn : w.length using Nat.strongRecOn generalizing w with
  | _ n ih =>
    rcases exists_first_stretch p w with hnone | ⟨u, s, v, rfl, hu, hne, hs, hv⟩
    · have hzero := sumEntries_outside F hnone []
      rw [List.append_nil] at hzero
      rw [stretches_eq_nil hnone, hzero]
      exact Nat.ModEq.refl 0
    · have hlen : 0 < s.length := List.length_pos_iff.mpr hne
      simp only [List.length_append] at hn
      have hsplit : stretches p (u ++ (s ++ v)) = s :: stretches p v := stretches_first hu hne hs hv
      have hfirst := h u s v rfl (hsplit ▸ List.mem_cons_self) hv
      have hrest := ih v.length (by omega) (w := v) (fun u' s' v' heq hs' hv' =>
        h (u ++ (s ++ u')) s' v' (by simp [heq]) (hsplit ▸ List.mem_cons_of_mem s hs') hv') rfl
      rw [sumEntries_first F hu hne hs hv, hsplit, List.map_cons, List.sum_cons]
      exact hfirst.add hrest

end
