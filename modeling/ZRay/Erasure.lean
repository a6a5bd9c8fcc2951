import Mathlib.Data.List.Basic
import Mathlib.Logic.Function.Iterate

/-!
# Runs that agree up to what is erased

Two runs whose states differ only in what `erase` forgets: if every step of the one and the step of the other that
goes with it lead from such states to such states (`Agree`), so do the runs.  Where the steps go through lists that
differ by erased elements, the lists are gone through side by side (`filter_eq_induction`).
-/

namespace ZRay

variable {σ τ ι : Type*}

/-- From states with the same erasure the two steps lead to states with the same erasure. -/
def Agree (erase : σ → τ) (f g : σ → σ) : Prop := ∀ s t, erase s = erase t → erase (f s) = erase (g t)

namespace Agree

variable {erase : σ → τ}

/-- Runs along a list, where the first keeps an invariant that its steps need. -/
theorem foldl_of_invariant {f g : σ → ι → σ} {P : σ → Prop} {l : List ι} (hkeep : ∀ s, ∀ i ∈ l, P s → P (f s i))
    (hstep : ∀ s t, ∀ i ∈ l, P s → erase s = erase t → erase (f s i) = erase (g t i)) {s t : σ} (hs : P s)
    (h : erase s = erase t) : erase (l.foldl f s) = erase (l.foldl g t) := by
  induction l generalizing s t with
  | nil => exact h
  | cons i l ih =>
    have hfirst := hstep s t i List.mem_cons_self hs h
    exact ih (fun s j hj => hkeep s j (List.mem_cons_of_mem i hj))
      (fun s t j hj => hstep s t j (List.mem_cons_of_mem i hj)) (hkeep s i List.mem_cons_self hs) hfirst

theorem foldl {f g : σ → ι → σ} (l : List ι) (h : ∀ i ∈ l, Agree erase (fun s => f s i) fun s => g s i) :
    Agree erase (fun s => l.foldl f s) fun s => l.foldl g s :=
  fun _ _ => foldl_of_invariant (P := fun _ => True) (fun _ _ _ _ => trivial) (fun s t i hi _ => h i hi s t) trivial

theorem iterate {f g : σ → σ} (h : Agree erase f g) (n : ℕ) : Agree erase f^[n] g^[n] := by
  induction n with
  | zero => exact fun _ _ hst => hst
  | succ n ih => exact fun s t hst => ih _ _ (h s t hst)

end Agree

/-- Induction along two lists that differ by elements that are filtered out. -/
theorem filter_eq_induction {p : ι → Bool} {P : List ι → List ι → Prop} (nil : P [] [])
    (keep : ∀ i l l', p i = true → l.filter p = l'.filter p → P l l' → P (i :: l) (i :: l'))
    (left : ∀ i l l', p i = false → l.filter p = l'.filter p → P l l' → P (i :: l) l')
    (right : ∀ i l l', p i = false → l.filter p = l'.filter p → P l l' → P l (i :: l')) {l l' : List ι}
    (h : l.filter p = l'.filter p) :
    P l l' := by
  induction l generalizing l' with
  | nil =>
    induction l' with
    | nil => exact nil
    | cons j l' ih =>
      cases hj : p j with
      | true => simp [hj] at h
      | false =>
        have h : [].filter p = l'.filter p := by simpa [hj] using h
        exact right j [] l' hj h (ih h)
  | cons i l ih =>
    cases hi : p i with
    | false =>
      have h : l.filter p = l'.filter p := by simpa [hi] using h
      exact left i l l' hi h (ih h)
    | true =>
      induction l' with
      | nil => simp [hi] at h
      | cons j l' ih' =>
        cases hj : p j with
        | false =>
          have h : (i :: l).filter p = l'.filter p := by simpa [hj] using h
          exact right j (i :: l) l' hj h (ih' h)
        | true =>
          rw [List.filter_cons_of_pos hi, List.filter_cons_of_pos hj, List.cons.injEq] at h
          obtain ⟨rfl, h⟩ := h
          exact keep i l l' hi h (ih h)

end ZRay
