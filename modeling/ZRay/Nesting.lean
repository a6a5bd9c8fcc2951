import Mathlib.Data.List.Infix

/-!
# Properly nested sequences of brackets

A sequence of events in which some events open a labelled bracket, some close one, and the others are neutral.
`Nested` is the grammar of the properly nested sequences and `openAfter` the pushdown checker that keeps the stack
of open labels.  The key facts: a nested sequence leaves every stack as it found it (`Nested.openAfter`), the
checker accepts exactly the nested sequences (`openAfter_eq_iff_nested`), and inside a nested sequence every
opening event has its closing event (`Nested.exists_exit`).
-/

namespace Nesting

/-- What an event does to the brackets. -/
inductive Bracket (ρ : Type*) where
  | enter (r : ρ)
  | exit (r : ρ)
  | other
  deriving DecidableEq, Repr

variable {ρ ε : Type*} (cls : ε → Bracket ρ)

/-- The properly nested sequences: every `enter r` is closed by its own `exit r`. -/
inductive Nested : List ε → Prop
  | nil : Nested []
  | other {e : ε} {t : List ε} : cls e = .other → Nested t → Nested (e :: t)
  | enclose {a b : ε} {r : ρ} {u v : List ε} :
      cls a = .enter r → Nested u → cls b = .exit r → Nested v → Nested (a :: u ++ b :: v)

variable {cls} in
theorem Nested.append {s t : List ε} (hs : Nested cls s) (ht : Nested cls t) : Nested cls (s ++ t) := by
  induction hs with
  | nil => exact ht
  | other he _ ih => exact .other he ih
  | enclose ha hu hb _ _ ihv =>
    rw [List.append_assoc]
    exact .enclose ha hu hb ihv

variable [DecidableEq ρ]

/-- The stack of open labels after one event; `none` when an exit does not match the innermost open label. -/
def Bracket.apply : Bracket ρ → List ρ → Option (List ρ)
  | .enter r, stk => some (r :: stk)
  | .exit r, s :: stk => if r = s then some stk else none
  | .exit _, [] => none
  | .other, stk => some stk

/-- The stack of open labels after a sequence of events. -/
def openAfter : List ρ → List ε → Option (List ρ)
  | stk, [] => some stk
  | stk, e :: es => ((cls e).apply stk).bind fun stk' => openAfter stk' es

variable {cls}

theorem openAfter_append (stk : List ρ) (u v : List ε) :
    openAfter cls stk (u ++ v) = (openAfter cls stk u).bind fun stk' => openAfter cls stk' v := by
  induction u generalizing stk with
  | nil => rfl
  | cons e u ih =>
    simp only [List.cons_append, openAfter, Option.bind_assoc]
    congr 1
    funext stk'
    exact ih stk'

theorem Bracket.apply_injective {b : Bracket ρ} {s s' q : List ρ} (h : b.apply s = some q)
    (h' : b.apply s' = some q) :
    s = s' := by
  cases b with
  | enter r =>
    simp only [Bracket.apply, Option.some.injEq] at h h'
    exact (List.cons.inj (h.trans h'.symm)).2
  | exit r =>
    cases s with
    | nil => simp [Bracket.apply] at h
    | cons a s =>
      cases s' with
      | nil => simp [Bracket.apply] at h'
      | cons a' s' =>
        simp only [Bracket.apply, Option.ite_none_right_eq_some, Option.some.injEq] at h h'
        rw [← h.1, ← h'.1, h.2, h'.2]
  | other =>
    simp only [Bracket.apply, Option.some.injEq] at h h'
    exact h.trans h'.symm

/-- The stack behind a sequence decides the stack in front of it. -/
theorem openAfter_injective {t : List ε} {s s' q : List ρ} (h : openAfter cls s t = some q)
    (h' : openAfter cls s' t = some q) : s = s' := by
  induction t generalizing s s' with
  | nil =>
    simp only [openAfter, Option.some.injEq] at h h'
    exact h.trans h'.symm
  | cons e t ih =>
    obtain ⟨a, ha, ht⟩ := Option.bind_eq_some_iff.mp h
    obtain ⟨a', ha', ht'⟩ := Option.bind_eq_some_iff.mp h'
    exact Bracket.apply_injective ha (ih ht ht' ▸ ha')

/-- A properly nested sequence leaves the stack of open labels as it found it. -/
theorem Nested.openAfter {t : List ε} (h : Nested cls t) (stk : List ρ) :
    Nesting.openAfter cls stk t = some stk := by
  induction h generalizing stk with
  | nil => rfl
  | other he _ ih => simpa [Nesting.openAfter, he, Bracket.apply] using ih stk
  | @enclose a b r u v ha _ hb _ ihu ihv =>
    have hu : Nesting.openAfter cls (r :: stk) u = some (r :: stk) := ihu (r :: stk)
    simp [Nesting.openAfter, openAfter_append, ha, hb, hu, ihv, Bracket.apply]

/-- When a sequence run on a stack ends below one of its labels, it closes that label somewhere: it is a nested
part, the exit of the label, and the rest. -/
theorem exists_exit_of_openAfter {t : List ε} {r : ρ} {stk stk' : List ρ}
    (h : openAfter cls (r :: stk) t = some stk') (hl : stk'.length ≤ stk.length) :
    ∃ u b v, t = u ++ b :: v ∧ Nested cls u ∧ cls b = .exit r ∧ openAfter cls stk v = some stk' := by
  -- the induction is on the length, since the part behind an inner bracket is not a tail of `t` alone
  induction hn : t.length using Nat.strong_induction_on generalizing t r stk with
  | _ n ih =>
    subst hn
    cases t with
    | nil =>
      simp only [openAfter, Option.some.injEq] at h
      subst h
      simp only [List.length_cons] at hl
      omega
    | cons e t =>
      cases he : cls e with
      | other =>
        simp only [openAfter, he, Bracket.apply, Option.bind_some] at h
        obtain ⟨u, b, v, rfl, hu, hb, hv⟩ := ih t.length (by simp) h hl rfl
        exact ⟨e :: u, b, v, rfl, .other he hu, hb, hv⟩
      | exit r' =>
        simp only [openAfter, he, Bracket.apply] at h
        split at h
        · rename_i hr
          subst hr
          exact ⟨[], e, t, rfl, .nil, he, h⟩
        · simp at h
      | enter r' =>
        simp only [openAfter, he, Bracket.apply, Option.bind_some] at h
        obtain ⟨u₁, b₁, v₁, rfl, hu₁, hb₁, hv₁⟩ := ih t.length (by simp) h (by simp; omega) rfl
        obtain ⟨u₂, b₂, v₂, rfl, hu₂, hb₂, hv₂⟩ := ih v₁.length (by simp; omega) hv₁ hl rfl
        refine ⟨e :: u₁ ++ b₁ :: u₂, b₂, v₂, by simp, .enclose he hu₁ hb₁ hu₂, hb₂, hv₂⟩

/-- The checker accepts exactly the properly nested sequences. -/
theorem openAfter_eq_iff_nested {t : List ε} : openAfter cls [] t = some [] ↔ Nested cls t := by
  refine ⟨fun h => ?_, fun h => h.openAfter []⟩
  induction hn : t.length using Nat.strong_induction_on generalizing t with
  | _ n ih =>
    subst hn
    cases t with
    | nil => exact .nil
    | cons e t =>
      cases he : cls e with
      | other =>
        simp only [openAfter, he, Bracket.apply, Option.bind_some] at h
        exact .other he (ih t.length (by simp) h rfl)
      | exit r => simp [openAfter, he, Bracket.apply] at h
      | enter r =>
        simp only [openAfter, he, Bracket.apply, Option.bind_some] at h
        obtain ⟨u, b, v, rfl, hu, hb, hv⟩ := exists_exit_of_openAfter h (by simp)
        exact .enclose he hu hb (ih v.length (by simp; omega) hv rfl)

instance (t : List ε) : Decidable (Nested cls t) :=
  decidable_of_iff (openAfter cls [] t = some []) openAfter_eq_iff_nested

/-- Inside a properly nested sequence every opening event has its closing event. -/
theorem Nested.exists_exit {t pre post : List ε} {a : ε} {r : ρ} (h : Nested cls t)
    (ht : t = pre ++ a :: post) (ha : cls a = .enter r) :
    ∃ u b v, post = u ++ b :: v ∧ Nested cls u ∧ cls b = .exit r := by
  have hrun := h.openAfter []
  rw [ht, openAfter_append] at hrun
  obtain ⟨stk, -, hpost⟩ := Option.bind_eq_some_iff.1 hrun
  simp only [Nesting.openAfter, ha, Bracket.apply, Option.bind_some] at hpost
  obtain ⟨u, b, v, hv, hu, hb, -⟩ := exists_exit_of_openAfter hpost (by simp)
  exact ⟨u, b, v, hv, hu, hb⟩

/-- The checker accepts every prefix of a properly nested sequence. -/
theorem Nested.openAfter_of_append {s t : List ε} (h : Nested cls (s ++ t)) (stk : List ρ) :
    ∃ stk', Nesting.openAfter cls stk s = some stk' := by
  have hrun := h.openAfter stk
  rw [openAfter_append] at hrun
  obtain ⟨stk', hs, -⟩ := Option.bind_eq_some_iff.1 hrun
  exact ⟨stk', hs⟩

end Nesting
