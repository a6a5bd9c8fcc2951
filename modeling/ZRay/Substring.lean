import Mathlib.Data.List.TakeWhile
import Mathlib.Tactic.Common

/-!
# The first occurrence of a word

`findFrom word text` is the text from the first occurrence of the word on, as `substr(find(word))` gives it.
In a text cut at a character that is not in the word, the first occurrence lies before the cut or, when
there is none, behind it.
-/

namespace ZRay

variable {κ : Type*} [DecidableEq κ]

/-- The text from the first occurrence of `word` on. -/
def findFrom (word : List κ) : List κ → Option (List κ)
  | [] => if word.isEmpty then some [] else none
  | c :: text => if word.isPrefixOf (c :: text) then some (c :: text) else findFrom word text

theorem findFrom_of_isPrefixOf {word text : List κ} (hword : word ≠ []) (h : word <+: text) :
    findFrom word text = some text := by
  cases text with
  | nil => exact absurd (List.prefix_nil.mp h) hword
  | cons c text => simp [findFrom, h]

/-- A character that the word does not begin with is passed over. -/
theorem findFrom_cons_of_ne {word : List κ} {c : κ} {text : List κ} (hc : c ∉ word) (hword : word ≠ []) :
    findFrom word (c :: text) = findFrom word text := by
  obtain ⟨d, word, rfl⟩ := List.exists_cons_of_ne_nil hword
  have hne : ¬ (d :: word) <+: (c :: text) := by
    rw [List.cons_prefix_cons]
    rintro ⟨rfl, -⟩
    exact hc List.mem_cons_self
  simp [findFrom, hne]

omit [DecidableEq κ] in
/-- A prefix without the cut character ends before the cut. -/
theorem prefix_of_prefix_append_cons {word u v : List κ} {c : κ} (hc : c ∉ word) (h : word <+: u ++ c :: v) :
    word <+: u := by
  induction u generalizing word with
  | nil =>
    cases word with
    | nil => exact List.nil_prefix
    | cons d word =>
      obtain ⟨rfl, -⟩ := List.cons_prefix_cons.mp h
      exact absurd List.mem_cons_self hc
  | cons a u ih =>
    cases word with
    | nil => exact List.nil_prefix
    | cons d word =>
      obtain ⟨rfl, htail⟩ := List.cons_prefix_cons.mp h
      exact List.cons_prefix_cons.mpr ⟨rfl, ih (fun hmem => hc (List.mem_cons_of_mem d hmem)) htail⟩

/-- An occurrence before the cut stays the first one. -/
theorem findFrom_append_of_some {word u v t : List κ} {c : κ} (hc : c ∉ word) (h : findFrom word u = some t) :
    findFrom word (u ++ c :: v) = some (t ++ c :: v) := by
  induction u with
  | nil =>
    unfold findFrom at h
    split at h
    · rename_i hempty
      obtain rfl := List.isEmpty_iff.mp hempty
      obtain rfl := Option.some.inj h
      simp [findFrom]
    · simp at h
  | cons a u ih =>
    unfold findFrom at h
    split at h
    · rename_i hprefix
      obtain rfl := Option.some.inj h
      have hlong : word <+: a :: (u ++ c :: v) := by
        have hshort : word <+: a :: u := by simpa using hprefix
        exact hshort.trans ⟨c :: v, rfl⟩
      simp [findFrom, hlong]
    · rename_i hprefix
      have hlong : ¬ word <+: a :: (u ++ c :: v) := fun hlong =>
        hprefix (by simpa using prefix_of_prefix_append_cons hc (u := a :: u) hlong)
      rw [List.cons_append, findFrom, if_neg (by simpa using hlong)]
      exact ih h

/-- With none before the cut, the first occurrence is behind it. -/
theorem findFrom_append_of_none {word u v : List κ} {c : κ} (hc : c ∉ word) (hword : word ≠ [])
    (h : findFrom word u = none) : findFrom word (u ++ c :: v) = findFrom word v := by
  induction u with
  | nil => exact findFrom_cons_of_ne hc hword
  | cons a u ih =>
    unfold findFrom at h
    split at h
    · simp at h
    · rename_i hprefix
      have hlong : ¬ word <+: a :: (u ++ c :: v) := fun hlong =>
        hprefix (by simpa using prefix_of_prefix_append_cons hc (u := a :: u) hlong)
      rw [List.cons_append, findFrom, if_neg (by simpa using hlong)]
      exact ih h

/-- The text up to a character, cut at an occurrence of it. -/
theorem takeWhile_ne_append_cons {u : List κ} (c : κ) (v : List κ) :
    (u ++ c :: v).takeWhile (· ≠ c) = u.takeWhile (· ≠ c) := by
  induction u with
  | nil => simp
  | cons a u ih =>
    rw [List.cons_append, List.takeWhile_cons, List.takeWhile_cons, ih]

theorem takeWhile_ne_append_of_notMem {u : List κ} {c : κ} (hu : c ∉ u) (v : List κ) :
    (u ++ v).takeWhile (· ≠ c) = u ++ v.takeWhile (· ≠ c) := by
  rw [List.takeWhile_append_of_pos]
  intro a ha
  simp only [ne_eq, decide_not, Bool.not_eq_true', decide_eq_false_iff_not]
  rintro rfl
  exact hu ha

theorem notMem_takeWhile_ne (c : κ) (u : List κ) : c ∉ u.takeWhile (· ≠ c) := by
  intro hmem
  have hne := List.mem_takeWhile_imp hmem
  simp at hne

theorem isSome_findFrom {word text : List κ} : (findFrom word text).isSome ↔ word <:+: text := by
  induction text with
  | nil => cases word <;> simp [findFrom]
  | cons c text ih =>
    rw [findFrom, List.infix_cons_iff, ← ih]
    split
    · next h => simp [List.isPrefixOf_iff_prefix.mp h]
    · next h => simp [← List.isPrefixOf_iff_prefix, h]

end ZRay
