import ZRay.ControlFlow.Stretch
import ZRay.Positions

/-!
# Normalised whitespace

`reduce` trims a text and puts the fill in place of each run of whitespace.  It searches on behind the
fill it has put, so the fill may be empty or hold whitespace itself: the text up to there is final, and
what follows it starts and ends with a word (`reduceLoop_eq`).  The outcome is the words of the text
with the fill between them (`reduce_eq_words`).
-/

namespace ZRay

variable {κ : Type*} [DecidableEq κ]

def findFirstOf (whitespace s : List κ) (pos : Nat) : Option Nat := findFirst (fun c => decide (c ∈ whitespace)) s pos

def findFirstNotOf (whitespace s : List κ) (pos : Nat) : Option Nat :=
  findFirst (fun c => decide (c ∉ whitespace)) s pos

def findLastNotOf (whitespace s : List κ) : Option Nat := findLast (fun c => decide (c ∉ whitespace)) s

/-- `trim`. -/
def trim (str whitespace : List κ) : Option (List κ) :=
  match findFirstNotOf whitespace str 0 with
  | none => some []
  | some strBegin =>
    let strEnd := (findLastNotOf whitespace str).getD npos
    substr str strBegin (strEnd - strBegin + 1)

/-- The loop of `reduce`, for at most `fuel` rounds. -/
def reduceLoop (fill whitespace : List κ) : Nat → List κ → Option Nat → Option (List κ)
  | _, result, none => some result
  | 0, _, some _ => none
  | fuel + 1, result, some beginSpace => do
    let endSpace := (findFirstNotOf whitespace result beginSpace).getD npos
    let result ← replace result beginSpace (endSpace - beginSpace) fill
    reduceLoop fill whitespace fuel result (findFirstOf whitespace result (beginSpace + fill.length))

/-- `reduce`, with no more rounds than the text has characters; there is no result when that is too few, or when a
position is out of range. -/
def reduce (str fill whitespace : List κ) : Option (List κ) := do
  let result ← trim str whitespace
  reduceLoop fill whitespace result.length result (findFirstOf whitespace result 0)

/-- The words of a text: its maximal runs of characters that are no whitespace. -/
def words (whitespace s : List κ) : List (List κ) := stretches (fun c => decide (c ∉ whitespace)) s

section

variable {whitespace fill s : List κ}

theorem words_eq_nil (h : ∀ c ∈ s, c ∈ whitespace) : words whitespace s = [] :=
  stretches_eq_nil fun c hc => by simpa using h c hc

theorem words_eq_singleton (hne : s ≠ []) (h : ∀ c ∈ s, c ∉ whitespace) : words whitespace s = [s] :=
  stretches_eq_singleton hne fun c hc => by simpa using h c hc

/-- A text without whitespace is its own only word, if it is not empty. -/
theorem words_of_notMem (h : ∀ c ∈ s, c ∉ whitespace) (fill : List κ) :
    fill.intercalate (words whitespace s) = s := by
  cases s with
  | nil => rfl
  | cons c s => rw [words_eq_singleton (by simp) h, List.intercalate_singleton]

/-- Whitespace in front. -/
theorem words_append_of_subset {u : List κ} (hu : ∀ c ∈ u, c ∈ whitespace) (v : List κ) :
    words whitespace (u ++ v) = words whitespace v := by
  have hu' : ∀ c ∈ u, decide (c ∉ whitespace) = false := fun c hc => by simpa using hu c hc
  rw [words, stretches_append_of_getLast _ (getLast?_any_eq_false hu'), stretches_eq_nil hu', List.nil_append]
  rfl

/-- A word in front of whitespace. -/
theorem words_append_of_word {t gap : List κ} (hne : t ≠ []) (ht : ∀ c ∈ t, c ∉ whitespace) (hgap : gap ≠ [])
    (hws : ∀ c ∈ gap, c ∈ whitespace) (v : List κ) :
    words whitespace (t ++ (gap ++ v)) = t :: words whitespace v := by
  obtain ⟨c, gap', rfl⟩ := List.exists_cons_of_ne_nil hgap
  have hhead : (c :: gap' ++ v).head?.any (fun c => decide (c ∉ whitespace)) = false := by
    simpa using hws c List.mem_cons_self
  have hfirst := stretches_first (u := []) (p := fun c => decide (c ∉ whitespace)) (by simp) hne
    (fun c hc => by simpa using ht c hc) hhead
  rw [List.nil_append] at hfirst
  rw [words, hfirst]
  exact congrArg _ (words_append_of_subset hws v)

/-- The text neither starts nor ends with whitespace. -/
structure Trimmed (whitespace s : List κ) : Prop where
  head : ∀ c ∈ s.head?, c ∉ whitespace
  last : ∀ c ∈ s.getLast?, c ∉ whitespace

/-- A trimmed text is a word, or a word, whitespace, and a trimmed text with a word. -/
theorem Trimmed.cases (h : Trimmed whitespace s) : (∀ c ∈ s, c ∉ whitespace) ∨
    ∃ t gap v, s = t ++ (gap ++ v) ∧ t ≠ [] ∧ (∀ c ∈ t, c ∉ whitespace) ∧ gap ≠ [] ∧ (∀ c ∈ gap, c ∈ whitespace) ∧
      v ≠ [] ∧ Trimmed whitespace v := by
  rcases exists_first_stretch (fun c => decide (c ∈ whitespace)) s with hnone | ⟨t, gap, v, rfl, ht, hne, hgap, hv⟩
  · exact .inl fun c hc => by simpa using hnone c hc
  · have ht' : ∀ c ∈ t, c ∉ whitespace := fun c hc => by simpa using ht c hc
    have hgap' : ∀ c ∈ gap, c ∈ whitespace := fun c hc => by simpa using hgap c hc
    have htne : t ≠ [] := by
      rintro rfl
      obtain ⟨c, gap', rfl⟩ := List.exists_cons_of_ne_nil hne
      exact h.head c (by simp) (hgap' c List.mem_cons_self)
    have hvne : v ≠ [] := by
      rintro rfl
      have hlast : (gap.getLast hne) ∉ whitespace := h.last _ (by
        rw [List.append_nil, List.getLast?_append_of_ne_nil _ hne, List.getLast?_eq_some_getLast hne]
        rfl)
      exact hlast (hgap' _ (List.getLast_mem hne))
    refine .inr ⟨t, gap, v, rfl, htne, ht', hne, hgap', hvne, fun c hc => ?_, fun c hc => ?_⟩
    · have hc' : v.head? = some c := hc
      simpa [hc'] using hv
    · refine h.last c ?_
      rw [List.getLast?_append_of_ne_nil _ (by simp [hne]), List.getLast?_append_of_ne_nil _ hvne]
      exact hc

theorem Trimmed.words_ne_nil (h : Trimmed whitespace s) (hne : s ≠ []) : words whitespace s ≠ [] := by
  obtain ⟨c, s', rfl⟩ := List.exists_cons_of_ne_nil hne
  have hc : c ∉ whitespace := h.head c rfl
  exact stretches_ne_nil List.mem_cons_self (by simpa using hc)

private theorem exists_first_word (whitespace s : List κ) : (∀ c ∈ s, c ∈ whitespace) ∨
    ∃ u c r, s = u ++ c :: r ∧ (∀ c ∈ u, c ∈ whitespace) ∧ c ∉ whitespace := by
  induction s with
  | nil => exact .inl (by simp)
  | cons c s ih =>
    by_cases hc : c ∈ whitespace
    · rcases ih with hall | ⟨u, d, r, rfl, hu, hd⟩
      · exact .inl (by simpa [hc] using hall)
      · exact .inr ⟨c :: u, d, r, rfl, by simpa [hc] using hu, hd⟩
    · exact .inr ⟨[], c, s, rfl, by simp, hc⟩

/-- A text is whitespace, or it is a trimmed text between whitespace. -/
theorem exists_trimmed (whitespace s : List κ) : (∀ c ∈ s, c ∈ whitespace) ∨
    ∃ u v t, s = u ++ (v ++ t) ∧ (∀ c ∈ u, c ∈ whitespace) ∧ (∀ c ∈ t, c ∈ whitespace) ∧ v ≠ [] ∧
      Trimmed whitespace v := by
  rcases exists_first_word whitespace s with hall | ⟨u, c, r, rfl, hu, hc⟩
  · exact .inl hall
  · rcases exists_first_word whitespace (c :: r).reverse with hall | ⟨t, d, w, hsplit, ht, hd⟩
    · exact absurd (hall c (by simp)) hc
    · have hcr : c :: r = (w.reverse ++ [d]) ++ t.reverse := by
        rw [← List.reverse_reverse (c :: r), hsplit]
        simp
      refine .inr ⟨u, w.reverse ++ [d], t.reverse, by rw [hcr], hu, by simpa using ht, by simp, fun e he => ?_,
        fun e he => ?_⟩
      · have hhead : (w.reverse ++ [d] ++ t.reverse).head? = some c := by rw [← hcr]; rfl
        rw [List.head?_append_of_ne_nil _ (by simp)] at hhead
        rw [hhead] at he
        exact Option.some.inj he ▸ hc
      · rw [List.getLast?_concat] at he
        exact Option.some.inj he ▸ hd

/-- The loop searches behind `done`, which is final; the rest is trimmed and gets the fill between its words. -/
theorem reduceLoop_eq (fill : List κ) {fuel : Nat} (done : List κ) {rest : List κ} (h : Trimmed whitespace rest)
    (hfuel : rest.length ≤ fuel) :
    reduceLoop fill whitespace fuel (done ++ rest) (findFirstOf whitespace (done ++ rest) done.length) =
      some (done ++ fill.intercalate (words whitespace rest)) := by
  induction fuel generalizing done rest with
  | zero =>
    obtain rfl : rest = [] := List.length_eq_zero_iff.mp (Nat.le_zero.mp hfuel)
    rw [findFirstOf, findFirst_append, findFirst_eq_none (by simp)]
    rfl
  | succ fuel ih =>
    rcases h.cases with hword | ⟨t, gap, v, rfl, htne, ht, hgapne, hgap, hvne, hv⟩
    · -- no whitespace left
      rw [findFirstOf, findFirst_append, findFirst_eq_none fun c hc => by simpa using hword c hc,
        words_of_notMem hword]
      rfl
    · -- the run of whitespace behind the next word
      have hbegin : findFirstOf whitespace (done ++ (t ++ (gap ++ v))) done.length = some (done ++ t).length := by
        obtain ⟨c, gap', rfl⟩ := List.exists_cons_of_ne_nil hgapne
        rw [findFirstOf, findFirst_append, List.cons_append, findFirst_eq_some fun c hc => by simpa using ht c hc]
        · simp
        · simpa using hgap c List.mem_cons_self
      have hend : findFirstNotOf whitespace (done ++ (t ++ (gap ++ v))) (done ++ t).length =
          some ((done ++ t).length + gap.length) := by
        obtain ⟨c, v', rfl⟩ := List.exists_cons_of_ne_nil hvne
        rw [← List.append_assoc, findFirstNotOf, findFirst_append,
          findFirst_eq_some fun c hc => by simpa using hgap c hc]
        · rfl
        · simpa using hv.head c rfl
      have hreplace : replace (done ++ (t ++ (gap ++ v))) (done ++ t).length gap.length fill =
          some (done ++ t ++ fill ++ v) := by
        rw [← List.append_assoc, replace_append]
      have hlen : 0 < t.length := List.length_pos_iff.mpr htne
      have hrest := ih (done ++ t ++ fill) hv (by simp only [List.length_append] at hfuel; omega)
      rw [hbegin, reduceLoop, hend, Option.getD_some, Nat.add_sub_cancel_left, hreplace, Option.bind_eq_bind,
        Option.bind_some, ← List.length_append, hrest, words_append_of_word htne ht hgapne hgap,
        List.intercalate_cons_of_ne_nil (hv.words_ne_nil hvne)]
      simp only [List.append_assoc]

/-- Whitespace at the end. -/
theorem words_append_of_subset_right (v : List κ) {t : List κ} (ht : ∀ c ∈ t, c ∈ whitespace) :
    words whitespace (v ++ t) = words whitespace v := by
  have ht' : ∀ c ∈ t, decide (c ∉ whitespace) = false := fun c hc => by simpa using ht c hc
  have hhead : t.head?.any (fun c => decide (c ∉ whitespace)) = false := by
    cases t with
    | nil => rfl
    | cons c t => exact ht' c List.mem_cons_self
  rw [words, stretches_append_of_head v hhead, stretches_eq_nil ht', List.append_nil]
  rfl

theorem trim_eq_nil (h : ∀ c ∈ s, c ∈ whitespace) : trim s whitespace = some [] := by
  rw [trim, findFirstNotOf, findFirst_eq_none fun c hc => by simpa using h c hc]

theorem trim_append {u v t : List κ} (hu : ∀ c ∈ u, c ∈ whitespace) (ht : ∀ c ∈ t, c ∈ whitespace) (hne : v ≠ [])
    (hv : Trimmed whitespace v) : trim (u ++ (v ++ t)) whitespace = some v := by
  have hbegin : findFirstNotOf whitespace (u ++ (v ++ t)) 0 = some u.length := by
    obtain ⟨c, v', rfl⟩ := List.exists_cons_of_ne_nil hne
    rw [findFirstNotOf, List.cons_append, findFirst_eq_some fun c hc => by simpa using hu c hc]
    simpa using hv.head c rfl
  have hend : findLastNotOf whitespace (u ++ (v ++ t)) = some (u.length + v.length - 1) := by
    obtain ⟨v', d, rfl⟩ := List.eq_nil_or_concat v |>.resolve_left hne
    have hd : d ∉ whitespace := hv.last d (by simp)
    have hsplit : u ++ (v'.concat d ++ t) = (u ++ v') ++ d :: t := by simp
    rw [hsplit, findLastNotOf, findLast_eq_some (fun c hc => by simpa using ht c hc) (by simpa using hd)]
    simp
  have hpos : 0 < v.length := List.length_pos_iff.mpr hne
  have hcount : u.length + v.length - 1 - u.length + 1 = v.length := by omega
  simp only [trim, hbegin, hend, Option.getD_some, hcount]
  exact substr_append u t v

/-- `reduce` ends, and its result is the words of the text with the fill between them. -/
theorem reduce_eq_words (str fill whitespace : List κ) :
    reduce str fill whitespace = some (fill.intercalate (words whitespace str)) := by
  have hloop : ∀ {v : List κ}, Trimmed whitespace v →
      reduceLoop fill whitespace v.length v (findFirstOf whitespace v 0) =
        some (fill.intercalate (words whitespace v)) :=
    fun hv => reduceLoop_eq fill [] hv (Nat.le_refl _)
  rcases exists_trimmed whitespace str with hall | ⟨u, v, t, rfl, hu, ht, hne, hv⟩
  · rw [reduce, trim_eq_nil hall, words_eq_nil hall]
    exact hloop ⟨by simp, by simp⟩
  · rw [reduce, trim_append hu ht hne hv, words_append_of_subset hu, words_append_of_subset_right v ht]
    exact hloop hv

/-! ### The default arguments -/

theorem mem_words {t : List κ} (ht : t ∈ words whitespace s) : t ≠ [] ∧ ∀ c ∈ t, c ∉ whitespace := by
  obtain ⟨u, v, -, hne, hp, -⟩ := mem_stretches_iff.mp ht
  exact ⟨hne, fun c hc => by simpa using hp c hc⟩

/-- Words with whitespace between them are the words of the text they make. -/
theorem words_intercalate (hne : fill ≠ []) (hfill : ∀ c ∈ fill, c ∈ whitespace) {l : List (List κ)}
    (hl : ∀ t ∈ l, t ≠ [] ∧ ∀ c ∈ t, c ∉ whitespace) : words whitespace (fill.intercalate l) = l := by
  induction l with
  | nil => rfl
  | cons t l ih =>
    obtain ⟨htne, ht⟩ := hl t List.mem_cons_self
    cases l with
    | nil => rw [List.intercalate_singleton, words_eq_singleton htne ht]
    | cons t' l =>
      have hrest := ih fun x hx => hl x (List.mem_cons_of_mem t hx)
      rw [List.intercalate_cons_cons, List.append_assoc, words_append_of_word htne ht hne hfill, hrest]

/-- The text starts and ends with a word, and has no two whitespace characters in a row. -/
structure Normalised (whitespace s : List κ) : Prop extends Trimmed whitespace s where
  single : s.IsChain fun a b => ¬ (a ∈ whitespace ∧ b ∈ whitespace)

omit [DecidableEq κ] in
theorem isChain_of_notMem (h : ∀ c ∈ s, c ∉ whitespace) :
    s.IsChain fun a b => ¬ (a ∈ whitespace ∧ b ∈ whitespace) := by
  induction s with
  | nil => exact .nil
  | cons c s ih =>
    rw [List.isChain_cons]
    exact ⟨fun d _ hcd => h c List.mem_cons_self hcd.1, ih fun d hd => h d (List.mem_cons_of_mem c hd)⟩

omit [DecidableEq κ] in
/-- A word, one character, and a normalised text. -/
theorem Normalised.cons {t v : List κ} (c : κ) (hne : t ≠ []) (ht : ∀ d ∈ t, d ∉ whitespace) (hvne : v ≠ [])
    (hv : Normalised whitespace v) : Normalised whitespace (t ++ [c] ++ v) where
  head d hd := by
    rw [List.append_assoc, List.head?_append_of_ne_nil _ hne] at hd
    exact ht d (List.mem_of_head? hd)
  last d hd := by
    rw [List.getLast?_append_of_ne_nil _ hvne] at hd
    exact hv.last d hd
  single := by
    rw [List.isChain_append, List.isChain_append]
    refine ⟨⟨isChain_of_notMem ht, .singleton c, fun d hd e _ hde => ?_⟩, hv.single, fun d _ e he hde => ?_⟩
    · exact ht d (List.mem_of_getLast? hd) hde.1
    · exact hv.head e he hde.2

omit [DecidableEq κ] in
theorem normalised_intercalate (c : κ) {l : List (List κ)} (hl : ∀ t ∈ l, t ≠ [] ∧ ∀ d ∈ t, d ∉ whitespace) :
    Normalised whitespace ([c].intercalate l) := by
  induction l with
  | nil => exact ⟨⟨by simp, by simp⟩, .nil⟩
  | cons t l ih =>
    obtain ⟨hne, ht⟩ := hl t List.mem_cons_self
    cases l with
    | nil =>
      rw [List.intercalate_singleton]
      exact ⟨⟨fun d hd => ht d (List.mem_of_head? hd), fun d hd => ht d (List.mem_of_getLast? hd)⟩,
        isChain_of_notMem ht⟩
    | cons t' l =>
      have hrest := ih fun x hx => hl x (List.mem_cons_of_mem t hx)
      obtain ⟨hne', -⟩ := hl t' (by simp)
      rw [List.intercalate_cons_cons]
      refine .cons c hne ht (fun hnil => hne' ?_) hrest
      cases l with
      | nil => rwa [List.intercalate_singleton] at hnil
      | cons t'' l =>
        rw [List.intercalate_cons_cons, List.append_assoc] at hnil
        exact (List.append_eq_nil_iff.mp hnil).1

/-- The default of `whitespace`. -/
def blanks : List Char := [' ', '\t']

/-- `reduce` with its default arguments. -/
def reduceText (str : List Char) : Option (List Char) := reduce str [' '] blanks

/-- `reduce` ends for every fill and whitespace, with no position out of range, and returns the words of the text with
the fill between them.  With the default arguments its result is normalised, and reduces to itself. -/
theorem reduce_normalises (str : List Char) :
    (∀ fill whitespace, reduce str fill whitespace = some (fill.intercalate (words whitespace str))) ∧
      ∃ result, reduceText str = some result ∧ Normalised blanks result ∧ reduceText result = some result := by
  have hwords : ∀ t ∈ words blanks str, t ≠ [] ∧ ∀ c ∈ t, c ∉ blanks := fun t ht => mem_words ht
  have hresult : reduceText str = some ([' '].intercalate (words blanks str)) := reduce_eq_words str [' '] blanks
  refine ⟨reduce_eq_words str, _, hresult, normalised_intercalate ' ' hwords, ?_⟩
  rw [reduceText, reduce_eq_words, words_intercalate (by simp) (by simp [blanks]) hwords]

example : reduceText [' ', 'a', '\t', ' ', 'b', ' '] = some ['a', ' ', 'b'] := by decide

end

end ZRay
