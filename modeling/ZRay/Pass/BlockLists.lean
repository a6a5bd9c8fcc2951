import Mathlib.Data.List.Basic

/-!
# Block lists by group

`std::vector<szt_bbvec>`, which holds both the stack of open begin markers and `BasicBlockGroupList`: block lists
keyed by group ids, searched from the front.
-/

namespace ZRay.Pass

variable {β : Type*}

/-- `std::vector<szt_bbvec>`: block lists keyed by group ids. -/
abbrev BlockLists (β : Type*) := List (Nat × List β)

namespace BlockLists

def groups (l : BlockLists β) : List Nat := l.map Prod.fst

/-- The blocks under the first key `g`. -/
def blocksOf (g : Nat) : BlockLists β → List β
  | [] => []
  | (h, bbs) :: rest => if h = g then bbs else blocksOf g rest

/-- `push_back` under the first key `g`, which is added at the back when it is missing. -/
def push (g : Nat) (bb : β) : BlockLists β → BlockLists β
  | [] => [(g, [bb])]
  | (h, bbs) :: rest => if h = g then (h, bbs ++ [bb]) :: rest else (h, bbs) :: push g bb rest

/-- `pop_back` under the first key `g`. -/
def pop (g : Nat) : BlockLists β → BlockLists β
  | [] => []
  | (h, bbs) :: rest => if h = g then (h, bbs.dropLast) :: rest else (h, bbs) :: pop g rest

@[simp] theorem groups_nil : groups ([] : BlockLists β) = [] := rfl

@[simp] theorem groups_cons (e : Nat × List β) (l : BlockLists β) : groups (e :: l) = e.1 :: groups l := rfl

@[simp] theorem groups_append (l m : BlockLists β) : groups (l ++ m) = groups l ++ groups m := List.map_append

theorem blocksOf_eq_nil {g : Nat} {l : BlockLists β} (h : g ∉ groups l) : blocksOf g l = [] := by
  induction l with
  | nil => rfl
  | cons e l ih =>
    simp only [groups_cons, List.mem_cons, not_or] at h
    simp only [blocksOf, Ne.symm h.1, if_false]
    exact ih h.2

theorem blocksOf_push (g h : Nat) (bb : β) (l : BlockLists β) :
    blocksOf g (push h bb l) = blocksOf g l ++ if g = h then [bb] else [] := by
  induction l with
  | nil =>
    by_cases hg : g = h
    · simp [push, blocksOf, hg]
    · simp [push, blocksOf, hg, Ne.symm hg]
  | cons e l ih =>
    by_cases he : e.1 = h
    · by_cases hg : g = h
      · simp [push, blocksOf, he, hg]
      · simp [push, blocksOf, he, hg, Ne.symm hg]
    · by_cases hg : e.1 = g
      · have hne : g ≠ h := fun hgh => he (hg.trans hgh)
        simp [push, blocksOf, hg, hne]
      · simp only [push, he, if_false, blocksOf, hg, ih]

theorem groups_push (h : Nat) (bb : β) (l : BlockLists β) :
    groups (push h bb l) = if h ∈ groups l then groups l else groups l ++ [h] := by
  induction l with
  | nil => simp [push]
  | cons e l ih =>
    by_cases he : e.1 = h
    · simp [push, he]
    · simp only [push, he, if_false, groups_cons, ih, List.mem_cons, Ne.symm he, false_or]
      split <;> simp

theorem blocksOf_pop (g h : Nat) (l : BlockLists β) :
    blocksOf g (pop h l) = if g = h then (blocksOf g l).dropLast else blocksOf g l := by
  induction l with
  | nil => simp [pop, blocksOf]
  | cons e l ih =>
    by_cases he : e.1 = h
    · by_cases hg : g = h
      · simp [pop, blocksOf, he, hg]
      · simp [pop, blocksOf, he, hg, Ne.symm hg]
    · by_cases hg : e.1 = g
      · have hne : g ≠ h := fun hgh => he (hg.trans hgh)
        simp [pop, blocksOf, hg, hne]
      · simp only [pop, he, if_false, blocksOf, hg, ih]

@[simp] theorem groups_pop (h : Nat) (l : BlockLists β) : groups (pop h l) = groups l := by
  induction l with
  | nil => rfl
  | cons e l ih =>
    unfold pop
    split
    · simp
    · simp [ih]

theorem blocksOf_append_new {g : Nat} {l : BlockLists β} (hg : g ∉ groups l) (h : Nat) (bbs : List β) :
    blocksOf h (l ++ [(g, bbs)]) = if h = g then bbs else blocksOf h l := by
  induction l with
  | nil =>
    by_cases hh : h = g
    · simp [blocksOf, hh]
    · simp [blocksOf, hh, Ne.symm hh]
  | cons e l ih =>
    simp only [groups_cons, List.mem_cons, not_or] at hg
    by_cases he : e.1 = h
    · have hne : h ≠ g := fun hh => hg.1 (hh ▸ he.symm)
      simp [blocksOf, he, hne]
    · simp only [List.cons_append, blocksOf, he, if_false, ih hg.2]

/-- With keys that are not repeated, each is found at its own place. -/
theorem filter_zipIdx {l : BlockLists β} (hnodup : (groups l).Nodup) (g k : Nat) :
    (l.zipIdx k).filter (fun e => e.1.1 = g) =
      if g ∈ groups l then [((g, blocksOf g l), (groups l).idxOf g + k)] else [] := by
  induction l generalizing k with
  | nil => simp
  | cons e l ih =>
    obtain ⟨hnew, hnodup'⟩ := List.nodup_cons.mp hnodup
    rw [List.zipIdx_cons, List.filter_cons]
    by_cases he : e.1 = g
    · subst he
      have hnone : e.1 ∉ groups l := hnew
      rw [ih hnodup', if_neg hnone]
      simp [blocksOf]
    · rw [ih hnodup']
      by_cases hg : g ∈ groups l
      · simp [he, hg, blocksOf]
        omega
      · simp [he, hg, Ne.symm he]

theorem mem_zipIdx {l : BlockLists β} (hnodup : (groups l).Nodup) {e : (Nat × List β) × Nat} (he : e ∈ l.zipIdx) :
    e.1.1 ∈ groups l ∧ blocksOf e.1.1 l = e.1.2 ∧ (groups l).idxOf e.1.1 = e.2 := by
  have hmem : e ∈ l.zipIdx.filter fun e' => e'.1.1 = e.1.1 := List.mem_filter.mpr ⟨he, by simp⟩
  rw [filter_zipIdx hnodup] at hmem
  split at hmem
  · rename_i hg
    rw [List.mem_singleton] at hmem
    refine ⟨hg, ?_, ?_⟩
    · exact (congrArg (fun e => e.1.2) hmem).symm
    · exact (congrArg (fun e => e.2) hmem).symm
  · simp at hmem

end BlockLists

end ZRay.Pass
