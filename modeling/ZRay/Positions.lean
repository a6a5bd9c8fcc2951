import Mathlib

/-!
# Positions in a text

The members of `std::string` that search and change a text at a position, on lists of characters.  A position behind
the end is out of range for `substr` and `replace`, which then have no result; a search that finds nothing gives
`npos`, here `none`.  In a text that is cut at the position each of them is read off the pieces.
-/

namespace ZRay

variable {κ : Type*}

/-- `std::string::npos`. -/
def npos : Nat := 2 ^ 64 - 1

/-- The first position from `pos` on whose character satisfies `p`. -/
def findFirst (p : κ → Bool) (s : List κ) (pos : Nat) : Option Nat := ((s.drop pos).findIdx? p).map (pos + ·)

/-- The last position whose character satisfies `p`. -/
def findLast (p : κ → Bool) (s : List κ) : Option Nat := (s.reverse.findIdx? p).map (s.length - 1 - ·)

/-- `s.substr(pos, count)`. -/
def substr (s : List κ) (pos count : Nat) : Option (List κ) :=
  if pos ≤ s.length then some ((s.drop pos).take count) else none

/-- `s.replace(pos, count, fill)`. -/
def replace (s : List κ) (pos count : Nat) (fill : List κ) : Option (List κ) :=
  if pos ≤ s.length then some (s.take pos ++ fill ++ s.drop (pos + count)) else none

section

variable {p : κ → Bool} {u v t : List κ} {x : κ}

theorem findFirst_append (p : κ → Bool) (u v : List κ) :
    findFirst p (u ++ v) u.length = (findFirst p v 0).map (u.length + ·) := by
  simp [findFirst]

theorem findFirst_eq_none (h : ∀ y ∈ v, p y = false) : findFirst p v 0 = none := by
  rw [findFirst, Option.map_eq_none_iff, List.findIdx?_eq_none_iff]
  simpa using h

theorem findFirst_eq_some (h : ∀ y ∈ t, p y = false) (hx : p x = true) :
    findFirst p (t ++ x :: v) 0 = some t.length := by
  have hnone : t.findIdx? p = none := List.findIdx?_eq_none_iff.mpr h
  simp [findFirst, List.findIdx?_append, hnone, List.findIdx?_cons, hx]

theorem findLast_eq_some (h : ∀ y ∈ t, p y = false) (hx : p x = true) :
    findLast p (u ++ x :: t) = some u.length := by
  have hnone : t.reverse.findIdx? p = none := List.findIdx?_eq_none_iff.mpr fun y hy => h y (List.mem_reverse.mp hy)
  simp [findLast, List.findIdx?_append, hnone, List.findIdx?_cons, hx]

theorem substr_append (u v t : List κ) : substr (u ++ (t ++ v)) u.length t.length = some t := by
  simp [substr]

theorem replace_append (u v t fill : List κ) :
    replace (u ++ (t ++ v)) u.length t.length fill = some (u ++ fill ++ v) := by
  simp [replace, List.drop_append]

end

end ZRay
