import ZRay.DecimalText
import ZRay.Pass.LoopTree

/-!
# Trip counts read from printed text

A constant backedge-taken count reaches `getLoopTripCount` as text: scalar evolution prints a constant as a signed
decimal of its width, and `strtoumax` reads it as an unsigned 64-bit number.  A count in the upper half of a width
below 64 comes back as the two's complement of its negative, one of all ones as `UINTMAX_MAX`, and a one-bit count as
0.  The run-time path zero-extends the same constant, so it adds what the loop iterates (`tripCount_exact_iff`).
-/

namespace ZRay.Pass.ScalarEvolution

/-- What `getBackedgeTakenCount(L, Exact)` returns: nothing, a constant of `w` bits, or another expression. -/
inductive BackedgeTaken where
  | couldNotCompute
  | constant (w : Nat) (c : BitVec w)
  | expression (loopInvariant : Bool)

/-- `hasLoopInvariantBackedgeTakenCount`. -/
def BackedgeTaken.hasLoopInvariantBackedgeTakenCount : BackedgeTaken → Bool
  | .couldNotCompute => false
  | _ => true

/-- A constant as `SCEV::print` writes it. -/
def printConstant {w : Nat} (c : BitVec w) : List Char :=
  if w = 1 then (if c.toNat = 1 then "true".toList else "false".toList) else printSigned c.toInt

/-- The text becomes `*count`.  With `NDEBUG` the assertion is empty and the increment wraps. -/
def readTripCount (ndebug : Bool) (text : List Char) : Except String (Bool × Nat) :=
  let count := strtoumax text
  if !ndebug && count = uintmaxMax then .error "Loop Backedge count overflow!"
  else .ok (true, (count + 1) % 2 ^ 64)

/-- The part that the two passes share. -/
def tripCountOf (ndebug : Bool) (count : Nat) : BackedgeTaken → Except String (Bool × Nat)
  | .couldNotCompute => .ok (false, 0)
  | .constant _ c => readTripCount ndebug (printConstant c)
  | .expression _ => .ok (false, count)

/-- `ZRayPass::getLoopTripCount`: what it returns and the value of `*count`, which was `count`; an error is the failed
assertion. -/
def getLoopTripCount (ndebug : Bool) (v : BackedgeTaken) (count : Nat) : Except String (Bool × Nat) :=
  if !v.hasLoopInvariantBackedgeTakenCount then .ok (false, count) else tripCountOf ndebug count v

/-- `SFCheckPass::getLoopTripCount` asks no such question first. -/
def checkLoopTripCount (ndebug : Bool) (v : BackedgeTaken) (count : Nat) : Except String (Bool × Nat) :=
  tripCountOf ndebug count v

/-- `insertDynamicLoopEvent`: what the counter is advanced by when the count is `c` at run time, an integer cast
without sign to 64 bits plus one. -/
def dynamicTripCount {w : Nat} (c : BitVec w) : BitVec 64 := c.setWidth 64 + 1#64

/-- A constant that `strtoumax` reads back from its text: it has 64 bits, or is in the lower half of its width. -/
def BackedgeTaken.IsReadBack : BackedgeTaken → Prop
  | .constant w c => w = 64 ∨ c.toNat < 2 ^ (w - 1)
  | _ => True

/-- Does the answer allow the count `c` at an entry of the loop?  An expression may have any value there. -/
def BackedgeTaken.Allows {w : Nat} (c : BitVec w) : BackedgeTaken → Prop
  | .couldNotCompute => False
  | .constant w' c' => w' = w ∧ c'.toNat = c.toNat
  | .expression _ => True

/-- The answer as the loop tree is built with it, in terms of the number the text is read as.  A constant read as
`UINTMAX_MAX` fails the assertion, or wraps to no trip count at all. -/
def BackedgeTaken.asRead : BackedgeTaken → BackedgeTakenCount
  | .couldNotCompute => .couldNotCompute
  | .constant _ c =>
    if strtoumax (printConstant c) = uintmaxMax then .expression true else .constant (strtoumax (printConstant c))
  | .expression loopInvariant => .expression loopInvariant

/-- Where the count fits, it is right exactly when the text is read as the backedge-taken count. -/
theorem readTripCount_eq_iff (ndebug : Bool) {text : List Char} {n : Nat} (hn : n + 1 < 2 ^ 64) :
    readTripCount ndebug text = .ok (true, n + 1) ↔ strtoumax text = n := by
  have hlt := strtoumax_lt text
  unfold readTripCount uintmaxMax
  dsimp only
  constructor
  · intro h
    split at h
    · cases h
    · have hcount : (strtoumax text + 1) % 2 ^ 64 = n + 1 := (Prod.mk.inj (Except.ok.inj h)).2
      omega
  · intro h
    have hmax : ¬ n = 2 ^ 64 - 1 := by omega
    rw [h, Nat.mod_eq_of_lt hn, decide_eq_false hmax, Bool.and_false, if_neg Bool.false_ne_true]

/-- The scale factor of a loop, which is 0 before `getLoopTripCount` runs, is that of the loop tree. -/
theorem scaleFactor_eq {ndebug : Bool} {v : BackedgeTaken} {ok : Bool} {count : Nat}
    (h : getLoopTripCount ndebug v 0 = .ok (ok, count)) : count = Pass.getLoopTripCount v.asRead := by
  cases v with
  | couldNotCompute => exact (Prod.mk.inj (Except.ok.inj h)).2.symm
  | constant w c =>
    have hlt := strtoumax_lt (printConstant c)
    change readTripCount ndebug (printConstant c) = .ok (ok, count) at h
    unfold readTripCount at h
    dsimp only at h
    split at h
    · cases h
    · have hcount : (strtoumax (printConstant c) + 1) % 2 ^ 64 = count := (Prod.mk.inj (Except.ok.inj h)).2
      rw [← hcount, BackedgeTaken.asRead]
      split
      · rename_i hmax
        rw [hmax]
        rfl
      · rename_i hmax
        show (strtoumax (printConstant c) + 1) % 2 ^ 64 = strtoumax (printConstant c) + 1
        unfold uintmaxMax at hmax
        omega
  | expression loopInvariant => exact (Prod.mk.inj (Except.ok.inj h)).2.symm

variable {w : Nat} {c : BitVec w}

/-- Wider than one bit: the lower half is read back, the upper half as if it were sign-extended to 64 bits. -/
theorem strtoumax_printConstant (hw : w ≠ 1) (hw64 : w ≤ 64) :
    strtoumax (printConstant c) = if 2 * c.toNat < 2 ^ w then c.toNat else c.toNat + (2 ^ 64 - 2 ^ w) := by
  have hpow : 2 ^ w ≤ 2 ^ 64 := Nat.pow_le_pow_right (by decide) hw64
  have hc := c.isLt
  have hint := BitVec.toInt_eq_toNat_cond c
  have habs : c.toInt.natAbs < 2 ^ 64 := by
    split at hint <;> omega
  have hread := strtoumax_printSigned habs
  rw [printConstant, if_neg hw]
  split at hint
  · rw [if_pos ‹_›]
    omega
  · rw [if_neg ‹_›]
    omega

/-- A constant is read back when it is 64 bits wide or in the lower half of its width, and only then. -/
theorem strtoumax_printConstant_eq_iff (hw : 1 ≤ w) (hw64 : w ≤ 64) :
    strtoumax (printConstant c) = c.toNat ↔ w = 64 ∨ c.toNat < 2 ^ (w - 1) := by
  by_cases hone : w = 1
  · subst hone
    have htrue : strtoumax "true".toList = 0 := by decide
    have hfalse : strtoumax "false".toList = 0 := by decide
    have hc := c.isLt
    have hc01 : c.toNat = 0 ∨ c.toNat = 1 := by omega
    rcases hc01 with h | h
    · rw [printConstant, if_pos rfl, h, if_neg (by decide), hfalse]
      simp
    · rw [printConstant, if_pos rfl, h, if_pos rfl, htrue]
      simp
  · obtain ⟨k, rfl⟩ : ∃ k, w = k + 1 := ⟨w - 1, by omega⟩
    have hpow : 2 ^ (k + 1) ≤ 2 ^ 64 := Nat.pow_le_pow_right (by decide) hw64
    rw [strtoumax_printConstant hone hw64, Nat.add_sub_cancel]
    have hdouble : 2 ^ (k + 1) = 2 * 2 ^ k := by rw [Nat.pow_succ, Nat.mul_comm]
    constructor
    · intro h
      by_cases hlow : 2 * c.toNat < 2 ^ (k + 1)
      · exact .inr (by omega)
      · rw [if_neg hlow] at h
        -- the widths differ by nothing
        have heq : 2 ^ (k + 1) = 2 ^ 64 := by omega
        exact .inl (Nat.pow_right_injective (by decide) heq)
    · rintro (h | h)
      · have heq : 2 ^ (k + 1) = 2 ^ 64 := by rw [h]
        split <;> omega
      · rw [if_pos (by omega)]

/-- Of a constant of any width: when `getLoopTripCount` comes to a number other than 0, the number is the trip count
exactly for the constants that are read back. -/
theorem tripCount_eq_iff_isReadBack {ndebug ok : Bool} {count n : Nat}
    (h : getLoopTripCount ndebug (.constant w c) count = .ok (ok, n)) (hn : n ≠ 0) :
    n = c.toNat + 1 ↔ (BackedgeTaken.constant w c).IsReadBack := by
  have hlt := strtoumax_lt (printConstant c)
  obtain ⟨hmax, rfl⟩ : strtoumax (printConstant c) ≠ uintmaxMax ∧ n = strtoumax (printConstant c) + 1 := by
    change readTripCount ndebug (printConstant c) = .ok (ok, n) at h
    unfold readTripCount at h
    dsimp only at h
    split at h
    · cases h
    · have hcount : (strtoumax (printConstant c) + 1) % 2 ^ 64 = n := (Prod.mk.inj (Except.ok.inj h)).2
      unfold uintmaxMax
      omega
  rw [Nat.add_right_cancel_iff]
  show strtoumax (printConstant c) = c.toNat ↔ w = 64 ∨ c.toNat < 2 ^ (w - 1)
  rcases Nat.lt_or_ge 64 w with hwide | hw64
  · have hpow : 2 ^ 64 ≤ 2 ^ (w - 1) := Nat.pow_le_pow_right (by decide) (by omega)
    have htwice : 2 ^ w = 2 * 2 ^ (w - 1) := by
      rw [← Nat.pow_succ', show (w - 1).succ = w by omega]
    constructor
    · intro hread
      omega
    · intro hlower
      have hint : c.toInt = c.toNat := BitVec.toInt_eq_toNat_of_lt (by omega)
      have htext : printConstant c = Nat.toDigits 10 c.toNat := by
        rw [printConstant, if_neg (by omega), hint, printSigned, if_neg (by omega), Int.natAbs_natCast]
      rw [htext] at hmax ⊢
      rcases Nat.lt_or_ge c.toNat (2 ^ 64) with hsmall | hlarge
      · exact strtoumax_toDigits hsmall
      · exact absurd (strtoumax_toDigits_of_le hlarge) hmax
  · rcases Nat.eq_zero_or_pos w with rfl | hw
    · have hzero : c = 0#0 := BitVec.eq_nil c
      subst hzero
      decide
    · exact strtoumax_printConstant_eq_iff hw hw64

/-- What is added at an entry is the trip count, modulo `2 ^ 64`, for counts of any width. -/
theorem toNat_dynamicTripCount_modEq (c : BitVec w) : (dynamicTripCount c).toNat ≡ c.toNat + 1 [MOD 2 ^ 64] := by
  rw [dynamicTripCount, BitVec.toNat_add, BitVec.toNat_setWidth]
  exact (Nat.mod_modEq _ _).trans ((Nat.mod_modEq _ _).add_right 1)

theorem toNat_dynamicTripCount (hc : c.toNat + 1 < 2 ^ 64) : (dynamicTripCount c).toNat = c.toNat + 1 := by
  have hlt : c.toNat < 2 ^ 64 := by omega
  rw [dynamicTripCount, BitVec.toNat_add, BitVec.toNat_setWidth, Nat.mod_eq_of_lt hlt]
  exact Nat.mod_eq_of_lt hc

/-- Both passes compute `c + 1` and return true, and the counter of a run-time count is advanced by as much. -/
structure TripCountExact (ndebug : Bool) {w : Nat} (c : BitVec w) : Prop where
  static : ∀ count, getLoopTripCount ndebug (.constant w c) count = .ok (true, c.toNat + 1)
  check : ∀ count, checkLoopTripCount ndebug (.constant w c) count = .ok (true, c.toNat + 1)
  dynamic : (dynamicTripCount c).toNat = c.toNat + 1

/-- For every width and every constant whose trip count fits 64 bits: the trip count is right, if and only if the
width is 64 or the constant is in the lower half of its width. -/
theorem tripCount_exact_iff (ndebug : Bool) (hw : 1 ≤ w) (hw64 : w ≤ 64) (hc : c.toNat + 1 < 2 ^ 64) :
    TripCountExact ndebug c ↔ w = 64 ∨ c.toNat < 2 ^ (w - 1) := by
  rw [← strtoumax_printConstant_eq_iff hw hw64, ← readTripCount_eq_iff ndebug hc]
  exact ⟨fun h => h.static 0, fun h => ⟨fun _ => h, fun _ => h, toNat_dynamicTripCount hc⟩⟩

/-- An 8-bit count of 100 is right. -/
theorem tripCountExact_hundred : TripCountExact false 100#8 :=
  (tripCount_exact_iff false (by decide) (by decide) (by decide)).mpr (.inr (by decide))

/-- `2 ^ 31` in 32 bits is read as `2 ^ 64 - 2 ^ 31`; the largest 8-bit count fails the assertion; one bit is read as
0. -/
theorem not_tripCountExact_upperHalf :
    getLoopTripCount false (.constant 32 (2147483648#32)) 0 = .ok (true, 2 ^ 64 - 2 ^ 31 + 1) ∧
      ¬ TripCountExact false 2147483648#32 ∧
      getLoopTripCount false (.constant 8 (255#8)) 0 = .error "Loop Backedge count overflow!" ∧
      getLoopTripCount false (.constant 1 (1#1)) 0 = .ok (true, 1) := by
  have hread : strtoumax (printConstant (2147483648#32)) = 2 ^ 64 - 2 ^ 31 := by
    rw [strtoumax_printConstant (by decide) (by decide)]
    decide
  have hcount : getLoopTripCount false (.constant 32 (2147483648#32)) 0 = .ok (true, 2 ^ 64 - 2 ^ 31 + 1) := by
    change readTripCount false (printConstant (2147483648#32)) = _
    unfold readTripCount
    rw [hread]
    decide
  refine ⟨hcount, fun h => ?_, by decide, by decide⟩
  have hstatic := h.static 0
  rw [hcount] at hstatic
  exact absurd hstatic (by decide)

end ZRay.Pass.ScalarEvolution
