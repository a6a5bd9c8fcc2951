import Mathlib

/-!
# The charge for large constants

`getLargeConstantOpCount` charges an instruction for the constants it has to fetch from memory.  The loop over the
elements of a vector is to tell a vector of equal elements, fetched once, from one that is fetched whole.  Its
`continue` goes on with the next element instead of the next operand, so every element that differs is charged the
whole vector, and the single element is charged on top (`vectorCharge`).
-/

namespace ZRay.Pass

/-- A floating-point constant: the width of its bit pattern, and its printed text, which is never as short as the
positions that are read. -/
structure ConstantFP where
  bitWidth : Nat
  printed : List Char
  length_printed : 9 ≤ printed.length
  deriving DecidableEq

/-- A vector of plain numbers, as their bit patterns. -/
structure ConstantDataVector where
  elementByteSize : Nat
  isInteger : Bool
  elements : List (BitVec (8 * elementByteSize))
  deriving DecidableEq

/-- An operand of an instruction: a constant, of which the last kind is any other than the first two, or a value. -/
inductive Operand (ν : Type*) where
  | constantFP (c : ConstantFP)
  | constantDataVector (v : ConstantDataVector)
  | constant (numElements storeSize : Nat) (isPointer isGlobal : Bool)
  | value (v : ν) (isPointer : Bool)
  deriving DecidableEq

/-- The text without the type and the leading digits: `.000000e` says that there are no others. -/
def ConstantFP.isRound (c : ConstantFP) : Bool :=
  (c.printed.drop 8).take 8 = ".000000e".toList || (c.printed.drop 9).take 8 = ".000000e".toList

namespace ConstantDataVector

variable (v : ConstantDataVector)

/-- `getNumElements`. -/
def numElements : Nat := v.elements.length

/-- The vector counts as an immediate: its first element is a small integer, or there is none. -/
def isImmediate : Bool :=
  match v.elements with
  | [] => true
  | firstElement :: _ => v.isInteger && decide (firstElement.toInt ≤ 127) && decide (-128 ≤ firstElement.toInt)

/-- The elements that are not equal to the first one. -/
def differing : Nat :=
  match v.elements with
  | [] => 0
  | firstElement :: rest => rest.countP (· ≠ firstElement)

end ConstantDataVector

variable {ν : Type*}

/-- The number of elements of an operand and its size in memory, if it is a constant. -/
def Operand.extent : Operand ν → Nat × Nat
  | .constantFP c => (1, (c.bitWidth + 7) / 8)
  | .constantDataVector v => (v.numElements, v.numElements * v.elementByteSize)
  | .constant numElements storeSize _ _ => (numElements, storeSize)
  | .value _ _ => (0, 0)

/-- The body of the loop over the operands of `getLargeConstantOpCount`, on `count` and `bytes`. -/
def chargeOperand (acc : Int32 × Int32) : Operand ν → Int32 × Int32
  | .constantFP c => if c.bitWidth = 64 ∧ ¬ c.isRound then (acc.1 + 1, acc.2 + 8) else acc
  | .constantDataVector v =>
    if v.isImmediate then acc
    else
      let numElements := Int32.ofNat v.numElements
      let elementSizeBytes := Int32.ofNat v.elementByteSize
      let acc := v.elements.tail.foldl (fun acc currentElement =>
        -- the `continue` behind these two belongs to this loop
        if v.elements.head? ≠ some currentElement then (acc.1 + numElements, acc.2 + numElements * elementSizeBytes)
        else acc) acc
      (acc.1 + 1, acc.2 + elementSizeBytes)
  | .constant _ _ _ _ => acc
  | .value _ _ => acc

/-- `getLargeConstantOpCount`: the accesses, and their bytes. -/
def getLargeConstantOpCount (operands : List (Operand ν)) : Int32 × Int32 := operands.foldl chargeOperand (0, 0)

/-! ### What an operand is charged -/

/-- What a vector is charged before the `int`s wrap. -/
def vectorCharge (v : ConstantDataVector) : Nat × Nat :=
  if v.isImmediate then (0, 0)
  else (v.differing * v.numElements + 1, (v.differing * v.numElements + 1) * v.elementByteSize)

/-- What an operand is charged before the `int`s wrap. -/
def operandCharge : Operand ν → Nat × Nat
  | .constantFP c => if c.bitWidth = 64 ∧ ¬ c.isRound then (1, 8) else (0, 0)
  | .constantDataVector v => vectorCharge v
  | .constant _ _ _ _ => (0, 0)
  | .value _ _ => (0, 0)

/-- One access for equal elements, and one for each element otherwise. -/
def broadcastCharge (v : ConstantDataVector) : Nat × Nat :=
  if v.isImmediate then (0, 0)
  else if v.differing = 0 then (1, v.elementByteSize) else (v.numElements, v.numElements * v.elementByteSize)

theorem foldl_differing (v : ConstantDataVector) (acc : Int32 × Int32) :
    v.elements.tail.foldl (fun acc currentElement =>
      if v.elements.head? ≠ some currentElement then
        (acc.1 + Int32.ofNat v.numElements, acc.2 + Int32.ofNat v.numElements * Int32.ofNat v.elementByteSize)
      else acc) acc =
    (acc.1 + Int32.ofNat (v.differing * v.numElements),
      acc.2 + Int32.ofNat (v.differing * v.numElements * v.elementByteSize)) := by
  unfold ConstantDataVector.differing
  generalize v.numElements = n
  cases v.elements with
  | nil => simp
  | cons firstElement rest =>
    simp only [List.tail_cons, List.head?_cons, ne_eq, Option.some.injEq]
    induction rest generalizing acc with
    | nil => simp
    | cons currentElement rest ih =>
      rw [List.foldl_cons, ih, List.countP_cons]
      by_cases h : firstElement = currentElement
      · simp [h]
      · simp [h, Ne.symm h, Nat.add_mul, Int32.add_assoc, Int32.add_comm]

theorem chargeOperand_eq (acc : Int32 × Int32) (op : Operand ν) :
    chargeOperand acc op =
      (acc.1 + Int32.ofNat (operandCharge op).1, acc.2 + Int32.ofNat (operandCharge op).2) := by
  cases op with
  | constantFP c =>
    simp only [chargeOperand, operandCharge]
    split
    · rfl
    · simp
  | constantDataVector v =>
    simp only [chargeOperand, operandCharge, vectorCharge]
    split
    · simp
    · rw [foldl_differing, Nat.add_mul, Nat.one_mul, Int32.ofNat_add, Int32.ofNat_add _ v.elementByteSize,
        Int32.add_assoc, Int32.add_assoc]
      rfl
  | constant _ _ _ _ => simp [chargeOperand, operandCharge]
  | value _ _ => simp [chargeOperand, operandCharge]

theorem getLargeConstantOpCount_eq (operands : List (Operand ν)) :
    getLargeConstantOpCount operands = (Int32.ofNat (operands.map fun op => (operandCharge op).1).sum,
      Int32.ofNat (operands.map fun op => (operandCharge op).2).sum) := by
  have hloop : ∀ (acc : Int32 × Int32), operands.foldl chargeOperand acc =
      (acc.1 + Int32.ofNat (operands.map fun op => (operandCharge op).1).sum,
        acc.2 + Int32.ofNat (operands.map fun op => (operandCharge op).2).sum) := by
    induction operands with
    | nil => simp
    | cons op operands ih =>
      intro acc
      rw [List.foldl_cons, ih, chargeOperand_eq]
      simp [Int32.add_assoc]
  rw [getLargeConstantOpCount, hloop]
  simp

/-! ### The charge that is meant -/

theorem ofNat_eq_zero_iff (x : Nat) : Int32.ofNat x = 0 ↔ 2 ^ 32 ∣ x := by
  rw [← Int32.toBitVec_inj, Int32.toBitVec_ofNat', ← BitVec.toNat_inj, BitVec.toNat_ofNat]
  exact (Nat.dvd_iff_mod_eq_zero).symm

/-- An `int` that wrapped is at most what was summed. -/
theorem toInt_ofNat_le (x : Nat) : (Int32.ofNat x).toInt ≤ x := by
  rw [Int32.toInt_ofNat', Int.bmod_def]
  have hsize : ((Int32.size : Nat) : Int) = 4294967296 := rfl
  rw [hsize]
  split <;> omega

/-- The vectors whose charge comes out right: all elements are equal, or the charge is off by a multiple
of `2 ^ 32`. -/
def ConstantDataVector.ChargeFits (v : ConstantDataVector) : Prop :=
  v.differing = 0 ∨ 2 ^ 32 ∣ (v.differing - 1) * v.numElements + 1

theorem vectorCharge_eq_broadcastCharge_iff {v : ConstantDataVector} (h : v.isImmediate = false) :
    Int32.ofNat (vectorCharge v).1 = Int32.ofNat (broadcastCharge v).1 ↔ v.ChargeFits := by
  simp only [vectorCharge, broadcastCharge, h, Bool.false_eq_true, if_false, ConstantDataVector.ChargeFits]
  rcases Nat.eq_zero_or_pos v.differing with hzero | hpos
  · simp [hzero]
  · have hsplit : v.differing * v.numElements + 1 = v.numElements + ((v.differing - 1) * v.numElements + 1) := by
      rw [Nat.sub_mul, Nat.one_mul]
      have := Nat.mul_le_mul_right v.numElements hpos
      omega
    have hne : v.differing ≠ 0 := by omega
    simp only [hne, if_false, false_or]
    rw [hsplit, Int32.ofNat_add, ← ofNat_eq_zero_iff]
    constructor
    · intro heq
      simpa using heq
    · intro heq
      rw [heq, Int32.add_zero]

theorem vectorCharge_bytes {v : ConstantDataVector}
    (h : Int32.ofNat (vectorCharge v).1 = Int32.ofNat (broadcastCharge v).1) :
    Int32.ofNat (vectorCharge v).2 = Int32.ofNat (broadcastCharge v).2 := by
  have hbytes : ∀ c : Nat × Nat, c = vectorCharge v ∨ c = broadcastCharge v → c.2 = c.1 * v.elementByteSize := by
    rintro c (rfl | rfl)
    · unfold vectorCharge
      split <;> simp
    · unfold broadcastCharge
      split
      · simp
      · split <;> simp
  rw [hbytes _ (.inl rfl), hbytes _ (.inr rfl), Int32.ofNat_mul, Int32.ofNat_mul, h]

/-- The charge of an operand with the vectors broadcast. -/
def meantCharge : Operand ν → Nat × Nat
  | .constantDataVector v => broadcastCharge v
  | op => operandCharge op

theorem meantCharge_le (op : Operand ν) : (meantCharge op).1 ≤ op.extent.1 ∧ (meantCharge op).2 ≤ op.extent.2 := by
  cases op with
  | constantFP c =>
    simp only [meantCharge, operandCharge, Operand.extent]
    split
    · next h => exact ⟨Nat.le_refl _, by rw [h.1]⟩
    · exact ⟨Nat.zero_le _, Nat.zero_le _⟩
  | constantDataVector v =>
    have hn : v.isImmediate = false → 1 ≤ v.numElements := by
      unfold ConstantDataVector.isImmediate ConstantDataVector.numElements
      cases v.elements <;> simp
    simp only [meantCharge, broadcastCharge, Operand.extent]
    split
    · exact ⟨Nat.zero_le _, Nat.zero_le _⟩
    · next h =>
      have hn := hn (by simpa using h)
      split
      · exact ⟨hn, by simpa using Nat.mul_le_mul_right v.elementByteSize hn⟩
      · exact ⟨Nat.le_refl _, Nat.le_refl _⟩
  | constant _ _ _ _ => exact ⟨Nat.zero_le _, Nat.zero_le _⟩
  | value _ _ => exact ⟨Nat.zero_le _, Nat.zero_le _⟩

/-- The charge of an instruction as it is meant: no more than its constants hold, and for each vector one element if
all are equal, and all elements otherwise. -/
structure ConstantsCharged (operands : List (Operand ν)) : Prop where
  accesses_le : (getLargeConstantOpCount operands).1.toInt ≤ (operands.map fun op => op.extent.1).sum
  bytes_le : (getLargeConstantOpCount operands).2.toInt ≤ (operands.map fun op => op.extent.2).sum
  vector : ∀ us v vs, operands = us ++ .constantDataVector v :: vs → v.isImmediate = false →
    getLargeConstantOpCount operands =
      ((getLargeConstantOpCount (us ++ vs)).1 + Int32.ofNat (broadcastCharge v).1,
        (getLargeConstantOpCount (us ++ vs)).2 + Int32.ofNat (broadcastCharge v).2)

/-- An operand adds its charge, wherever it stands. -/
theorem getLargeConstantOpCount_append_cons (us vs : List (Operand ν)) (op : Operand ν) :
    getLargeConstantOpCount (us ++ op :: vs) =
      ((getLargeConstantOpCount (us ++ vs)).1 + Int32.ofNat (operandCharge op).1,
        (getLargeConstantOpCount (us ++ vs)).2 + Int32.ofNat (operandCharge op).2) := by
  simp only [getLargeConstantOpCount_eq, List.map_append, List.map_cons, List.sum_append, List.sum_cons,
    ← Int32.ofNat_add,
    Prod.mk.injEq]
  exact ⟨congrArg Int32.ofNat (by omega), congrArg Int32.ofNat (by omega)⟩

theorem sum_operandCharge_eq {operands : List (Operand ν)}
    (h : ∀ v, .constantDataVector v ∈ operands → v.isImmediate = false → v.ChargeFits) :
    getLargeConstantOpCount operands = (Int32.ofNat (operands.map fun op => (meantCharge op).1).sum,
      Int32.ofNat (operands.map fun op => (meantCharge op).2).sum) := by
  have hop : ∀ op ∈ operands, Int32.ofNat (operandCharge op).1 = Int32.ofNat (meantCharge op).1 ∧
      Int32.ofNat (operandCharge op).2 = Int32.ofNat (meantCharge op).2 := by
    intro op hop
    cases op with
    | constantDataVector v =>
      cases himm : v.isImmediate with
      | true => simp [operandCharge, meantCharge, vectorCharge, broadcastCharge, himm]
      | false =>
        have hfits := (vectorCharge_eq_broadcastCharge_iff himm).mpr (h v hop himm)
        exact ⟨hfits, vectorCharge_bytes hfits⟩
    | constantFP c => exact ⟨rfl, rfl⟩
    | constant _ _ _ _ => exact ⟨rfl, rfl⟩
    | value _ _ => exact ⟨rfl, rfl⟩
  rw [getLargeConstantOpCount_eq]
  clear h
  induction operands with
  | nil => rfl
  | cons op operands ih =>
    obtain ⟨haccess, hbytes⟩ := hop op List.mem_cons_self
    have ih := Prod.mk.inj (ih fun op h => hop op (List.mem_cons_of_mem _ h))
    simp only [List.map_cons, List.sum_cons, Int32.ofNat_add, haccess, hbytes, ih.1, ih.2]

/-- The charge is the one that is meant exactly when each vector that is no immediate has equal elements, up to a wrap
of the `int`s. -/
theorem constantsCharged_iff (operands : List (Operand ν)) :
    ConstantsCharged operands ↔
      ∀ v, .constantDataVector v ∈ operands → v.isImmediate = false → v.ChargeFits := by
  constructor
  · intro h v hv himm
    obtain ⟨us, vs, heq⟩ := List.append_of_mem hv
    have hvector := h.vector us v vs heq himm
    rw [heq, getLargeConstantOpCount_append_cons, Prod.mk.injEq, Int32.add_right_inj] at hvector
    exact (vectorCharge_eq_broadcastCharge_iff himm).mp hvector.1
  · intro h
    have heq := sum_operandCharge_eq h
    refine ⟨?_, ?_, fun us v vs hsplit himm => ?_⟩
    · rw [heq]
      exact (toInt_ofNat_le _).trans (by exact_mod_cast List.sum_le_sum fun op _ => (meantCharge_le op).1)
    · rw [heq]
      exact (toInt_ofNat_le _).trans (by exact_mod_cast List.sum_le_sum fun op _ => (meantCharge_le op).2)
    · have hfits := (vectorCharge_eq_broadcastCharge_iff himm).mpr (h v (by simp [hsplit]) himm)
      rw [hsplit, getLargeConstantOpCount_append_cons]
      simp only [operandCharge, hfits, vectorCharge_bytes hfits]

/-- `<2 x i64> <i64 1000, i64 2000>`. -/
private def twoElements : ConstantDataVector where
  elementByteSize := 8
  isInteger := true
  elements := [1000, 2000]

/-- Two elements are charged as three accesses and 24 bytes. -/
theorem constants_overcharged : ¬ ∀ operands : List (Operand Nat), ConstantsCharged operands := by
  intro h
  exact absurd (h [.constantDataVector twoElements]).bytes_le (by decide)

end ZRay.Pass
