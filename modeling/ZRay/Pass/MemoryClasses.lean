import ZRay.Pass.RecordInst

/-!
# The classes of the memory accesses

The loads and stores of a profile are split into accesses to the stack, the heap and globals.  A call is always
recorded as one stack read and one stack write, but as a load only if it may read memory and as a store only if it may
write, or as both if it may do neither.  So a call that may do one of the two breaks the split, and a call of the tool
takes back a load and a store that it may not have recorded.  Without such calls no field ever shrinks, and the
classes stay below the totals (`classesSplit_iff`).
-/

namespace ZRay.Pass

variable {ν : Type*} (stackAddressList : ν → Bool)

/-- The instructions one after the other, each with its scale factor. -/
def recordSequence (seq : List (Instruction ν × UInt64)) (profile : ProfileData) : ProfileData :=
  seq.foldl (fun profile e => (recordInst stackAddressList e.1 e.2 profile).1) profile

/-- What a step takes back of a field after it has added it. -/
def takenBack (I : Instruction ν) (g : SummedField) : ℤ :=
  match I.opcode.switchCase with
  | .load =>
    if getGlobalOpCount I.operands = 0 ∧ stackAddressList I.id then chargeOf .bytesRead I.accessSize.toNat g else 0
  | .store =>
    if getGlobalOpCount I.operands = 0 ∧ stackAddressList I.id then chargeOf .bytesWritten I.accessSize.toNat g else 0
  | .call =>
    if I.isToolCall then chargeOf .loadCount 1 g + chargeOf .storeCount 1 g + chargeOf .totalInstCount 1 g else 0
  | _ => 0

/-- What a step adds to a field, for scale factor 1. -/
def added (I : Instruction ν) (g : SummedField) : ℕ :=
  (charge stackAddressList I g + takenBack stackAddressList I g).toNat

/-- All that is added to a field fits into 64 bits. -/
def Fits (f : SummedField) (seq : List (Instruction ν × UInt64)) : Prop :=
  (seq.map fun e => e.2.toNat * added stackAddressList e.1 f).sum < 2 ^ 64

/-- No step makes a field smaller, and the classes do not exceed the totals, as long as the fields fit. -/
structure ClassesSplit (seq : List (Instruction ν × UInt64)) : Prop where
  mono : ∀ f, Fits stackAddressList f seq → ∀ pre e post, seq = pre ++ e :: post →
    (recordSequence stackAddressList pre {}).get f ≤ (recordSequence stackAddressList (pre ++ [e]) {}).get f
  reads : (∀ f ∈ [SummedField.loadCount, .stackReadCount, .heapReadCount, .globalOpReadCount],
      Fits stackAddressList f seq) →
    (recordSequence stackAddressList seq {}).stackReadCount.toNat +
      (recordSequence stackAddressList seq {}).heapReadCount.toNat +
      (recordSequence stackAddressList seq {}).globalOpReadCount.toNat ≤
        (recordSequence stackAddressList seq {}).loadCount.toNat
  writes : (∀ f ∈ [SummedField.storeCount, .stackWriteCount, .heapWriteCount, .globalOpWriteCount],
      Fits stackAddressList f seq) →
    (recordSequence stackAddressList seq {}).stackWriteCount.toNat +
      (recordSequence stackAddressList seq {}).heapWriteCount.toNat +
      (recordSequence stackAddressList seq {}).globalOpWriteCount.toNat ≤
        (recordSequence stackAddressList seq {}).storeCount.toNat

/-- The instruction keeps the split: a call may read and write memory, or neither; one that is taken for a call of the
tool may do both.  The large constants of a binary operator are no more than an `int` counts. -/
def Balanced (I : Instruction ν) : Prop :=
  match I.opcode.switchCase with
  | .call =>
    if I.isToolCall then I.mayReadFromMemory = true ∧ I.mayWriteToMemory = true
    else I.mayReadFromMemory = I.mayWriteToMemory
  | .intBinary | .fpBinary =>
    let large_const_info := getLargeConstantOpCount I.operands
    large_const_info.1 ≠ 0 → 0 ≤ large_const_info.1.toInt ∧ 0 ≤ large_const_info.2.toInt
  | _ => True

/-! ### One instruction -/

section

variable {I : Instruction ν}

theorem chargeOf_nonneg {n : ℤ} (h : 0 ≤ n) (f g : SummedField) : 0 ≤ chargeOf f n g := by
  unfold chargeOf
  split
  · exact h
  · exact Int.le_refl 0

theorem accessCharge_nonneg (I : Instruction ν) (g : SummedField) : 0 ≤ accessCharge I g := by
  unfold accessCharge
  have htotal := chargeOf_nonneg (by decide : (0 : ℤ) ≤ 1) .totalInstCount g
  have hload := chargeOf_nonneg (by decide : (0 : ℤ) ≤ 1) .loadCount g
  have hstore := chargeOf_nonneg (by decide : (0 : ℤ) ≤ 1) .storeCount g
  split <;> split <;> omega

theorem bytesCharge_nonneg (I : Instruction ν) (g : SummedField) : 0 ≤ bytesCharge I g := by
  have hread := chargeOf_nonneg (Int.natCast_nonneg I.accessSize.toNat) .bytesRead g
  have hwritten := chargeOf_nonneg (Int.natCast_nonneg I.accessSize.toNat) .bytesWritten g
  unfold bytesCharge
  split <;> omega

theorem otherCharge_nonneg (I : Instruction ν) (g : SummedField) : 0 ≤ otherCharge I g := by
  have hpointer := chargeOf_nonneg (Int.natCast_nonneg (getPointerOpCount I.operands)) .memInstructionCount g
  have hother := chargeOf_nonneg (by decide : (0 : ℤ) ≤ 1) .otherInstCount g
  unfold otherCharge pointerCharge
  omega

theorem memIntrinsicCharge_nonneg (I : Instruction ν) (g : SummedField) : 0 ≤ memIntrinsicCharge I g := by
  have hsize : ∀ (size : UInt64) f, 0 ≤ chargeOf f size.toNat g := fun size f =>
    chargeOf_nonneg (Int.natCast_nonneg _) f g
  have hother := otherCharge_nonneg I g
  unfold memIntrinsicCharge
  split
  · exact hsize _ _
  · exact Int.add_nonneg (hsize _ _) (hsize _ _)
  · exact Int.add_nonneg (hsize _ _) (hsize _ _)
  · exact hother
  · exact hother

theorem opcode_of_load (h : I.opcode.switchCase = .load) : I.opcode = .load := by
  revert h
  cases I.opcode <;> simp [Opcode.switchCase]

theorem opcode_of_store (h : I.opcode.switchCase = .store) : I.opcode = .store := by
  revert h
  cases I.opcode <;> simp [Opcode.switchCase]

theorem chargeOf_neg (f g : SummedField) (n : ℤ) : chargeOf f (-n) g = -chargeOf f n g := by
  unfold chargeOf
  split
  · rfl
  · rfl

theorem takenBack_nonneg (g : SummedField) : 0 ≤ takenBack stackAddressList I g := by
  have hone := fun f => chargeOf_nonneg (by decide : (0 : ℤ) ≤ 1) f g
  have hsize := fun f => chargeOf_nonneg (Int.natCast_nonneg I.accessSize.toNat) f g
  unfold takenBack
  split
  · split
    · exact hsize _
    · exact Int.le_refl 0
  · split
    · exact hsize _
    · exact Int.le_refl 0
  · split
    · exact Int.add_nonneg (Int.add_nonneg (hone _) (hone _)) (hone _)
    · exact Int.le_refl 0
  · exact Int.le_refl 0

theorem constantsCharge_nonneg (h : (getLargeConstantOpCount I.operands).1 ≠ 0 →
    0 ≤ (getLargeConstantOpCount I.operands).1.toInt ∧ 0 ≤ (getLargeConstantOpCount I.operands).2.toInt)
    (g : SummedField) : 0 ≤ constantsCharge I g := by
  unfold constantsCharge
  simp only
  split
  · next hne =>
    obtain ⟨haccess, hbytes⟩ := h hne
    exact Int.add_nonneg (Int.add_nonneg (Int.add_nonneg (chargeOf_nonneg haccess _ g) (chargeOf_nonneg haccess _ g))
      (chargeOf_nonneg haccess _ g)) (chargeOf_nonneg hbytes _ g)
  · exact Int.le_refl 0

theorem callCharge_nonneg (h : Balanced I) (hcall : I.opcode.switchCase = .call) (g : SummedField) :
    0 ≤ accessCharge I g + callCharge I g := by
  have hone := fun f => chargeOf_nonneg (by decide : (0 : ℤ) ≤ 1) f g
  have hmem := memIntrinsicCharge_nonneg I g
  simp only [Balanced, hcall] at h
  by_cases htool : I.isToolCall = true
  · rw [if_pos htool] at h
    rw [accessCharge, callCharge, if_pos h.1, if_pos h.2, if_pos htool, chargeOf_neg, chargeOf_neg, chargeOf_neg]
    omega
  · rw [callCharge, if_neg htool]
    have haccess := accessCharge_nonneg I g
    have hload := hone .loadCount
    have hstore := hone .storeCount
    have hread := hone .stackReadCount
    have hwrite := hone .stackWriteCount
    split <;> omega

theorem switchCharge_nonneg (h : Balanced I) (hload : I.opcode.switchCase ≠ .load)
    (hstore : I.opcode.switchCase ≠ .store) (hcall : I.opcode.switchCase ≠ .call) (g : SummedField) :
    0 ≤ switchCharge stackAddressList I g := by
  have hone := fun f => chargeOf_nonneg (by decide : (0 : ℤ) ≤ 1) f g
  have hpointer : 0 ≤ pointerCharge I g := chargeOf_nonneg (Int.natCast_nonneg _) _ g
  unfold switchCharge
  unfold Balanced at h
  cases hcase : I.opcode.switchCase with
  | terminator => exact Int.add_nonneg hpointer (hone _)
  | unary => exact hpointer
  | intBinary =>
    simp only [hcase] at h
    exact Int.add_nonneg (Int.add_nonneg hpointer (constantsCharge_nonneg h g)) (hone _)
  | fpBinary =>
    simp only [hcase] at h
    exact Int.add_nonneg (Int.add_nonneg hpointer (constantsCharge_nonneg h g)) (hone _)
  | load => exact absurd hcase hload
  | store => exact absurd hcase hstore
  | memory => exact hone _
  | cast => exact Int.add_nonneg hpointer (hone _)
  | iCmp => exact Int.add_nonneg hpointer (hone _)
  | fCmp => exact Int.add_nonneg hpointer (hone _)
  | call => exact absurd hcase hcall
  | aggregate => exact hone _
  | other => exact otherCharge_nonneg I g

theorem loadCharge_nonneg (h : I.opcode = .load) (g : SummedField) :
    0 ≤ bytesCharge I g + loadCharge stackAddressList I g := by
  have hone := fun f => chargeOf_nonneg (by decide : (0 : ℤ) ≤ 1) f g
  have hsize := chargeOf_nonneg (Int.natCast_nonneg I.accessSize.toNat) .bytesRead g
  have hbytes : bytesCharge I g = chargeOf .bytesRead I.accessSize.toNat g := by rw [bytesCharge, h]
  have hmem := hone .memInstructionCount
  have hglobal := hone .globalOpReadCount
  have hstack := hone .stackReadCount
  have hheap := hone .heapReadCount
  rw [hbytes, loadCharge, chargeOf_neg]
  split
  · omega
  · split <;> omega

theorem storeCharge_nonneg (h : I.opcode = .store) (g : SummedField) :
    0 ≤ bytesCharge I g + storeCharge stackAddressList I g := by
  have hone := fun f => chargeOf_nonneg (by decide : (0 : ℤ) ≤ 1) f g
  have hsize := chargeOf_nonneg (Int.natCast_nonneg I.accessSize.toNat) .bytesWritten g
  have hbytes : bytesCharge I g = chargeOf .bytesWritten I.accessSize.toNat g := by rw [bytesCharge, h]
  have hmem := hone .memInstructionCount
  have hglobal := hone .globalOpWriteCount
  have hstack := hone .stackWriteCount
  have hheap := hone .heapWriteCount
  rw [hbytes, storeCharge, chargeOf_neg]
  split
  · omega
  · split <;> omega

/-- A step of a balanced instruction makes no field smaller. -/
theorem charge_nonneg (h : Balanced I) (g : SummedField) : 0 ≤ charge stackAddressList I g := by
  have haccess := accessCharge_nonneg I g
  have hbytes := bytesCharge_nonneg I g
  unfold charge
  by_cases hload : I.opcode.switchCase = .load
  · have hcase : switchCharge stackAddressList I g = loadCharge stackAddressList I g := by rw [switchCharge, hload]
    have hnonneg := loadCharge_nonneg stackAddressList (opcode_of_load hload) g
    omega
  · by_cases hstore : I.opcode.switchCase = .store
    · have hcase : switchCharge stackAddressList I g = storeCharge stackAddressList I g := by
        rw [switchCharge, hstore]
      have hnonneg := storeCharge_nonneg stackAddressList (opcode_of_store hstore) g
      omega
    · by_cases hcall : I.opcode.switchCase = .call
      · have hcase : switchCharge stackAddressList I g = callCharge I g := by rw [switchCharge, hcall]
        have hnonneg := callCharge_nonneg h hcall g
        omega
      · have hnonneg := switchCharge_nonneg stackAddressList h hload hstore hcall g
        omega

/-- The totals and their classes. -/
def accessFields : List SummedField :=
  [.loadCount, .stackReadCount, .heapReadCount, .globalOpReadCount, .storeCount, .stackWriteCount, .heapWriteCount,
    .globalOpWriteCount]

theorem bytesCharge_of_access {f : SummedField} (hf : f ∈ accessFields) : bytesCharge I f = 0 := by
  unfold bytesCharge
  fin_cases hf <;> split <;> rfl

theorem memIntrinsicCharge_of_access {f : SummedField} (hf : f ∈ accessFields) : memIntrinsicCharge I f = 0 := by
  unfold memIntrinsicCharge
  fin_cases hf <;> split <;> rfl

theorem accessCharge_of_access {f : SummedField} (hf : f ∈ accessFields) :
    accessCharge I f = (if f = .loadCount then I.mayReadFromMemory.toNat
      else if f = .storeCount then I.mayWriteToMemory.toNat else 0 : ℕ) := by
  unfold accessCharge
  fin_cases hf <;> cases I.mayReadFromMemory <;> cases I.mayWriteToMemory <;> rfl

/-- The charge of a total or a class, with what the instruction may do to memory. -/
theorem charge_of_access {f : SummedField} (hf : f ∈ accessFields) :
    charge stackAddressList I f = (if f = .loadCount then I.mayReadFromMemory.toNat
      else if f = .storeCount then I.mayWriteToMemory.toNat else 0 : ℕ) + switchCharge stackAddressList I f := by
  rw [charge, accessCharge_of_access hf, bytesCharge_of_access hf, Int.add_zero]

/-- Of the totals and classes, the instructions that are no loads, stores or calls take the reads of their constants
only. -/
theorem switchCharge_of_quiet (hload : I.opcode.switchCase ≠ .load) (hstore : I.opcode.switchCase ≠ .store)
    (hcall : I.opcode.switchCase ≠ .call) :
    (∀ f ∈ [SummedField.stackReadCount, .heapReadCount, .storeCount, .stackWriteCount, .heapWriteCount,
      .globalOpWriteCount], switchCharge stackAddressList I f = 0) ∧
      switchCharge stackAddressList I .globalOpReadCount = switchCharge stackAddressList I .loadCount := by
  unfold switchCharge
  cases hcase : I.opcode.switchCase with
  | load => exact absurd hcase hload
  | store => exact absurd hcase hstore
  | call => exact absurd hcase hcall
  | intBinary =>
    by_cases hconst : (getLargeConstantOpCount I.operands).1 = 0 <;>
      simp [pointerCharge, constantsCharge, chargeOf, hconst]
  | fpBinary =>
    by_cases hconst : (getLargeConstantOpCount I.operands).1 = 0 <;>
      simp [pointerCharge, constantsCharge, chargeOf, hconst]
  | _ => simp [otherCharge, pointerCharge, chargeOf]

/-- The classes of the reads take no more than the loads. -/
theorem readCharge_le (h : Balanced I) :
    charge stackAddressList I .stackReadCount + charge stackAddressList I .heapReadCount +
      charge stackAddressList I .globalOpReadCount ≤ charge stackAddressList I .loadCount := by
  have hmem := fun f hf => memIntrinsicCharge_of_access (I := I) (f := f) hf
  have haccess := fun f hf => charge_of_access stackAddressList (I := I) (f := f) hf
  rw [haccess _ (by decide), haccess _ (by decide), haccess _ (by decide), haccess _ (by decide)]
  by_cases hload : I.opcode.switchCase = .load
  · have hmay : I.mayReadFromMemory = true := by rw [Instruction.mayReadFromMemory, opcode_of_load hload]
    by_cases hglobal : getGlobalOpCount I.operands = 0 <;> by_cases hstack : stackAddressList I.id = true <;>
      simp [switchCharge, hload, loadCharge, chargeOf, hmay, hglobal, hstack]
  by_cases hstore : I.opcode.switchCase = .store
  · by_cases hglobal : getGlobalOpCount I.operands = 0 <;> by_cases hstack : stackAddressList I.id = true <;>
      simp [switchCharge, hstore, storeCharge, chargeOf, hglobal, hstack]
  by_cases hcall : I.opcode.switchCase = .call
  · simp only [switchCharge, hcall, callCharge, hmem .loadCount (by decide), hmem .stackReadCount (by decide),
      hmem .heapReadCount (by decide), hmem .globalOpReadCount (by decide)]
    simp only [Balanced, hcall] at h
    by_cases htool : I.isToolCall = true
    · rw [if_pos htool] at h
      simp [chargeOf, htool, h.1]
    · rw [if_neg htool] at h
      rw [h]
      cases I.mayWriteToMemory <;> simp [chargeOf, htool]
  · obtain ⟨hzero, hglobal⟩ := switchCharge_of_quiet stackAddressList hload hstore hcall
    rw [hzero _ (by decide), hzero _ (by decide), hglobal]
    simp

/-- The classes of the writes take no more than the stores. -/
theorem writeCharge_le (h : Balanced I) :
    charge stackAddressList I .stackWriteCount + charge stackAddressList I .heapWriteCount +
      charge stackAddressList I .globalOpWriteCount ≤ charge stackAddressList I .storeCount := by
  have hmem := fun f hf => memIntrinsicCharge_of_access (I := I) (f := f) hf
  have haccess := fun f hf => charge_of_access stackAddressList (I := I) (f := f) hf
  rw [haccess _ (by decide), haccess _ (by decide), haccess _ (by decide), haccess _ (by decide)]
  by_cases hload : I.opcode.switchCase = .load
  · by_cases hglobal : getGlobalOpCount I.operands = 0 <;> by_cases hstack : stackAddressList I.id = true <;>
      simp [switchCharge, hload, loadCharge, chargeOf, hglobal, hstack]
  by_cases hstore : I.opcode.switchCase = .store
  · have hmay : I.mayWriteToMemory = true := by rw [Instruction.mayWriteToMemory, opcode_of_store hstore]
    by_cases hglobal : getGlobalOpCount I.operands = 0 <;> by_cases hstack : stackAddressList I.id = true <;>
      simp [switchCharge, hstore, storeCharge, chargeOf, hmay, hglobal, hstack]
  by_cases hcall : I.opcode.switchCase = .call
  · simp only [switchCharge, hcall, callCharge, hmem .storeCount (by decide), hmem .stackWriteCount (by decide),
      hmem .heapWriteCount (by decide), hmem .globalOpWriteCount (by decide)]
    simp only [Balanced, hcall] at h
    by_cases htool : I.isToolCall = true
    · rw [if_pos htool] at h
      simp [chargeOf, htool, h.2]
    · rw [if_neg htool] at h
      rw [h]
      cases I.mayWriteToMemory <;> simp [chargeOf, htool]
  · obtain ⟨hzero, -⟩ := switchCharge_of_quiet stackAddressList hload hstore hcall
    rw [hzero _ (by decide), hzero _ (by decide), hzero _ (by decide), hzero _ (by decide)]
    simp

/-- A balanced instruction adds to a field what it is charged, or more. -/
theorem charge_le_added (h : Balanced I) (g : SummedField) :
    (charge stackAddressList I g).toNat ≤ added stackAddressList I g := by
  have htaken : 0 ≤ takenBack stackAddressList I g := takenBack_nonneg stackAddressList g
  have hcharge := charge_nonneg stackAddressList h g
  unfold added
  omega

end

/-! ### Runs -/

section

variable {seq : List (Instruction ν × UInt64)}

/-- What a field has taken in after a sequence. -/
def chargeSum (stackAddressList : ν → Bool) (f : SummedField) (seq : List (Instruction ν × UInt64)) : ℕ :=
  (seq.map fun e => e.2.toNat * (charge stackAddressList e.1 f).toNat).sum

theorem toNat_mul_ofNat {a : UInt64} {n : ℕ} (h : a.toNat * n < 2 ^ 64) :
    (a * UInt64.ofNat n).toNat = a.toNat * n := by
  rw [UInt64.toNat_mul, UInt64.toNat_ofNat', Nat.mul_mod_mod, Nat.mod_eq_of_lt h]

/-- Without an overflow a field is the sum of the scaled charges. -/
theorem toNat_get_recordSequence {f : SummedField} {p : ProfileData} (hseq : ∀ e ∈ seq, Balanced e.1)
    (hfit : (p.get f).toNat + chargeSum stackAddressList f seq < 2 ^ 64) :
    ((recordSequence stackAddressList seq p).get f).toNat = (p.get f).toNat + chargeSum stackAddressList f seq := by
  induction seq generalizing p with
  | nil => simp [recordSequence, chargeSum]
  | cons e seq ih =>
    have hsum : chargeSum stackAddressList f (e :: seq) =
        e.2.toNat * (charge stackAddressList e.1 f).toNat + chargeSum stackAddressList f seq := by
      simp [chargeSum]
    rw [hsum] at hfit ⊢
    have hstep : ((recordInst stackAddressList e.1 e.2 p).1.get f).toNat =
        (p.get f).toNat + e.2.toNat * (charge stackAddressList e.1 f).toNat := by
      have hcharge := charge_nonneg stackAddressList (hseq e List.mem_cons_self) f
      rw [(adds_recordInst stackAddressList e.1).get_eq, ← Int.toNat_of_nonneg hcharge, ofInt_natCast,
        Int.toNat_natCast, UInt64.toNat_add, toNat_mul_ofNat (by omega), Nat.mod_eq_of_lt (by omega)]
    have hrest := ih (p := (recordInst stackAddressList e.1 e.2 p).1)
      (fun e' he' => hseq e' (List.mem_cons_of_mem _ he')) (by rw [hstep]; omega)
    rw [hstep] at hrest
    rw [recordSequence, List.foldl_cons]
    rw [recordSequence] at hrest
    rw [hrest]
    omega

theorem chargeSum_append (f : SummedField) (seq seq' : List (Instruction ν × UInt64)) :
    chargeSum stackAddressList f (seq ++ seq') =
      chargeSum stackAddressList f seq + chargeSum stackAddressList f seq' := by
  simp [chargeSum]

theorem chargeSum_lt {f : SummedField} (hseq : ∀ e ∈ seq, Balanced e.1) (hfit : Fits stackAddressList f seq) :
    chargeSum stackAddressList f seq < 2 ^ 64 := by
  refine Nat.lt_of_le_of_lt (List.sum_le_sum fun e he => ?_) hfit
  exact Nat.mul_le_mul_left _ (charge_le_added stackAddressList (hseq e he) f)

/-- The sums of three fields, where each step charges the three no more than a fourth. -/
theorem chargeSum_le {f g h t : SummedField} (hle : ∀ e ∈ seq, (charge stackAddressList e.1 f).toNat +
      (charge stackAddressList e.1 g).toNat + (charge stackAddressList e.1 h).toNat ≤
        (charge stackAddressList e.1 t).toNat) :
    chargeSum stackAddressList f seq + chargeSum stackAddressList g seq + chargeSum stackAddressList h seq ≤
      chargeSum stackAddressList t seq := by
  induction seq with
  | nil => simp [chargeSum]
  | cons e seq ih =>
    have hhead := Nat.mul_le_mul_left e.2.toNat (hle e List.mem_cons_self)
    have hrest := ih fun e' he' => hle e' (List.mem_cons_of_mem _ he')
    simp only [chargeSum, List.map_cons, List.sum_cons, Nat.mul_add] at hhead hrest ⊢
    omega

/-- Sequences of balanced instructions keep the split. -/
theorem classesSplit_of_balanced (hseq : ∀ e ∈ seq, Balanced e.1) : ClassesSplit stackAddressList seq := by
  have hget : ∀ f, Fits stackAddressList f seq → ∀ pre post, seq = pre ++ post →
      ((recordSequence stackAddressList pre {}).get f).toNat = chargeSum stackAddressList f pre := by
    intro f hfit pre post hsplit
    have hlt := chargeSum_lt stackAddressList hseq hfit
    rw [hsplit, chargeSum_append] at hlt
    have hrun := toNat_get_recordSequence stackAddressList (f := f) (p := {})
      (fun e he => hseq e (by rw [hsplit]; exact List.mem_append_left _ he))
      (by rw [ProfileData.get_default, UInt64.toNat_zero]; omega)
    rwa [ProfileData.get_default, UInt64.toNat_zero, Nat.zero_add] at hrun
  have hall : ∀ f, Fits stackAddressList f seq →
      ((recordSequence stackAddressList seq {}).get f).toNat = chargeSum stackAddressList f seq :=
    fun f hfit => hget f hfit seq [] (List.append_nil seq).symm
  refine ⟨fun f hfit pre e post hsplit => ?_, fun hfit => ?_, fun hfit => ?_⟩
  · have hsplit' : seq = (pre ++ [e]) ++ post := by rw [hsplit, List.append_assoc]; rfl
    rw [UInt64.le_iff_toNat_le, hget f hfit pre (e :: post) hsplit, hget f hfit (pre ++ [e]) post hsplit',
      chargeSum_append]
    exact Nat.le_add_right _ _
  · have hle := chargeSum_le stackAddressList (f := .stackReadCount)
      (g := .heapReadCount) (h := .globalOpReadCount) (t := .loadCount) fun e he => by
        have hread := readCharge_le stackAddressList (hseq e he)
        have hnonneg := charge_nonneg stackAddressList (hseq e he)
        have hstack := hnonneg .stackReadCount
        have hheap := hnonneg .heapReadCount
        have hglobal := hnonneg .globalOpReadCount
        omega
    rw [← hall _ (hfit .stackReadCount (by decide)), ← hall _ (hfit .heapReadCount (by decide)),
      ← hall _ (hfit .globalOpReadCount (by decide)), ← hall _ (hfit .loadCount (by decide))] at hle
    exact hle
  · have hle := chargeSum_le stackAddressList (f := .stackWriteCount)
      (g := .heapWriteCount) (h := .globalOpWriteCount) (t := .storeCount) fun e he => by
        have hwrite := writeCharge_le stackAddressList (hseq e he)
        have hnonneg := charge_nonneg stackAddressList (hseq e he)
        have hstack := hnonneg .stackWriteCount
        have hheap := hnonneg .heapWriteCount
        have hglobal := hnonneg .globalOpWriteCount
        omega
    rw [← hall _ (hfit .stackWriteCount (by decide)), ← hall _ (hfit .heapWriteCount (by decide)),
      ← hall _ (hfit .globalOpWriteCount (by decide)), ← hall _ (hfit .storeCount (by decide))] at hle
    exact hle

end

/-! ### Instructions that break the split -/

section

variable {I : Instruction ν}

/-- A field that an instruction only takes from shrinks when the instruction comes twice. -/
theorem not_classesSplit_of_neg {f : SummedField} (hneg : charge stackAddressList I f < 0)
    (hint : -2 ^ 31 ≤ charge stackAddressList I f) (htaken : added stackAddressList I f = 0) :
    ¬ ClassesSplit stackAddressList [(I, 1), (I, 1)] := by
  intro h
  have hfit : Fits stackAddressList f [(I, 1), (I, 1)] := by simp [Fits, htaken]
  have hmono := h.mono f hfit [(I, 1)] (I, 1) [] rfl
  have hget := (adds_recordInst stackAddressList I).get_eq
  have hfirst : (recordSequence stackAddressList [(I, 1)] {}).get f = UInt64.ofInt (charge stackAddressList I f) := by
    show (recordInst stackAddressList I 1 {}).1.get f = _
    rw [hget, ProfileData.get_default, UInt64.zero_add, UInt64.one_mul]
  have hsecond : (recordSequence stackAddressList [(I, 1), (I, 1)] {}).get f =
      UInt64.ofInt (charge stackAddressList I f + charge stackAddressList I f) := by
    show (recordInst stackAddressList I 1 (recordInst stackAddressList I 1 {}).1).1.get f = _
    rw [hget, hget, ProfileData.get_default, UInt64.zero_add, UInt64.one_mul, UInt64.ofInt_add]
  rw [List.singleton_append, hfirst, hsecond, UInt64.le_iff_toNat_le, UInt64.ofInt, UInt64.ofInt, UInt64.toNat_ofNat',
    UInt64.toNat_ofNat'] at hmono
  omega

theorem not_classesSplit_of_constants (hcase : I.opcode.switchCase = .intBinary ∨ I.opcode.switchCase = .fpBinary)
    (hne : (getLargeConstantOpCount I.operands).1 ≠ 0) (hneg : (getLargeConstantOpCount I.operands).1.toInt < 0 ∨
      (getLargeConstantOpCount I.operands).2.toInt < 0) : ¬ ClassesSplit stackAddressList [(I, 1), (I, 1)] := by
  have htaken : ∀ f, takenBack stackAddressList I f = 0 := by
    intro f
    unfold takenBack
    rcases hcase with hcase | hcase <;> rw [hcase]
  have hbytes : ∀ f, bytesCharge I f = 0 := by
    intro f
    unfold bytesCharge
    split <;> simp_all [Opcode.switchCase]
  have hswitch : ∀ f ∈ [SummedField.globalOpReadCount, .bytesRead],
      switchCharge stackAddressList I f = constantsCharge I f := by
    intro f hf
    unfold switchCharge
    rcases hcase with hcase | hcase <;> fin_cases hf <;> simp [hcase, pointerCharge, chargeOf]
  have haccess : ∀ f ∈ [SummedField.globalOpReadCount, .bytesRead], accessCharge I f = 0 := by
    intro f hf
    fin_cases hf <;> simp [accessCharge, chargeOf]
  have hcharge : ∀ f ∈ [SummedField.globalOpReadCount, .bytesRead],
      charge stackAddressList I f = constantsCharge I f := by
    intro f hf
    rw [charge, haccess f hf, hbytes, hswitch f hf, Int.zero_add, Int.zero_add]
  have hglobal : charge stackAddressList I .globalOpReadCount = (getLargeConstantOpCount I.operands).1.toInt := by
    rw [hcharge _ (by decide)]
    simp [constantsCharge, hne, chargeOf]
  have hread : charge stackAddressList I .bytesRead = (getLargeConstantOpCount I.operands).2.toInt := by
    rw [hcharge _ (by decide)]
    simp [constantsCharge, hne, chargeOf]
  rcases hneg with hneg | hneg
  · refine not_classesSplit_of_neg stackAddressList (f := .globalOpReadCount) (by omega) ?_ ?_
    · have hle := Int32.le_toInt (getLargeConstantOpCount I.operands).1
      omega
    · rw [added, htaken]
      omega
  · refine not_classesSplit_of_neg stackAddressList (f := .bytesRead) (by omega) ?_ ?_
    · have hle := Int32.le_toInt (getLargeConstantOpCount I.operands).2
      omega
    · rw [added, htaken]
      omega

theorem charge_of_toolCall (hcase : I.opcode.switchCase = .call) (htool : I.isToolCall = true) :
    charge stackAddressList I .loadCount = I.mayReadFromMemory.toNat - 1 ∧
      charge stackAddressList I .storeCount = I.mayWriteToMemory.toNat - 1 := by
  rw [charge_of_access stackAddressList (by decide), charge_of_access stackAddressList (by decide)]
  simp [switchCharge, hcase, callCharge, htool, chargeOf]
  omega

theorem not_classesSplit_of_toolCall (hcase : I.opcode.switchCase = .call) (htool : I.isToolCall = true)
    (hone : I.mayReadFromMemory = false ∨ I.mayWriteToMemory = false) :
    ¬ ClassesSplit stackAddressList [(I, 1), (I, 1)] := by
  obtain ⟨hload, hstore⟩ := charge_of_toolCall stackAddressList hcase htool
  have htaken : ∀ f ∈ [SummedField.loadCount, .storeCount], takenBack stackAddressList I f = 1 := by
    intro f hf
    fin_cases hf <;> simp [takenBack, hcase, htool, chargeOf]
  rcases hone with hone | hone
  · rw [hone, Bool.toNat_false] at hload
    refine not_classesSplit_of_neg stackAddressList (f := .loadCount) (by omega) (by omega) ?_
    rw [added, htaken _ (by decide), hload]
    rfl
  · rw [hone, Bool.toNat_false] at hstore
    refine not_classesSplit_of_neg stackAddressList (f := .storeCount) (by omega) (by omega) ?_
    rw [added, htaken _ (by decide), hstore]
    rfl

/-- The charges of a call of the program, where it may do one of reading and writing. -/
theorem charge_of_call (hcase : I.opcode.switchCase = .call) (htool : I.isToolCall = false)
    (hne : I.mayReadFromMemory ≠ I.mayWriteToMemory) {f : SummedField} (hf : f ∈ accessFields) :
    charge stackAddressList I f = (if f = .loadCount then I.mayReadFromMemory.toNat
      else if f = .storeCount then I.mayWriteToMemory.toNat
      else if f = .stackReadCount ∨ f = .stackWriteCount then 1 else 0 : ℕ) := by
  rw [charge_of_access stackAddressList hf]
  have hmem := memIntrinsicCharge_of_access (I := I) hf
  simp only [switchCharge, hcase, callCharge, htool, hmem]
  revert hne
  fin_cases hf <;> cases I.mayReadFromMemory <;> cases I.mayWriteToMemory <;> simp [chargeOf]

theorem not_classesSplit_of_call (hcase : I.opcode.switchCase = .call) (htool : I.isToolCall = false)
    (hne : I.mayReadFromMemory ≠ I.mayWriteToMemory) : ¬ ClassesSplit stackAddressList [(I, 1)] := by
  intro h
  have hcharge := fun f hf => charge_of_call stackAddressList (f := f) hcase htool hne hf
  have htaken : ∀ f, takenBack stackAddressList I f = 0 := by
    intro f
    simp [takenBack, hcase, htool]
  have hget : ∀ f, (recordSequence stackAddressList [(I, 1)] {}).get f =
    UInt64.ofInt (charge stackAddressList I f) := by
    intro f
    show (recordInst stackAddressList I 1 {}).1.get f = _
    rw [(adds_recordInst stackAddressList I).get_eq, ProfileData.get_default, UInt64.zero_add, UInt64.one_mul]
  have hfit : ∀ f ∈ accessFields, Fits stackAddressList f [(I, 1)] := by
    intro f hf
    have hone : added stackAddressList I f ≤ 1 := by
      rw [added, htaken, hcharge f hf, Int.add_zero, Int.toNat_natCast]
      have hread := Bool.toNat_le I.mayReadFromMemory
      have hwrite := Bool.toNat_le I.mayWriteToMemory
      split
      · exact hread
      · split
        · exact hwrite
        · split <;> decide
    simp only [Fits, List.map_cons, List.map_nil, List.sum_cons, List.sum_nil, UInt64.toNat_one]
    omega
  cases hread : I.mayReadFromMemory with
  | false =>
    have hstack : (recordSequence stackAddressList [(I, 1)] {}).stackReadCount = 1 := by
      have hvalue := hget .stackReadCount
      rwa [hcharge _ (by decide)] at hvalue
    have hload : (recordSequence stackAddressList [(I, 1)] {}).loadCount = 0 := by
      have hvalue := hget .loadCount
      rwa [hcharge _ (by decide), if_pos rfl, hread] at hvalue
    have hle := h.reads fun f hf => hfit f (by revert hf; cases f <;> simp [accessFields])
    rw [hstack, hload, UInt64.toNat_one, UInt64.toNat_zero] at hle
    omega
  | true =>
    have hwrite : I.mayWriteToMemory = false := by
      rw [hread] at hne
      simpa using hne.symm
    have hstack : (recordSequence stackAddressList [(I, 1)] {}).stackWriteCount = 1 := by
      have hvalue := hget .stackWriteCount
      rwa [hcharge _ (by decide)] at hvalue
    have hstore : (recordSequence stackAddressList [(I, 1)] {}).storeCount = 0 := by
      have hvalue := hget .storeCount
      rwa [hcharge _ (by decide), if_neg (by decide), if_pos rfl, hwrite] at hvalue
    have hle := h.writes fun f hf => hfit f (by revert hf; cases f <;> simp [accessFields])
    rw [hstack, hstore, UInt64.toNat_one, UInt64.toNat_zero] at hle
    omega

/-- Some sequence of an instruction that is not balanced breaks the split. -/
theorem exists_not_classesSplit (h : ¬ Balanced I) : ∃ seq : List (Instruction ν × UInt64),
    (∀ e ∈ seq, e.1 = I) ∧ ¬ ClassesSplit stackAddressList seq := by
  have hconst : I.opcode.switchCase = .intBinary ∨ I.opcode.switchCase = .fpBinary →
      ((getLargeConstantOpCount I.operands).1 ≠ 0 ∧ ((getLargeConstantOpCount I.operands).1.toInt < 0 ∨
        (getLargeConstantOpCount I.operands).2.toInt < 0)) →
      ∃ seq : List (Instruction ν × UInt64), (∀ e ∈ seq, e.1 = I) ∧ ¬ ClassesSplit stackAddressList seq :=
    fun hcase hneg => ⟨[(I, 1), (I, 1)], by simp, not_classesSplit_of_constants stackAddressList hcase hneg.1 hneg.2⟩
  unfold Balanced at h
  cases hcase : I.opcode.switchCase with
  | call =>
    simp only [hcase] at h
    cases htool : I.isToolCall with
    | true =>
      simp only [htool, if_true, not_and_or, Bool.not_eq_true] at h
      exact ⟨[(I, 1), (I, 1)], by simp, not_classesSplit_of_toolCall stackAddressList hcase htool h⟩
    | false =>
      simp only [htool, Bool.false_eq_true, if_false] at h
      exact ⟨[(I, 1)], by simp, not_classesSplit_of_call stackAddressList hcase htool h⟩
  | intBinary =>
    simp only [hcase, Classical.not_imp, not_and_or, Int.not_le] at h
    exact hconst (.inl hcase) h
  | fpBinary =>
    simp only [hcase, Classical.not_imp, not_and_or, Int.not_le] at h
    exact hconst (.inr hcase) h
  | _ => exact absurd trivial (by simpa only [hcase] using h)

end

/-- The sequences over some instructions never shrink a field and keep the classes below the totals exactly when each
of the instructions is balanced. -/
theorem classesSplit_iff (allowed : Instruction ν → Prop) :
    (∀ seq : List (Instruction ν × UInt64), (∀ e ∈ seq, allowed e.1) → ClassesSplit stackAddressList seq) ↔
      ∀ I, allowed I → Balanced I := by
  refine ⟨fun h I hI => ?_, fun h seq hseq => classesSplit_of_balanced stackAddressList fun e he => h e.1 (hseq e he)⟩
  by_contra hnot
  obtain ⟨seq, hall, hbreaks⟩ := exists_not_classesSplit stackAddressList hnot
  exact hbreaks (h seq fun e he => hall e he ▸ hI)

/-- A call of a function that only reads memory: one load, one stack read, one stack write and no store. -/
private def readonlyCall : Instruction Nat where
  id := 0
  opcode := .call
  onlyReadsMemory := true
  printed := "  %0 = call i32 @strlen(ptr %p)".toList

theorem readonlyCall_breaks_split : ¬ ∀ (stackAddressList : Nat → Bool) (seq : List (Instruction Nat × UInt64)),
    ClassesSplit stackAddressList seq := by
  intro h
  exact not_classesSplit_of_call (fun _ => false) (I := readonlyCall) rfl (by decide) (by decide)
    (h (fun _ => false) [(readonlyCall, 1)])

end ZRay.Pass
