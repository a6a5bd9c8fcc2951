import ZRay.Pass.RecordInst

/-!
# Stack addresses

`recordStackAddresses` goes through the instructions once and puts the users of every `alloca`, and of every
`getelementptr` and `phi` that is in the list already, into the list.  `recordInst` takes a load or store in the list
for a stack access.  So an address is followed only forward in the order of the blocks, and into every operand
(`mem_recordStackAddresses`): a `phi` that gets a stack address over a back edge is missed, and a store that writes a
stack address somewhere else is taken for a stack write.
-/

namespace ZRay.Pass

variable {ν : Type*} [DecidableEq ν]

/-- The instruction has the value among its operands. -/
def Uses (I : Instruction ν) (v : ν) : Prop := ∃ isPointer, .value v isPointer ∈ I.operands

instance (I : Instruction ν) (v : ν) : Decidable (Uses I v) :=
  decidable_of_iff (.value v true ∈ I.operands ∨ .value v false ∈ I.operands)
    ⟨fun h => h.elim (⟨true, ·⟩) (⟨false, ·⟩), fun ⟨isPointer, h⟩ => by cases isPointer <;> simp [h]⟩

/-- A `getelementptr`, or a `phi` of pointers. -/
def PassesOn (I : Instruction ν) : Prop :=
  I.opcode = .getElementPtr ∨ I.opcode = .phi ∧ (I.operands.head?.map Operand.isPointer).getD false = true

instance (I : Instruction ν) : Decidable (PassesOn I) := inferInstanceAs (Decidable (_ ∨ _))

/-- Every value is defined once, a load takes its pointer, a store what it stores and its pointer, and of the operands
of a `getelementptr` only the base is an address. -/
structure WellFormed (instructions : List (Instruction ν)) : Prop where
  eq_of_id : ∀ I ∈ instructions, ∀ J ∈ instructions, I.id = J.id → I = J
  load_operands : ∀ I ∈ instructions, I.opcode = .load → I.operands.length = 1
  store_operands : ∀ I ∈ instructions, I.opcode = .store → I.operands.length = 2
  base_of_address : ∀ I ∈ instructions, I.opcode = .getElementPtr → ∀ J ∈ instructions,
    J.opcode = .alloca ∨ PassesOn J → Uses I J.id → ∃ isPointer, I.operands.head? = some (.value J.id isPointer)

/-- A function: its instructions, and the blocks in the order that `orderBasicBlocks` gives them. -/
structure OrderedFunction (ν : Type*) where
  instructions : List (Instruction ν)
  orderedCFG : List (List (Instruction ν))
  wellFormed : WellFormed instructions
  mem_of_ordered : ∀ I ∈ orderedCFG.flatten, I ∈ instructions

namespace OrderedFunction

variable (f : OrderedFunction ν)

/-- `users`. -/
def users (v : ν) : List ν := (f.instructions.filter fun I => decide (Uses I v)).map (·.id)

/-- The body of the loop of `recordStackAddresses`. -/
def recordStackAddress (stackAddressList : List ν) (I : Instruction ν) : List ν :=
  match I.opcode with
  | .phi =>
    -- a `phi` of another type is passed over
    if (I.operands.head?.map Operand.isPointer).getD false = true ∧ I.id ∈ stackAddressList then
      f.users I.id ++ stackAddressList
    else stackAddressList
  | .alloca => f.users I.id ++ I.id :: stackAddressList
  | .getElementPtr => if I.id ∈ stackAddressList then f.users I.id ++ stackAddressList else stackAddressList
  | _ => stackAddressList

/-- `recordStackAddresses`. -/
def recordStackAddresses : List ν := f.orderedCFG.flatten.foldl f.recordStackAddress []

end OrderedFunction

/-- A chain from an `alloca` to the instruction, in which each takes the one before as an operand and comes behind it:
`pre` is what comes before the instruction. -/
inductive Forward : List (Instruction ν) → Instruction ν → Prop where
  | alloca (pre : List (Instruction ν)) {I : Instruction ν} (h : I.opcode = .alloca) : Forward pre I
  | passOn {pre : List (Instruction ν)} {J : Instruction ν} (between : List (Instruction ν)) {I : Instruction ν}
      (hJ : Forward pre J) (huse : Uses I J.id) (h : PassesOn I) : Forward (pre ++ J :: between) I

/-- The instruction takes the end of such a chain as an operand. -/
def UsesForward (order : List (Instruction ν)) (I : Instruction ν) : Prop :=
  ∃ pre J post, order = pre ++ J :: post ∧ Forward pre J ∧ Uses I J.id

namespace OrderedFunction

variable {f : OrderedFunction ν} {l : List (Instruction ν)}

theorem mem_users {u v : ν} : v ∈ f.users u ↔ ∃ I ∈ f.instructions, Uses I u ∧ I.id = v := by
  simp [users, and_assoc]

/-- The users of a value, told by their identities. -/
theorem id_mem_users {I : Instruction ν} (hI : I ∈ f.instructions) {u : ν} : I.id ∈ f.users u ↔ Uses I u := by
  rw [mem_users]
  refine ⟨fun ⟨J, hJ, huse, hid⟩ => ?_, fun huse => ⟨I, hI, huse, rfl⟩⟩
  rwa [← f.wellFormed.eq_of_id J hJ I hI hid]

theorem mem_recordStackAddress {s : List ν} {I : Instruction ν} {v : ν} : v ∈ f.recordStackAddress s I ↔
    v ∈ s ∨ (I.opcode = .alloca ∨ PassesOn I ∧ I.id ∈ s) ∧ (I.opcode = .alloca ∧ v = I.id ∨ v ∈ f.users I.id) := by
  unfold recordStackAddress PassesOn
  cases hop : I.opcode with
  | alloca =>
    simp only [List.mem_append, List.mem_cons, true_or, true_and]
    tauto
  | getElementPtr =>
    by_cases hs : I.id ∈ s <;> simp [hs, or_comm]
  | phi =>
    by_cases hs : I.id ∈ s <;> by_cases hp : (I.operands.head?.map Operand.isPointer).getD false = true <;>
      simp [hs, hp, or_comm]
  | _ => simp

/-- The list holds the allocas seen, and the users of every instruction that ends a chain. -/
theorem mem_foldl_recordStackAddress (hl : ∀ I ∈ l, I ∈ f.instructions) (v : ν) :
    v ∈ l.foldl f.recordStackAddress [] ↔ ∃ pre I post, l = pre ++ I :: post ∧ Forward pre I ∧
      (I.opcode = .alloca ∧ v = I.id ∨ v ∈ f.users I.id) := by
  induction l using List.reverseRecOn generalizing v with
  | nil => simp
  | append_singleton l I ih =>
    have hl' : ∀ J ∈ l, J ∈ f.instructions := fun J hJ => hl J (List.mem_append_left _ hJ)
    have hI : I ∈ f.instructions := hl I (by simp)
    have ih := fun v => ih hl' v
    -- at its turn the instruction passes the address on exactly when it ends a chain
    have hturn : (I.opcode = .alloca ∨ PassesOn I ∧ I.id ∈ l.foldl f.recordStackAddress []) ↔ Forward l I := by
      constructor
      · rintro (halloca | ⟨hpass, hmem⟩)
        · exact .alloca l halloca
        · obtain ⟨pre, J, post, rfl, hJ, ⟨halloca, hid⟩ | huse⟩ := (ih I.id).mp hmem
          · have heq := f.wellFormed.eq_of_id I hI J (hl' J (by simp)) hid
            rw [heq] at hpass
            rcases hpass with hpass | ⟨hpass, -⟩ <;> simp [halloca] at hpass
          · exact .passOn post hJ ((id_mem_users hI).mp huse) hpass
      · rintro (halloca | ⟨between, hJ, huse, hpass⟩)
        · exact .inl ‹_›
        · exact .inr ⟨hpass, (ih I.id).mpr ⟨_, _, between, rfl, hJ, .inr ((id_mem_users hI).mpr huse)⟩⟩
    rw [List.foldl_append, List.foldl_cons, List.foldl_nil, mem_recordStackAddress, hturn, ih]
    constructor
    · rintro (⟨pre, J, post, rfl, hJ, hv⟩ | ⟨hforward, hv⟩)
      · exact ⟨pre, J, post ++ [I], by simp, hJ, hv⟩
      · exact ⟨l, I, [], rfl, hforward, hv⟩
    · rintro ⟨pre, J, post, heq, hJ, hv⟩
      rcases List.eq_nil_or_concat post with rfl | ⟨post, K, rfl⟩
      · obtain ⟨rfl, hlast⟩ := List.append_inj' heq rfl
        obtain rfl : I = J := by simpa using hlast
        exact .inr ⟨hJ, hv⟩
      · have hsplit : l ++ [I] = (pre ++ J :: post) ++ [K] := by simpa using heq
        obtain ⟨rfl, -⟩ := List.append_inj' hsplit rfl
        exact .inl ⟨pre, J, post, rfl, hJ, hv⟩

/-- A load or store is in the list exactly when one of its operands ends a chain. -/
theorem mem_recordStackAddresses {I : Instruction ν} (hI : I ∈ f.orderedCFG.flatten)
    (hop : I.opcode = .load ∨ I.opcode = .store) :
    I.id ∈ f.recordStackAddresses ↔ UsesForward f.orderedCFG.flatten I := by
  rw [recordStackAddresses, mem_foldl_recordStackAddress f.mem_of_ordered]
  constructor
  · rintro ⟨pre, J, post, heq, hJ, ⟨halloca, hid⟩ | huse⟩
    · have hJI := f.wellFormed.eq_of_id I (f.mem_of_ordered I hI) J (f.mem_of_ordered J (by rw [heq]; simp)) hid
      rw [hJI, halloca] at hop
      simp at hop
    · exact ⟨pre, J, post, heq, hJ, (id_mem_users (f.mem_of_ordered I hI)).mp huse⟩
  · rintro ⟨pre, J, post, heq, hJ, huse⟩
    exact ⟨pre, J, post, heq, hJ, .inr ((id_mem_users (f.mem_of_ordered I hI)).mpr huse)⟩

end OrderedFunction

/-! ### Stack accesses -/

/-- The value is an `alloca`, or reached from one through `getelementptr`s, from their base pointers, and `phi`s. -/
inductive StackPointer (f : OrderedFunction ν) : ν → Prop where
  | alloca {I : Instruction ν} (hI : I ∈ f.instructions) (h : I.opcode = .alloca) : StackPointer f I.id
  | getElementPtr {I : Instruction ν} (hI : I ∈ f.instructions) (h : I.opcode = .getElementPtr) {v : ν}
      {isPointer : Bool} (hbase : I.operands.head? = some (.value v isPointer)) (hv : StackPointer f v) :
      StackPointer f I.id
  | phi {I : Instruction ν} (hI : I ∈ f.instructions) (h : I.opcode = .phi) {v : ν} (hincoming : Uses I v)
      (hv : StackPointer f v) : StackPointer f I.id

/-- `getPointerOperand` of a load or a store. -/
def pointerOperand (I : Instruction ν) : Option (Operand ν) :=
  match I.opcode with
  | .load => I.operands[0]?
  | .store => I.operands[1]?
  | _ => none

/-- A load or store whose pointer is a stack pointer. -/
def StackAccess (f : OrderedFunction ν) (I : Instruction ν) : Prop :=
  ∃ v isPointer, pointerOperand I = some (.value v isPointer) ∧ StackPointer f v

/-- `recordInst` records the load or store as a stack access. -/
def ChargedToStack (stackAddressList : List ν) (I : Instruction ν) : Prop :=
  (recordInst (fun v => decide (v ∈ stackAddressList)) I 1 {}).1.get
    (if I.opcode = .load then .stackReadCount else .stackWriteCount) = 1

/-- Each load and store of the blocks that has no global operand is recorded as a stack access exactly
when it is one. -/
def StackClassified (f : OrderedFunction ν) : Prop :=
  ∀ I ∈ f.orderedCFG.flatten, I.opcode = .load ∨ I.opcode = .store → getGlobalOpCount I.operands = 0 →
    (ChargedToStack f.recordStackAddresses I ↔ StackAccess f I)

theorem chargedToStack_iff {stackAddressList : List ν} {I : Instruction ν}
    (hop : I.opcode = .load ∨ I.opcode = .store) (hglobal : getGlobalOpCount I.operands = 0) :
      ChargedToStack stackAddressList I ↔ I.id ∈ stackAddressList := by
  have hget := (adds_recordInst (fun v => decide (v ∈ stackAddressList)) I).get_eq 1 {}
  unfold ChargedToStack
  rw [hget, ProfileData.get_default, UInt64.zero_add, UInt64.one_mul]
  have hnone : UInt64.ofInt 0 ≠ 1 := by decide
  rcases hop with hop | hop
  · by_cases hmem : I.id ∈ stackAddressList <;>
      simp [charge, accessCharge, bytesCharge, switchCharge, loadCharge, Opcode.switchCase, chargeOf, hop, hglobal,
        hmem, hnone]
  · by_cases hmem : I.id ∈ stackAddressList <;>
      simp [charge, accessCharge, bytesCharge, switchCharge, storeCharge, Opcode.switchCase, chargeOf, hop, hglobal,
        hmem, hnone]

namespace OrderedFunction

variable {f : OrderedFunction ν}

omit [DecidableEq ν] in
/-- The end of a chain is a stack pointer. -/
theorem stackPointer_of_forward {pre : List (Instruction ν)} {I : Instruction ν} (h : Forward pre I)
    (hpre : ∀ J ∈ pre, J ∈ f.instructions) (hI : I ∈ f.instructions) :
    StackPointer f I.id ∧ (I.opcode = .alloca ∨ PassesOn I) := by
  induction h with
  | alloca pre halloca => exact ⟨.alloca hI halloca, .inl halloca⟩
  | @passOn pre J between I hJ huse hpass ih =>
    obtain ⟨hpointer, haddress⟩ := ih (fun K hK => hpre K (List.mem_append_left _ hK)) (hpre J (by simp))
    refine ⟨?_, .inr hpass⟩
    rcases hpass with hgep | ⟨hphi, -⟩
    · obtain ⟨isPointer, hbase⟩ := f.wellFormed.base_of_address I hI hgep J (hpre J (by simp)) haddress huse
      exact .getElementPtr hI hgep hbase hpointer
    · exact .phi hI hphi huse hpointer

/-- The value that a store writes ends a chain. -/
def StoresForward (order : List (Instruction ν)) (I : Instruction ν) : Prop :=
  ∃ pre J post isPointer, order = pre ++ J :: post ∧ Forward pre J ∧ I.operands.head? = some (.value J.id isPointer)

omit [DecidableEq ν] in
/-- What takes the end of a chain as an operand accesses the stack, or stores the address. -/
theorem access_of_usesForward {I : Instruction ν} (hI : I ∈ f.orderedCFG.flatten)
    (hop : I.opcode = .load ∨ I.opcode = .store) (h : UsesForward f.orderedCFG.flatten I) :
    StackAccess f I ∨ I.opcode = .store ∧ StoresForward f.orderedCFG.flatten I := by
  obtain ⟨pre, J, post, heq, hJ, isPointer, hmem⟩ := h
  have hpointer : StackPointer f J.id := by
    refine (stackPointer_of_forward hJ (fun K hK => ?_) ?_).1
    · exact f.mem_of_ordered K (by rw [heq]; exact List.mem_append_left _ hK)
    · exact f.mem_of_ordered J (by rw [heq]; simp)
  rcases hop with hload | hstore
  · have hone := f.wellFormed.load_operands I (f.mem_of_ordered I hI) hload
    obtain ⟨p, hp⟩ := List.length_eq_one_iff.mp hone
    rw [hp, List.mem_singleton] at hmem
    exact .inl ⟨J.id, isPointer, by simp [pointerOperand, hload, hp, hmem], hpointer⟩
  · have htwo := f.wellFormed.store_operands I (f.mem_of_ordered I hI) hstore
    obtain ⟨stored, p, hp⟩ := List.length_eq_two.mp htwo
    rw [hp, List.mem_pair] at hmem
    rcases hmem with hstored | hp'
    · exact .inr ⟨hstore, pre, J, post, isPointer, heq, hJ, by simp [hp, hstored]⟩
    · exact .inl ⟨J.id, isPointer, by simp [pointerOperand, hstore, hp, hp'], hpointer⟩

end OrderedFunction

/-- The stack accesses are those that are recorded as such exactly when each is reached by a chain, and no store
outside the stack writes the end of one. -/
theorem stackClassified_iff (f : OrderedFunction ν) :
    StackClassified f ↔ ∀ I ∈ f.orderedCFG.flatten, I.opcode = .load ∨ I.opcode = .store →
      getGlobalOpCount I.operands = 0 →
        (StackAccess f I → UsesForward f.orderedCFG.flatten I) ∧
        (I.opcode = .store → OrderedFunction.StoresForward f.orderedCFG.flatten I → StackAccess f I) := by
  refine forall₄_congr fun I hI hop hglobal => ?_
  rw [chargedToStack_iff hop hglobal, OrderedFunction.mem_recordStackAddresses hI hop]
  constructor
  · intro h
    refine ⟨h.mpr, fun _ ⟨pre, J, post, isPointer, heq, hJ, hhead⟩ => h.mp ⟨pre, J, post, heq, hJ, isPointer, ?_⟩⟩
    exact List.mem_of_mem_head? (by rw [hhead]; rfl)
  · rintro ⟨hmissed, hstored⟩
    refine ⟨fun huse => ?_, hmissed⟩
    rcases OrderedFunction.access_of_usesForward hI hop huse with haccess | ⟨hstore, hforward⟩
    · exact haccess
    · exact hstored hstore hforward

/-! ### Two functions that are recorded wrongly -/

/-- The address of a local variable is stored through an argument. -/
def escapingBlock : List (Instruction ℕ) :=
  [{ id := 0, opcode := .alloca }, { id := 1, opcode := .store, operands := [.value 0 true, .value 9 true] }]

theorem escapingBlock_wellFormed : WellFormed escapingBlock :=
  ⟨by decide, by decide, by decide, by decide⟩

/-- The function of this block. -/
def escapingStore : OrderedFunction ℕ where
  instructions := escapingBlock
  orderedCFG := [escapingBlock]
  wellFormed := escapingBlock_wellFormed
  mem_of_ordered := fun _ hI => by simpa using hI

/-- A pointer that the loop sets to a local variable: it starts as an argument, and the `phi` gets the new one over
the back edge only. -/
def loopedBlocks : List (List (Instruction ℕ)) :=
  [[{ id := 0, opcode := .alloca }, { id := 10, opcode := .br }],
    [{ id := 1, opcode := .phi, operands := [.value 9 true, .value 2 true] },
      { id := 3, opcode := .load, operands := [.value 1 true] },
      { id := 2, opcode := .getElementPtr, operands := [.value 0 true] },
      { id := 11, opcode := .br }],
    [{ id := 12, opcode := .ret }]]

theorem loopedBlocks_wellFormed : WellFormed loopedBlocks.flatten :=
  ⟨by decide, by decide, by decide, by decide⟩

/-- The function of these blocks. -/
def loopedPointer : OrderedFunction ℕ where
  instructions := loopedBlocks.flatten
  orderedCFG := loopedBlocks
  wellFormed := loopedBlocks_wellFormed
  mem_of_ordered := fun _ hI => hI

/-- The store through the argument is recorded as a stack write, and the load in the loop is not recorded as a stack
read. -/
theorem stackAddresses_misclassified : ¬ StackClassified escapingStore ∧ ¬ StackClassified loopedPointer := by
  constructor
  · intro h
    have hstore := h { id := 1, opcode := .store, operands := [.value 0 true, .value 9 true] } (by decide) (by decide)
      (by decide)
    rw [chargedToStack_iff (by decide) (by decide)] at hstore
    obtain ⟨v, isPointer, hv, hpointer⟩ := hstore.mp (by decide)
    have hnine : v = 9 := by
      simp only [pointerOperand, List.getElem?_cons_succ, List.getElem?_cons_zero, Option.some.injEq,
        Operand.value.injEq] at hv
      exact hv.1.symm
    -- the argument is no instruction
    have hid : ∃ I ∈ escapingBlock, I.id = v := by
      cases hpointer with
      | alloca hI _ => exact ⟨_, hI, rfl⟩
      | getElementPtr hI _ _ _ => exact ⟨_, hI, rfl⟩
      | phi hI _ _ _ => exact ⟨_, hI, rfl⟩
    rw [hnine] at hid
    revert hid
    decide
  · intro h
    have hload := h { id := 3, opcode := .load, operands := [.value 1 true] } (by decide) (by decide) (by decide)
    rw [chargedToStack_iff (by decide) (by decide)] at hload
    have halloca : StackPointer loopedPointer 0 :=
      .alloca (f := loopedPointer) (I := { id := 0, opcode := .alloca }) (by decide) rfl
    have hgep : StackPointer loopedPointer 2 :=
      .getElementPtr (f := loopedPointer) (I := { id := 2, opcode := .getElementPtr, operands := [.value 0 true] })
        (by decide) rfl rfl halloca
    have hphi : StackPointer loopedPointer 1 :=
      .phi (f := loopedPointer) (I := { id := 1, opcode := .phi, operands := [.value 9 true, .value 2 true] })
        (by decide) rfl ⟨true, by decide⟩ hgep
    exact absurd (hload.mpr ⟨1, true, rfl, hphi⟩) (by decide)

end ZRay.Pass
