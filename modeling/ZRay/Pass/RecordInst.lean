import Mathlib
import ZRay.Log.ReadPdSets
import ZRay.Pass.LargeConstants
import ZRay.Substring

/-!
# Recording an instruction

`recordInst` adds an instruction to a profile, scaled.  What it adds is read off the instruction alone (`charge`), and
each field takes the scale factor times its charge (`adds_recordInst`).
-/

namespace ZRay.Pass

/-- The instructions of LLVM, in the order of the cases of `recordInst`. -/
inductive Opcode where
  | ret | br | switch | indirectBr | invoke | resume | unreachable | cleanupRet | catchRet | catchSwitch | callBr
  | fNeg
  | add | sub | mul | uDiv | sDiv | uRem | sRem
  | fAdd | fSub | fMul | fDiv | fRem
  | shl | lShr | aShr | and | or | xor
  | load | store
  | alloca | getElementPtr | fence | atomicCmpXchg | atomicRMW
  | trunc | zExt | sExt | fpToUI | fpToSI | uiToFP | siToFP | fpTrunc | fpExt | ptrToInt | intToPtr | bitCast
  | addrSpaceCast
  | iCmp | fCmp
  | call
  | phi | select | userOp1 | userOp2 | vaArg | shuffleVector
  | extractElement | extractValue | insertValue | insertElement
  | landingPad | cleanupPad | catchPad | freeze
  deriving DecidableEq, Repr

/-- The cases of the `switch`; those with the same body are one. -/
inductive SwitchCase where
  | terminator | unary | intBinary | fpBinary | load | store | memory | cast | iCmp | fCmp | call | aggregate | other
  deriving DecidableEq, Repr

/-- The labels of the `switch`. -/
def Opcode.switchCase : Opcode → SwitchCase
  | .ret | .br | .switch | .indirectBr | .invoke | .resume | .unreachable | .cleanupRet | .catchRet | .catchSwitch
  | .callBr => .terminator
  | .fNeg => .unary
  | .add | .sub | .mul | .uDiv | .sDiv | .uRem | .sRem => .intBinary
  | .fAdd | .fSub | .fMul | .fDiv | .fRem => .fpBinary
  | .shl | .lShr | .aShr | .and | .or | .xor => .intBinary
  | .load => .load
  | .store => .store
  | .alloca | .getElementPtr | .fence | .atomicCmpXchg | .atomicRMW => .memory
  | .trunc | .zExt | .sExt | .fpToUI | .fpToSI | .uiToFP | .siToFP | .fpTrunc | .fpExt | .ptrToInt | .intToPtr
  | .bitCast | .addrSpaceCast => .cast
  | .iCmp => .iCmp
  | .fCmp => .fCmp
  | .call => .call
  | .phi | .select | .userOp1 | .userOp2 | .vaArg | .shuffleVector => .other
  | .extractElement | .extractValue | .insertValue | .insertElement => .aggregate
  | .landingPad | .cleanupPad | .catchPad | .freeze => .other

/-- The memory intrinsics that `recordInst` models. -/
inductive MemIntrinsic where
  | memset
  | memcpy
  | memmove
  deriving DecidableEq, Repr

/-- An instruction, as far as `recordInst` looks at it.  `accessSize` is the store size of the type that a
load, a store or an atomic operation accesses; `memIntrinsic` is the intrinsic that a call calls, with its
size if that is constant. -/
structure Instruction (ν : Type*) where
  id : ν
  opcode : Opcode
  operands : List (Operand ν) := []
  printed : List Char := []
  isUnordered : Bool := true
  onlyReadsMemory : Bool := false
  onlyWritesMemory : Bool := false
  accessSize : UInt64 := 0
  memIntrinsic : Option (MemIntrinsic × Option UInt64) := none
  deriving DecidableEq

variable {ν : Type*}

def Operand.isPointer : Operand ν → Bool
  | .constantFP _ => false
  | .constantDataVector _ => false
  | .constant _ _ isPointer _ => isPointer
  | .value _ isPointer => isPointer

def Operand.isGlobal : Operand ν → Bool
  | .constant _ _ _ isGlobal => isGlobal
  | _ => false

/-- `getPointerOpCount`. -/
def getPointerOpCount (operands : List (Operand ν)) : Nat := operands.countP Operand.isPointer

/-- `getGlobalOpCount`. -/
def getGlobalOpCount (operands : List (Operand ν)) : Nat := operands.countP Operand.isGlobal

namespace Instruction

variable (I : Instruction ν)

/-- `mayReadFromMemory` of LLVM. -/
def mayReadFromMemory : Bool :=
  match I.opcode with
  | .vaArg | .load | .fence | .atomicCmpXchg | .atomicRMW | .catchPad | .catchRet => true
  | .call | .invoke | .callBr => !I.onlyWritesMemory
  | .store => !I.isUnordered
  | _ => false

/-- `mayWriteToMemory` of LLVM. -/
def mayWriteToMemory : Bool :=
  match I.opcode with
  | .fence | .store | .vaArg | .atomicCmpXchg | .atomicRMW | .catchPad | .catchRet => true
  | .call | .invoke | .callBr => !I.onlyReadsMemory
  | .load => !I.isUnordered
  | _ => false

/-- The printed text names a call of the tool. -/
def isToolCall : Bool :=
  (findFrom "TimingEvent".toList I.printed).isSome || (findFrom "ZRAY_ROI".toList I.printed).isSome ||
    (findFrom "incrementCounterArray".toList I.printed).isSome ||
    (findFrom "incrementLoad".toList I.printed).isSome || (findFrom "incrementStore".toList I.printed).isSome

end Instruction

end ZRay.Pass

namespace ZRay.ProfileData

/-- `profile.f += n`. -/
def plus (p : ProfileData) (f : SummedField) (n : UInt64) : ProfileData :=
  match f with
  | .loadCount => { p with loadCount := p.loadCount + n }
  | .floatLoadCount => { p with floatLoadCount := p.floatLoadCount + n }
  | .storeCount => { p with storeCount := p.storeCount + n }
  | .floatStoreCount => { p with floatStoreCount := p.floatStoreCount + n }
  | .bytesRead => { p with bytesRead := p.bytesRead + n }
  | .bytesWritten => { p with bytesWritten := p.bytesWritten + n }
  | .intInstructionCount => { p with intInstructionCount := p.intInstructionCount + n }
  | .fpInstructionCount => { p with fpInstructionCount := p.fpInstructionCount + n }
  | .termInstructionCount => { p with termInstructionCount := p.termInstructionCount + n }
  | .memInstructionCount => { p with memInstructionCount := p.memInstructionCount + n }
  | .castInstructionCount => { p with castInstructionCount := p.castInstructionCount + n }
  | .globalOpReadCount => { p with globalOpReadCount := p.globalOpReadCount + n }
  | .globalOpWriteCount => { p with globalOpWriteCount := p.globalOpWriteCount + n }
  | .stackReadCount => { p with stackReadCount := p.stackReadCount + n }
  | .stackWriteCount => { p with stackWriteCount := p.stackWriteCount + n }
  | .heapReadCount => { p with heapReadCount := p.heapReadCount + n }
  | .heapWriteCount => { p with heapWriteCount := p.heapWriteCount + n }
  | .otherInstCount => { p with otherInstCount := p.otherInstCount + n }
  | .intrinsicLoad => { p with intrinsicLoad := p.intrinsicLoad + n }
  | .intrinsicStore => { p with intrinsicStore := p.intrinsicStore + n }
  | .totalInstCount => { p with totalInstCount := p.totalInstCount + n }
  | .splitCounters => { p with splitCounters := p.splitCounters + n }
  | .counterInstCount => { p with counterInstCount := p.counterInstCount + n }

/-- `profile.f -= n`. -/
def minus (p : ProfileData) (f : SummedField) (n : UInt64) : ProfileData := p.plus f (0 - n)

theorem get_plus (p : ProfileData) (f g : SummedField) (n : UInt64) :
    (p.plus f n).get g = p.get g + if g = f then n else 0 := by
  by_cases h : g = f
  · subst h
    rw [if_pos rfl]
    cases g <;> rfl
  · rw [if_neg h, UInt64.add_zero]
    cases f <;> cases g <;> first | rfl | exact absurd rfl h

/-- What is not summed: the ids and the flags. -/
def ids (p : ProfileData) : UInt64 × UInt64 × UInt64 × Bool × Bool :=
  (p.postDomSetID, p.pragmaRegionID, p.groupNumber, p.isIndirect, p.enableMIRPass)

@[simp] theorem ids_plus (p : ProfileData) (f : SummedField) (n : UInt64) : (p.plus f n).ids = p.ids := by
  cases f <;> rfl

theorem ext_get {p q : ProfileData} (hids : p.ids = q.ids) (h : ∀ f, p.get f = q.get f) : p = q := by
  cases p
  cases q
  simp only [ids, Prod.mk.injEq] at hids
  obtain ⟨rfl, rfl, rfl, rfl, rfl⟩ := hids
  congr 1
  exacts [h .storeCount, h .floatStoreCount, h .loadCount, h .floatLoadCount, h .bytesRead, h .bytesWritten,
    h .intInstructionCount, h .fpInstructionCount, h .termInstructionCount, h .memInstructionCount,
    h .castInstructionCount, h .globalOpReadCount, h .globalOpWriteCount, h .stackReadCount, h .stackWriteCount,
    h .heapReadCount, h .heapWriteCount, h .otherInstCount, h .intrinsicLoad, h .intrinsicStore, h .totalInstCount,
    h .counterInstCount, h .splitCounters]

end ZRay.ProfileData
namespace ZRay.Pass

variable {ν : Type*}

/-! ### `recordInst` -/

/-- What is recorded of every instruction: the instruction, and what it may do to memory. -/
def recordAccess (I : Instruction ν) (scaleFactor : UInt64) (profile : ProfileData) : ProfileData :=
  let profile := profile.plus .totalInstCount scaleFactor
  let profile := if I.mayReadFromMemory then profile.plus .loadCount scaleFactor else profile
  if I.mayWriteToMemory then profile.plus .storeCount scaleFactor else profile

/-- The number of bytes read and written. -/
def recordBytes (I : Instruction ν) (scaleFactor : UInt64) (profile : ProfileData) : ProfileData :=
  match I.opcode with
  | .load => profile.plus .bytesRead (I.accessSize * scaleFactor)
  | .store => profile.plus .bytesWritten (I.accessSize * scaleFactor)
  | .atomicCmpXchg | .atomicRMW =>
    (profile.plus .bytesRead (I.accessSize * scaleFactor)).plus .bytesWritten (I.accessSize * scaleFactor)
  | _ => profile

/-- The pointer operands, as many of the cases count them.  There are few enough for an `int`. -/
def recordPointerOps (count : Nat) (scaleFactor : UInt64) (profile : ProfileData) : ProfileData :=
  if count ≠ 0 then profile.plus .memInstructionCount (scaleFactor * UInt64.ofNat count) else profile

/-- The large constants of a binary operator; the `int`s are widened with their sign. -/
def recordLargeConstants (large_const_info : Int32 × Int32) (scaleFactor : UInt64) (profile : ProfileData) :
    ProfileData :=
  if large_const_info.1 ≠ 0 then
    let accesses := UInt64.ofInt large_const_info.1.toInt
    let bytes := UInt64.ofInt large_const_info.2.toInt
    (((profile.plus .memInstructionCount (scaleFactor * accesses)).plus .globalOpReadCount
      (scaleFactor * accesses)).plus .loadCount (scaleFactor * accesses)).plus .bytesRead (scaleFactor * bytes)
  else profile

/-- The case of `PHI` and its like, into which the one of calls falls through. -/
def recordOther (count : Nat) (scaleFactor : UInt64) (profile : ProfileData) : ProfileData :=
  (recordPointerOps count scaleFactor profile).plus .otherInstCount scaleFactor

/-- The call that `recordInst` puts behind a memory intrinsic whose size is known at run time only. -/
inductive RuntimeInc where
  | incrementStoreArray
  | incrementLoadStoreArray
  deriving DecidableEq, Repr

/-- The intrinsics that are modelled.  A constant size leaves at once, all else falls through. -/
def recordMemIntrinsic (I : Instruction ν) (count : Nat) (scaleFactor : UInt64) (profile : ProfileData) :
    ProfileData × Option RuntimeInc :=
  match I.memIntrinsic with
  | some (.memset, some sizeValue) => (profile.plus .intrinsicStore (scaleFactor * sizeValue), none)
  | some (.memset, none) => (recordOther count scaleFactor profile, some .incrementStoreArray)
  | some (.memcpy, some sizeValue) | some (.memmove, some sizeValue) =>
    ((profile.plus .intrinsicLoad (scaleFactor * sizeValue)).plus .intrinsicStore (scaleFactor * sizeValue), none)
  | some (.memcpy, none) | some (.memmove, none) =>
    (recordOther count scaleFactor profile, some .incrementLoadStoreArray)
  | none => (recordOther count scaleFactor profile, none)

/-- The case of `Call`. -/
def recordCall (I : Instruction ν) (count : Nat) (scaleFactor : UInt64) (profile : ProfileData) :
    ProfileData × Option RuntimeInc :=
  if I.isToolCall then
    (((profile.minus .loadCount scaleFactor).minus .storeCount scaleFactor).minus .totalInstCount scaleFactor, none)
  else
    let callNotDetected := !I.mayReadFromMemory && !I.mayWriteToMemory
    let profile :=
      if callNotDetected then (profile.plus .loadCount scaleFactor).plus .storeCount scaleFactor else profile
    let profile := (profile.plus .stackReadCount scaleFactor).plus .stackWriteCount scaleFactor
    recordMemIntrinsic I count scaleFactor profile

/-- The case of `Load`; the bytes of a stack access are taken back. -/
def recordLoad (stackAddressList : ν → Bool) (I : Instruction ν) (scaleFactor : UInt64) (profile : ProfileData) :
    ProfileData :=
  let profile := profile.plus .memInstructionCount scaleFactor
  if getGlobalOpCount I.operands ≠ 0 then profile.plus .globalOpReadCount scaleFactor
  else if stackAddressList I.id then
    (profile.plus .stackReadCount scaleFactor).minus .bytesRead (I.accessSize * scaleFactor)
  else profile.plus .heapReadCount scaleFactor

/-- The case of `Store`. -/
def recordStore (stackAddressList : ν → Bool) (I : Instruction ν) (scaleFactor : UInt64) (profile : ProfileData) :
    ProfileData :=
  let profile := profile.plus .memInstructionCount scaleFactor
  if getGlobalOpCount I.operands ≠ 0 then profile.plus .globalOpWriteCount scaleFactor
  else if stackAddressList I.id then
    (profile.plus .stackWriteCount scaleFactor).minus .bytesWritten (I.accessSize * scaleFactor)
  else profile.plus .heapWriteCount scaleFactor

/-- `recordInst`, for the addresses of `StackAddressList`: the profile, and the call put behind the instruction. -/
def recordInst (stackAddressList : ν → Bool) (I : Instruction ν) (scaleFactor : UInt64) (profile : ProfileData) :
    ProfileData × Option RuntimeInc :=
  let count := getPointerOpCount I.operands
  let large_const_info := getLargeConstantOpCount I.operands
  let profile := recordBytes I scaleFactor (recordAccess I scaleFactor profile)
  match I.opcode.switchCase with
  | .terminator => ((recordPointerOps count scaleFactor profile).plus .termInstructionCount scaleFactor, none)
  | .unary => (recordPointerOps count scaleFactor profile, none)
  | .intBinary =>
    ((recordLargeConstants large_const_info scaleFactor (recordPointerOps count scaleFactor profile)).plus
      .intInstructionCount scaleFactor, none)
  | .fpBinary =>
    ((recordLargeConstants large_const_info scaleFactor (recordPointerOps count scaleFactor profile)).plus
      .fpInstructionCount scaleFactor, none)
  | .load => (recordLoad stackAddressList I scaleFactor profile, none)
  | .store => (recordStore stackAddressList I scaleFactor profile, none)
  | .memory => (profile.plus .memInstructionCount scaleFactor, none)
  | .cast => ((recordPointerOps count scaleFactor profile).plus .castInstructionCount scaleFactor, none)
  | .iCmp => ((recordPointerOps count scaleFactor profile).plus .intInstructionCount scaleFactor, none)
  | .fCmp => ((recordPointerOps count scaleFactor profile).plus .fpInstructionCount scaleFactor, none)
  | .call => recordCall I count scaleFactor profile
  | .aggregate => (profile.plus .memInstructionCount scaleFactor, none)
  | .other => (recordOther count scaleFactor profile, none)

/-! ### The charge of an instruction -/

/-- A charge of one field. -/
def chargeOf (f : SummedField) (n : ℤ) (g : SummedField) : ℤ := if g = f then n else 0

def accessCharge (I : Instruction ν) (g : SummedField) : ℤ :=
  chargeOf .totalInstCount 1 g + (if I.mayReadFromMemory then chargeOf .loadCount 1 g else 0) +
    (if I.mayWriteToMemory then chargeOf .storeCount 1 g else 0)

def bytesCharge (I : Instruction ν) (g : SummedField) : ℤ :=
  match I.opcode with
  | .load => chargeOf .bytesRead I.accessSize.toNat g
  | .store => chargeOf .bytesWritten I.accessSize.toNat g
  | .atomicCmpXchg | .atomicRMW =>
    chargeOf .bytesRead I.accessSize.toNat g + chargeOf .bytesWritten I.accessSize.toNat g
  | _ => 0

def pointerCharge (I : Instruction ν) (g : SummedField) : ℤ :=
  chargeOf .memInstructionCount (getPointerOpCount I.operands) g

def constantsCharge (I : Instruction ν) (g : SummedField) : ℤ :=
  let large_const_info := getLargeConstantOpCount I.operands
  if large_const_info.1 ≠ 0 then
    chargeOf .memInstructionCount large_const_info.1.toInt g +
      chargeOf .globalOpReadCount large_const_info.1.toInt g +
      chargeOf .loadCount large_const_info.1.toInt g + chargeOf .bytesRead large_const_info.2.toInt g
  else 0

def otherCharge (I : Instruction ν) (g : SummedField) : ℤ := pointerCharge I g + chargeOf .otherInstCount 1 g

def memIntrinsicCharge (I : Instruction ν) (g : SummedField) : ℤ :=
  match I.memIntrinsic with
  | some (.memset, some sizeValue) => chargeOf .intrinsicStore sizeValue.toNat g
  | some (.memcpy, some sizeValue) | some (.memmove, some sizeValue) =>
    chargeOf .intrinsicLoad sizeValue.toNat g + chargeOf .intrinsicStore sizeValue.toNat g
  | some (_, none) | none => otherCharge I g

def callCharge (I : Instruction ν) (g : SummedField) : ℤ :=
  if I.isToolCall then chargeOf .loadCount (-1) g + chargeOf .storeCount (-1) g + chargeOf .totalInstCount (-1) g
  else
    (if !I.mayReadFromMemory && !I.mayWriteToMemory then chargeOf .loadCount 1 g + chargeOf .storeCount 1 g else 0) +
      chargeOf .stackReadCount 1 g + chargeOf .stackWriteCount 1 g + memIntrinsicCharge I g

def loadCharge (stackAddressList : ν → Bool) (I : Instruction ν) (g : SummedField) : ℤ :=
  chargeOf .memInstructionCount 1 g +
    if getGlobalOpCount I.operands ≠ 0 then chargeOf .globalOpReadCount 1 g
    else if stackAddressList I.id then chargeOf .stackReadCount 1 g + chargeOf .bytesRead (-I.accessSize.toNat) g
    else chargeOf .heapReadCount 1 g

def storeCharge (stackAddressList : ν → Bool) (I : Instruction ν) (g : SummedField) : ℤ :=
  chargeOf .memInstructionCount 1 g +
    if getGlobalOpCount I.operands ≠ 0 then chargeOf .globalOpWriteCount 1 g
    else if stackAddressList I.id then chargeOf .stackWriteCount 1 g + chargeOf .bytesWritten (-I.accessSize.toNat) g
    else chargeOf .heapWriteCount 1 g

def switchCharge (stackAddressList : ν → Bool) (I : Instruction ν) (g : SummedField) : ℤ :=
  match I.opcode.switchCase with
  | .terminator => pointerCharge I g + chargeOf .termInstructionCount 1 g
  | .unary => pointerCharge I g
  | .intBinary => pointerCharge I g + constantsCharge I g + chargeOf .intInstructionCount 1 g
  | .fpBinary => pointerCharge I g + constantsCharge I g + chargeOf .fpInstructionCount 1 g
  | .load => loadCharge stackAddressList I g
  | .store => storeCharge stackAddressList I g
  | .memory => chargeOf .memInstructionCount 1 g
  | .cast => pointerCharge I g + chargeOf .castInstructionCount 1 g
  | .iCmp => pointerCharge I g + chargeOf .intInstructionCount 1 g
  | .fCmp => pointerCharge I g + chargeOf .fpInstructionCount 1 g
  | .call => callCharge I g
  | .aggregate => chargeOf .memInstructionCount 1 g
  | .other => otherCharge I g

/-- What one instruction with scale factor 1 adds to a field. -/
def charge (stackAddressList : ν → Bool) (I : Instruction ν) (g : SummedField) : ℤ :=
  accessCharge I g + bytesCharge I g + switchCharge stackAddressList I g

/-- The step adds the charge, scaled, to each field, and leaves the ids and the flags. -/
structure Adds (step : UInt64 → ProfileData → ProfileData) (c : SummedField → ℤ) : Prop where
  get_eq : ∀ sf p g, (step sf p).get g = p.get g + sf * UInt64.ofInt (c g)
  ids_eq : ∀ sf p, (step sf p).ids = p.ids

theorem ofInt_chargeOf (f g : SummedField) (n : ℤ) :
    UInt64.ofInt (chargeOf f n g) = if g = f then UInt64.ofInt n else 0 := by
  unfold chargeOf
  split <;> rfl

theorem ofInt_natCast (n : Nat) : UInt64.ofInt n = UInt64.ofNat n := by
  rw [← UInt64.toNat_inj, UInt64.toNat_ofNat', UInt64.ofInt, UInt64.toNat_ofNat']
  omega

theorem ofInt_toNat (n : UInt64) : UInt64.ofInt n.toNat = n := by
  rw [ofInt_natCast, UInt64.ofNat_toNat]

namespace Adds

variable {step step' : UInt64 → ProfileData → ProfileData} {c c' : SummedField → ℤ}

theorem none : Adds (fun _ p => p) fun _ => 0 := by
  refine ⟨fun sf p g => ?_, fun _ _ => rfl⟩
  show p.get g = p.get g + sf * 0
  rw [UInt64.mul_zero, UInt64.add_zero]

theorem comp (h : Adds step c) (h' : Adds step' c') :
    Adds (fun sf p => step' sf (step sf p)) fun g => c g + c' g := by
  refine ⟨fun sf p g => ?_, fun sf p => (h'.ids_eq sf _).trans (h.ids_eq sf p)⟩
  rw [h'.get_eq, h.get_eq, UInt64.ofInt_add, UInt64.mul_add, UInt64.add_assoc]

theorem ite (b : Prop) [Decidable b] (h : Adds step c) (h' : Adds step' c') :
    Adds (fun sf p => if b then step sf p else step' sf p) fun g => if b then c g else c' g := by
  split
  · exact h
  · exact h'

theorem plus (f : SummedField) (n : ℤ) : Adds (fun sf p => p.plus f (sf * UInt64.ofInt n)) (chargeOf f n) := by
  refine ⟨fun sf p g => ?_, fun sf p => p.ids_plus f _⟩
  rw [ProfileData.get_plus, ofInt_chargeOf]
  split
  · rfl
  · rw [UInt64.mul_zero]

theorem plus_one (f : SummedField) : Adds (fun sf p => p.plus f sf) (chargeOf f 1) := by
  have h := plus f 1
  simpa only [UInt64.ofInt_one, UInt64.mul_one] using h

theorem minus_one (f : SummedField) : Adds (fun sf p => p.minus f sf) (chargeOf f (-1)) := by
  have h := plus f (-1)
  simpa only [UInt64.ofInt_neg_one, UInt64.mul_neg, UInt64.mul_one, ProfileData.minus, UInt64.zero_sub] using h

/-- A size that is scaled from the left. -/
theorem plus_size (f : SummedField) (size : UInt64) :
    Adds (fun sf p => p.plus f (size * sf)) (chargeOf f size.toNat) := by
  have h := plus f size.toNat
  simpa only [ofInt_toNat, UInt64.mul_comm] using h

theorem minus_size (f : SummedField) (size : UInt64) :
    Adds (fun sf p => p.minus f (size * sf)) (chargeOf f (-size.toNat)) := by
  have h := plus f (-size.toNat)
  simpa only [UInt64.ofInt_neg, ofInt_toNat, UInt64.mul_neg, ProfileData.minus, UInt64.zero_sub, UInt64.mul_comm]
    using h

end Adds

section

variable (I : Instruction ν)

theorem adds_recordAccess : Adds (recordAccess I) (accessCharge I) :=
  ((Adds.plus_one _).comp (.ite _ (.plus_one _) .none)).comp (.ite _ (.plus_one _) .none)

theorem adds_recordBytes : Adds (recordBytes I) (bytesCharge I) := by
  unfold recordBytes bytesCharge
  split
  · exact .plus_size _ _
  · exact .plus_size _ _
  · exact (Adds.plus_size _ _).comp (.plus_size _ _)
  · exact (Adds.plus_size _ _).comp (.plus_size _ _)
  · exact .none

theorem adds_recordPointerOps : Adds (recordPointerOps (getPointerOpCount I.operands)) (pointerCharge I) := by
  have hplus := Adds.plus .memInstructionCount (getPointerOpCount I.operands)
  rw [ofInt_natCast] at hplus
  by_cases h : getPointerOpCount I.operands = 0
  · have hzero : pointerCharge I = fun _ => 0 := by
      funext g
      rw [pointerCharge, h, chargeOf, Int.natCast_zero, ite_self]
    rw [hzero, h]
    exact Adds.none
  · have hstep : recordPointerOps (getPointerOpCount I.operands) = fun sf p =>
        p.plus .memInstructionCount (sf * UInt64.ofNat (getPointerOpCount I.operands)) := by
      funext sf p
      exact if_pos h
    rw [hstep]
    exact hplus

theorem adds_recordLargeConstants :
    Adds (recordLargeConstants (getLargeConstantOpCount I.operands)) (constantsCharge I) :=
  .ite _ (((Adds.plus _ _).comp (.plus _ _)).comp (.plus _ _) |>.comp (.plus _ _)) .none

theorem adds_recordOther : Adds (recordOther (getPointerOpCount I.operands)) (otherCharge I) :=
  (adds_recordPointerOps I).comp (.plus_one _)

theorem adds_recordMemIntrinsic :
    Adds (fun sf p => (recordMemIntrinsic I (getPointerOpCount I.operands) sf p).1) (memIntrinsicCharge I) := by
  have hsize :
    ∀ (f : SummedField) (size : UInt64), Adds (fun sf p => p.plus f (sf * size)) (chargeOf f size.toNat) := by
    intro f size
    have h := Adds.plus f size.toNat
    rwa [ofInt_toNat] at h
  have hother := adds_recordOther I
  unfold recordMemIntrinsic memIntrinsicCharge
  rcases I.memIntrinsic with _ | ⟨_ | _ | _, _ | size⟩
  · exact hother
  · exact hother
  · exact hsize .intrinsicStore size
  · exact hother
  · exact (hsize .intrinsicLoad size).comp (hsize .intrinsicStore size)
  · exact hother
  · exact (hsize .intrinsicLoad size).comp (hsize .intrinsicStore size)

theorem adds_recordCall :
    Adds (fun sf p => (recordCall I (getPointerOpCount I.operands) sf p).1) (callCharge I) := by
  unfold recordCall callCharge
  split
  · exact ((Adds.minus_one .loadCount).comp (.minus_one .storeCount)).comp (.minus_one .totalInstCount)
  · exact (((Adds.ite _ ((Adds.plus_one _).comp (.plus_one _)) .none).comp (.plus_one _)).comp (.plus_one _)).comp
      (adds_recordMemIntrinsic I)

theorem adds_recordLoad (stackAddressList : ν → Bool) :
    Adds (recordLoad stackAddressList I) (loadCharge stackAddressList I) :=
  (Adds.plus_one _).comp (.ite _ (.plus_one _) (.ite _ ((Adds.plus_one _).comp (.minus_size _ _)) (.plus_one _)))

theorem adds_recordStore (stackAddressList : ν → Bool) :
    Adds (recordStore stackAddressList I) (storeCharge stackAddressList I) :=
  (Adds.plus_one _).comp (.ite _ (.plus_one _) (.ite _ ((Adds.plus_one _).comp (.minus_size _ _)) (.plus_one _)))

end

/-- `recordInst` adds the charge of the instruction, scaled, to each field. -/
theorem adds_recordInst (stackAddressList : ν → Bool) (I : Instruction ν) :
    Adds (fun sf p => (recordInst stackAddressList I sf p).1) (charge stackAddressList I) := by
  have hfront := (adds_recordAccess I).comp (adds_recordBytes I)
  have hpointer := adds_recordPointerOps I
  unfold recordInst charge switchCharge
  cases I.opcode.switchCase with
  | terminator => exact hfront.comp (hpointer.comp (.plus_one .termInstructionCount))
  | unary => exact hfront.comp hpointer
  | intBinary =>
    exact hfront.comp ((hpointer.comp (adds_recordLargeConstants I)).comp (.plus_one .intInstructionCount))
  | fpBinary =>
    exact hfront.comp ((hpointer.comp (adds_recordLargeConstants I)).comp (.plus_one .fpInstructionCount))
  | load => exact hfront.comp (adds_recordLoad I stackAddressList)
  | store => exact hfront.comp (adds_recordStore I stackAddressList)
  | memory => exact hfront.comp (.plus_one .memInstructionCount)
  | cast => exact hfront.comp (hpointer.comp (.plus_one .castInstructionCount))
  | iCmp => exact hfront.comp (hpointer.comp (.plus_one .intInstructionCount))
  | fCmp => exact hfront.comp (hpointer.comp (.plus_one .fpInstructionCount))
  | call => exact hfront.comp (adds_recordCall I)
  | aggregate => exact hfront.comp (.plus_one .memInstructionCount)
  | other => exact hfront.comp (adds_recordOther I)

end ZRay.Pass
