import ZRay.Log.RegionTotals
import ZRay.Pass.EmittedCalls

/-!
# Recording blocks

`recordTagBlocks` records the instructions of each block and tags the block.  An increment that `recordInst`
puts behind an instruction is recorded next, and its charge is 0, so a block adds the charges of its
instructions, scaled (`adds_recordInsts`).  Whatever the pass inserted before shows exactly by the calls
that are no events (`recordInsts_inserted_iff`).
-/

namespace ZRay.Pass

open EmittedCall

variable {ν : Type*}

/-! ### The charge of an emitted call -/

/-- What a call of the pass is charged that the filter does not know. -/
def tagCharge (g : SummedField) : ℤ :=
  if g ∈ [SummedField.totalInstCount, .loadCount, .storeCount, .stackReadCount, .stackWriteCount,
    .memInstructionCount, .otherInstCount] then 1 else 0

theorem charge_event (stackAddressList : ν → Bool) {e : EmittedCall ν} (h : e.isEvent = true) (id : ν)
    (dbg : Option Nat) (g : SummedField) : charge stackAddressList (e.toInstruction id dbg) g = 0 := by
  have htool := isToolCall_toInstruction e id dbg
  rw [h] at htool
  have hread : (e.toInstruction id dbg).mayReadFromMemory = true := rfl
  have hwrite : (e.toInstruction id dbg).mayWriteToMemory = true := rfl
  have hcall : switchCharge stackAddressList (e.toInstruction id dbg) g = callCharge (e.toInstruction id dbg) g := rfl
  have hbytes : bytesCharge (e.toInstruction id dbg) g = 0 := rfl
  rw [charge, accessCharge, hread, hwrite, hbytes, hcall, callCharge, htool]
  cases g <;> rfl

theorem pointerOps_tag {e : EmittedCall ν} (h : e.isEvent = false) : getPointerOpCount e.operands = 1 := by
  cases e with
  | startTimingEvent _ => simp [isEvent] at h
  | endTimingEvent _ => simp [isEvent] at h
  | incrementCounterArray _ _ => simp [isEvent] at h
  | incrementCounterArraySF _ _ _ _ => simp [isEvent] at h
  | incrementLoadArray _ _ _ _ => simp [isEvent] at h
  | incrementStoreArray _ _ _ _ => simp [isEvent] at h
  | incrementLoadStoreArray _ _ _ _ => simp [isEvent] at h
  | bbTag _ _ => rfl
  | on_thread_exit => rfl
  | on_thread_exit_monitor => rfl
  | register_thread => rfl
  | unregister_thread => rfl
  | zray_runtime_init _ _ => rfl
  | start_host_proc => rfl

theorem charge_tag (stackAddressList : ν → Bool) {e : EmittedCall ν} (h : e.isEvent = false) (id : ν)
    (dbg : Option Nat) (g : SummedField) : charge stackAddressList (e.toInstruction id dbg) g = tagCharge g := by
  have htool := isToolCall_toInstruction e id dbg
  rw [h] at htool
  have hread : (e.toInstruction id dbg).mayReadFromMemory = true := rfl
  have hwrite : (e.toInstruction id dbg).mayWriteToMemory = true := rfl
  have hcall : switchCharge stackAddressList (e.toInstruction id dbg) g = callCharge (e.toInstruction id dbg) g := rfl
  have hbytes : bytesCharge (e.toInstruction id dbg) g = 0 := rfl
  have hmem : memIntrinsicCharge (e.toInstruction id dbg) g =
      chargeOf .memInstructionCount (getPointerOpCount e.operands) g + chargeOf .otherInstCount 1 g := rfl
  rw [charge, accessCharge, hread, hwrite, hbytes, hcall, callCharge, htool, hmem, pointerOps_tag h]
  cases g <;> rfl

/-! ### A block -/

section

variable (nameOf : Operand ν → List Char) (stackAddressList : ν → Bool)

/-- The increment that `recordInst` puts behind an instruction.  It passes the ids of the profile, and the size that
is the third operand of the intrinsic. -/
def RuntimeInc.emitted (inc : RuntimeInc) (profile : ProfileData) (I : Instruction ν) : EmittedCall ν :=
  let size := I.operands.getD 2 word
  match inc with
  | .incrementStoreArray =>
    .incrementStoreArray profile.pragmaRegionID.toNat profile.postDomSetID.toNat size (nameOf size)
  | .incrementLoadStoreArray =>
    .incrementLoadStoreArray profile.pragmaRegionID.toNat profile.postDomSetID.toNat size (nameOf size)

theorem isEvent_emitted (inc : RuntimeInc) (profile : ProfileData) (I : Instruction ν) :
    (inc.emitted nameOf profile I).isEvent = true := by
  cases inc <;> rfl

/-- The loop over the instructions of a block in `recordTagBlocks`: the profile, and the block with the increments
that were inserted.  An inserted call is the next instruction that the loop sees. -/
def recordInsts (scaleFactor : UInt64) : List (Instruction ν) → ProfileData → ProfileData × List (Instruction ν)
  | [], profile => (profile, [])
  | I :: block, profile =>
    let recorded := recordInst stackAddressList I scaleFactor profile
    match recorded.2 with
    | none =>
      let rest := recordInsts scaleFactor block recorded.1
      (rest.1, I :: rest.2)
    | some inc =>
      let call := (inc.emitted nameOf recorded.1 I).toInstruction I.id none
      let rest := recordInsts scaleFactor block (recordInst stackAddressList call scaleFactor recorded.1).1
      (rest.1, I :: call :: rest.2)

/-- The charges of a block. -/
def blockCharge (block : List (Instruction ν)) (g : SummedField) : ℤ :=
  (block.map fun I => charge stackAddressList I g).sum

/-- An event is recorded and cancelled. -/
theorem recordInst_event {e : EmittedCall ν} (h : e.isEvent = true) (id : ν) (dbg : Option Nat) (sf : UInt64)
    (p : ProfileData) : (recordInst stackAddressList (e.toInstruction id dbg) sf p).1 = p := by
  have hadds := adds_recordInst stackAddressList (e.toInstruction id dbg)
  rw [funext (charge_event stackAddressList h id dbg)] at hadds
  refine ProfileData.ext_get (hadds.ids_eq sf p) fun f => ?_
  rw [hadds.get_eq]
  exact Adds.none.get_eq sf p f |>.symm

theorem recordInsts_cons (sf : UInt64) (I : Instruction ν) (block : List (Instruction ν)) (p : ProfileData) :
    (recordInsts nameOf stackAddressList sf (I :: block) p).1 =
      (recordInsts nameOf stackAddressList sf block (recordInst stackAddressList I sf p).1).1 := by
  rw [recordInsts]
  split
  · rfl
  · next inc hinc =>
    exact congrArg (fun q => (recordInsts nameOf stackAddressList sf block q).1)
      (recordInst_event stackAddressList (isEvent_emitted nameOf inc _ I) I.id none sf _)

theorem adds_recordInsts (block : List (Instruction ν)) :
    Adds (fun sf p => (recordInsts nameOf stackAddressList sf block p).1) (blockCharge stackAddressList block) := by
  induction block with
  | nil => exact Adds.none
  | cons I block ih =>
    have hcharge : blockCharge stackAddressList (I :: block) =
        fun g => charge stackAddressList I g + blockCharge stackAddressList block g := by
      funext g
      simp [blockCharge]
    rw [hcharge, funext₂ fun sf p => recordInsts_cons nameOf stackAddressList sf I block p]
    exact (adds_recordInst stackAddressList I).comp ih

end

/-! ### Calls inserted before -/

/-- `block'` is `block` with calls of the pass inserted, in their order. -/
inductive Inserted : List (Instruction ν) → List (EmittedCall ν) → List (Instruction ν) → Prop where
  | nil : Inserted [] [] []
  | keep {block : List (Instruction ν)} {calls : List (EmittedCall ν)} {block' : List (Instruction ν)}
      (I : Instruction ν) (h : Inserted block calls block') : Inserted (I :: block) calls (I :: block')
  | insert {block : List (Instruction ν)} {calls : List (EmittedCall ν)} {block' : List (Instruction ν)}
      (e : EmittedCall ν) (id : ν) (dbg : Option Nat) (h : Inserted block calls block') :
      Inserted block (e :: calls) (e.toInstruction id dbg :: block')

/-- The calls that are recorded as if they were the program's. -/
def recordedCalls (calls : List (EmittedCall ν)) : Nat := calls.countP fun e => !e.isEvent

section

variable {stackAddressList : ν → Bool} {block block' : List (Instruction ν)} {calls : List (EmittedCall ν)}

theorem blockCharge_inserted (h : Inserted block calls block') (g : SummedField) :
    blockCharge stackAddressList block' g = blockCharge stackAddressList block g + recordedCalls calls *
      tagCharge g := by
  induction h with
  | nil => simp [blockCharge, recordedCalls]
  | keep I _ ih =>
    simp only [blockCharge, List.map_cons, List.sum_cons] at ih ⊢
    omega
  | @insert block calls block' e id dbg _ ih =>
    simp only [blockCharge, List.map_cons, List.sum_cons] at ih ⊢
    cases he : e.isEvent with
    | true =>
      have hcount : recordedCalls (e :: calls) = recordedCalls calls := by simp [recordedCalls, he]
      rw [charge_event stackAddressList he, hcount]
      omega
    | false =>
      have hcount : recordedCalls (e :: calls) = recordedCalls calls + 1 := by simp [recordedCalls, he]
      rw [charge_tag stackAddressList he, hcount, Nat.cast_succ, Int.add_mul, Int.one_mul]
      omega

/-- Inserted calls leave the recorded profile as it is exactly when those of them that are neither timing events nor
increments, times the scale factor, vanish modulo `2 ^ 64`. -/
theorem recordInsts_inserted_iff (nameOf : Operand ν → List Char) (stackAddressList : ν → Bool)
    (block block' : List (Instruction ν)) (calls : List (EmittedCall ν)) (h : Inserted block calls block')
    (scaleFactor : UInt64) (profile : ProfileData) :
    (recordInsts nameOf stackAddressList scaleFactor block' profile).1 =
        (recordInsts nameOf stackAddressList scaleFactor block profile).1 ↔
      scaleFactor * UInt64.ofNat (recordedCalls calls) = 0 := by
  have hadds := adds_recordInsts nameOf stackAddressList block
  have hadds' := adds_recordInsts nameOf stackAddressList block'
  have hget : ∀ g, (recordInsts nameOf stackAddressList scaleFactor block' profile).1.get g =
      (recordInsts nameOf stackAddressList scaleFactor block profile).1.get g +
        scaleFactor * UInt64.ofNat (recordedCalls calls) * UInt64.ofInt (tagCharge g) := by
    intro g
    rw [hadds.get_eq, hadds'.get_eq, blockCharge_inserted h, UInt64.ofInt_add, UInt64.ofInt_mul, ofInt_natCast,
      UInt64.mul_add, UInt64.add_assoc, UInt64.mul_assoc]
  constructor
  · intro heq
    have htotal := hget .totalInstCount
    rw [heq] at htotal
    have hone : UInt64.ofInt (tagCharge .totalInstCount) = 1 := rfl
    rw [hone, UInt64.mul_one] at htotal
    simpa using htotal.symm
  · intro hzero
    refine ProfileData.ext_get ((hadds'.ids_eq _ _).trans (hadds.ids_eq _ _).symm) fun g => ?_
    rw [hget, hzero, UInt64.zero_mul, UInt64.add_zero]

/-- `ret`, and behind a timing event and an increment. -/
private def returnBlock : List (Instruction Nat) := [{ id := 0, opcode := .ret }]

private def eventsBlock : List (Instruction Nat) :=
  (EmittedCall.startTimingEvent 0).toInstruction 1 none ::
    (EmittedCall.incrementCounterArray 0 3).toInstruction 2 none :: returnBlock

private theorem inserted_eventsBlock :
    Inserted returnBlock [.startTimingEvent 0, .incrementCounterArray 0 3] eventsBlock :=
  .insert _ _ _ (.insert _ _ _ (.keep _ .nil))

theorem recordInsts_inserted_events :
    (recordInsts (fun _ => []) (fun _ => false) 1 eventsBlock {}).1 =
      (recordInsts (fun _ => []) (fun _ => false) 1 returnBlock {}).1 :=
  (recordInsts_inserted_iff (fun _ => []) (fun _ => false) returnBlock eventsBlock
    [.startTimingEvent 0, .incrementCounterArray 0 3] inserted_eventsBlock 1 {}).mpr (by decide)

/-- The tag of an earlier recording is recorded as a call. -/
theorem recordInsts_tag_recorded : ¬ ∀ (nameOf : Operand Nat → List Char) (stackAddressList : Nat → Bool)
    (block block' : List (Instruction Nat)) (calls : List (EmittedCall Nat)), Inserted block calls block' →
    ∀ (scaleFactor : UInt64) (profile : ProfileData),
      (recordInsts nameOf stackAddressList scaleFactor block' profile).1 =
        (recordInsts nameOf stackAddressList scaleFactor block profile).1 := by
  intro h
  have htag := h (fun _ => []) (fun _ => false) returnBlock
    ((EmittedCall.bbTag 7 1).toInstruction 1 none :: returnBlock) [.bbTag 7 1] (.insert _ _ _ (.keep _ .nil)) 1 {}
  exact absurd htag (by decide)

end

end ZRay.Pass
