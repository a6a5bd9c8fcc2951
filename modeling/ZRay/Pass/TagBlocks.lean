import ZRay.Pass.RecordBlocks

/-!
# Merging blocks into one counter

`recordTagBlocks` records several blocks into one profile, each with its scale factor.  Recording is linear in
the scale factor, so the profile times its counter is the sum that separate counters of the blocks give, whose
values are the counter times the scale factors (`recordPairs_scaled`).  Adding up profiles does not depend on
how they are grouped (`ProfileSum.total_congr`).
-/

namespace ZRay.Pass

open EmittedCall

variable {β ν : Type*} [DecidableEq β]

/-- `isEHPad` of LLVM. -/
def Instruction.isEHPad (I : Instruction ν) : Bool :=
  match I.opcode with
  | .landingPad | .cleanupPad | .catchPad | .catchSwitch => true
  | _ => false

/-- A call inserted at `getFirstInsertionPt`: behind the `PHI`s, and behind the pad of an exception handler. -/
def insertFirst (call : Instruction ν) (block : List (Instruction ν)) : List (Instruction ν) :=
  let phis := block.takeWhile (·.opcode = .phi)
  match block.dropWhile (·.opcode = .phi) with
  | [] => phis ++ [call]
  | I :: rest => if I.isEHPad then phis ++ I :: call :: rest else phis ++ call :: I :: rest

/-- The code of the blocks, and the profile that is recorded. -/
structure Recording (β ν : Type*) where
  code : β → List (Instruction ν)
  profile : ProfileData

variable [Inhabited ν] (nameOf : Operand ν → List Char) (stackAddressList : ν → Bool) (globalCounterEventTotal : Nat)

/-- The body of the loop of `recordTagBlocks`: a block is recorded, and tagged. -/
def recordTagBlock (scaleFactor : UInt64) (s : Recording β ν) (block : β) : Recording β ν :=
  let recorded := recordInsts nameOf stackAddressList scaleFactor (s.code block) s.profile
  let tag := (EmittedCall.bbTag globalCounterEventTotal scaleFactor.toNat).toInstruction default none
  { code := Function.update s.code block (insertFirst tag recorded.2), profile := recorded.1 }

/-- `recordTagBlocks`. -/
def recordTagBlocks (pd : List β) (scaleFactor : UInt64) (s : Recording β ν) : Recording β ν :=
  pd.foldl (recordTagBlock nameOf stackAddressList globalCounterEventTotal scaleFactor) s

/-- The loop of `insertPostDomSetEvents` over the blocks and their scale factors. -/
def recordPairs (pd : List (List β × UInt64)) (s : Recording β ν) : Recording β ν :=
  pd.foldl (fun s block_pair =>
    recordTagBlocks nameOf stackAddressList globalCounterEventTotal block_pair.1 block_pair.2 s) s

/-- `clearRecords`, and the ids and flags set by `insertPostDomSetEvents`. -/
def clearedProfile (pragmaRegion groupID postDomSetID : UInt64) (isIndirect enableMIRPass : Bool) : ProfileData :=
  { pragmaRegionID := pragmaRegion, groupNumber := groupID, postDomSetID := postDomSetID, isIndirect := isIndirect,
    enableMIRPass := enableMIRPass }

/-- What a block adds to a field when it is recorded alone, with scale factor 1. -/
def contribution (block : List (Instruction ν)) (f : SummedField) : UInt64 :=
  (recordInsts nameOf stackAddressList 1 block {}).1.get f

/-- The blocks and scale factors in the order in which they are recorded, each block as it stands at its turn. -/
def turns : Recording β ν → List (β × UInt64) → List (List (Instruction ν) × UInt64)
  | _, [] => []
  | s, (block, scaleFactor) :: rest =>
    (s.code block, scaleFactor) ::
      turns (recordTagBlock nameOf stackAddressList globalCounterEventTotal scaleFactor s block) rest

/-- The blocks of the pairs one by one. -/
def blockPairs (pd : List (List β × UInt64)) : List (β × UInt64) :=
  pd.flatMap fun e => e.1.map fun block => (block, e.2)

/-! ### One profile -/

section

omit [DecidableEq β] [Inhabited ν]

variable {nameOf stackAddressList}

theorem get_recordInsts (sf : UInt64) (block : List (Instruction ν)) (p : ProfileData) (f : SummedField) :
    (recordInsts nameOf stackAddressList sf block p).1.get f =
      p.get f + sf * contribution nameOf stackAddressList block f := by
  have hadds := adds_recordInsts nameOf stackAddressList block
  rw [contribution, hadds.get_eq, hadds.get_eq, ProfileData.get_default, UInt64.zero_add, UInt64.one_mul]

/-- No instruction splits a counter. -/
theorem charge_splitCounters (I : Instruction ν) : charge stackAddressList I .splitCounters = 0 := by
  have hbytes : bytesCharge I .splitCounters = 0 := by
    unfold bytesCharge
    split <;> rfl
  have hother : otherCharge I .splitCounters = 0 := rfl
  have hmem : memIntrinsicCharge I .splitCounters = 0 := by
    unfold memIntrinsicCharge
    split <;> rfl
  have hswitch : switchCharge stackAddressList I .splitCounters = 0 := by
    unfold switchCharge
    split <;> simp [pointerCharge, constantsCharge, loadCharge, storeCharge, callCharge, hmem, hother, chargeOf]
  simp [charge, accessCharge, hbytes, hswitch, chargeOf]

theorem contribution_splitCounters (block : List (Instruction ν)) :
    contribution nameOf stackAddressList block .splitCounters = 0 := by
  rw [contribution, (adds_recordInsts nameOf stackAddressList block).get_eq, ProfileData.get_default]
  simp [blockCharge, charge_splitCounters]
  rfl

end

/-! ### The blocks of a counter -/

section

variable {nameOf stackAddressList globalCounterEventTotal}

theorem recordPairs_eq (pd : List (List β × UInt64)) (s : Recording β ν) :
    recordPairs nameOf stackAddressList globalCounterEventTotal pd s =
      (blockPairs pd).foldl (fun s e => recordTagBlock nameOf stackAddressList globalCounterEventTotal e.2 s e.1)
        s := by
  induction pd generalizing s with
  | nil => rfl
  | cons e pd ih =>
    have hblocks : blockPairs (e :: pd) = (e.1.map fun block => (block, e.2)) ++ blockPairs pd := List.flatMap_cons
    rw [recordPairs, List.foldl_cons, ← recordPairs, ih, hblocks, List.foldl_append, List.foldl_map]
    rfl

/-- A field of the recorded profile: the contributions of the blocks, scaled. -/
theorem get_foldl_recordTagBlock (l : List (β × UInt64)) (s : Recording β ν) (f : SummedField) :
    (l.foldl (fun s e => recordTagBlock nameOf stackAddressList globalCounterEventTotal e.2 s e.1) s).profile.get f =
      s.profile.get f + ((turns nameOf stackAddressList globalCounterEventTotal s l).map fun e =>
        e.2 * contribution nameOf stackAddressList e.1 f).sum := by
  induction l generalizing s with
  | nil => simp [turns]
  | cons e l ih =>
    rw [List.foldl_cons, ih, turns, List.map_cons, List.sum_cons, recordTagBlock, get_recordInsts, UInt64.add_assoc]

/-- Recording a block changes no other block. -/
theorem turns_of_nodup (l : List (β × UInt64)) (s : Recording β ν) (h : (l.map Prod.fst).Nodup) :
    turns nameOf stackAddressList globalCounterEventTotal s l = l.map fun e => (s.code e.1, e.2) := by
  induction l generalizing s with
  | nil => rfl
  | cons e l ih =>
    rw [List.map_cons, List.nodup_cons] at h
    rw [turns, List.map_cons, ih _ h.2]
    refine congrArg _ (List.map_congr_left fun e' he' => ?_)
    have hne : e'.1 ≠ e.1 := by
      intro heq
      exact h.1 (List.mem_map.mpr ⟨e', he', heq⟩)
    show (Function.update s.code e.1 _ e'.1, e'.2) = _
    rw [Function.update_of_ne hne]

end

/-! ### Sums of profiles -/

/-- A way to add up profiles with `operator+`. -/
inductive ProfileSum where
  | profile (p : ProfileData)
  | add (X Y : ProfileSum)

namespace ProfileSum

/-- The profiles, from left to right. -/
def profiles : ProfileSum → List ProfileData
  | profile p => [p]
  | add X Y => X.profiles ++ Y.profiles

def total : ProfileSum → ProfileData
  | profile p => p
  | add X Y => X.total.add Y.total

theorem get_total (t : ProfileSum) (f : SummedField) : t.total.get f = (t.profiles.map (·.get f)).sum := by
  induction t with
  | profile p => simp [total, profiles]
  | add X Y ihX ihY => simp [total, profiles, ihX, ihY]

/-- The ids are those of the first profile. -/
theorem exists_first (t : ProfileSum) : ∃ p rest, t.profiles = p :: rest ∧
    t.total.pragmaRegionID = p.pragmaRegionID ∧ t.total.groupNumber = p.groupNumber := by
  induction t with
  | profile p => exact ⟨p, [], rfl, rfl, rfl⟩
  | add X Y ihX _ =>
    obtain ⟨p, rest, hprofiles, hregion, hgroup⟩ := ihX
    exact ⟨p, rest ++ Y.profiles, by rw [profiles, hprofiles, List.cons_append], hregion, hgroup⟩

theorem two_le_length (X Y : ProfileSum) : 2 ≤ (add X Y).profiles.length := by
  obtain ⟨p, rest, hX, -, -⟩ := X.exists_first
  obtain ⟨q, rest', hY, -, -⟩ := Y.exists_first
  simp only [profiles, hX, hY, List.length_append, List.length_cons]
  omega

/-- The sum does not depend on the grouping. -/
theorem total_congr {t t' : ProfileSum} (h : t.profiles = t'.profiles) : t.total = t'.total := by
  have hget : ∀ f, t.total.get f = t'.total.get f := by
    intro f
    rw [get_total, get_total, h]
  obtain ⟨p, rest, hp, hregion, hgroup⟩ := t.exists_first
  obtain ⟨p', rest', hp', hregion', hgroup'⟩ := t'.exists_first
  rw [hp, hp'] at h
  obtain ⟨rfl, rfl⟩ := List.cons.inj h
  have hids : ∀ X Y : ProfileSum, (add X Y).total.ids =
      (0, (add X Y).total.pragmaRegionID, (add X Y).total.groupNumber, false, false) := fun _ _ => rfl
  cases t with
  | profile q =>
    cases t' with
    | profile q' =>
      obtain ⟨rfl, -⟩ := List.cons.inj hp
      obtain ⟨rfl, -⟩ := List.cons.inj hp'
      rfl
    | add X Y =>
      have hlen := two_le_length X Y
      rw [hp', ← hp] at hlen
      simp [profiles] at hlen
  | add X Y =>
    cases t' with
    | profile q =>
      have hlen := two_le_length X Y
      rw [hp, ← hp'] at hlen
      simp [profiles] at hlen
    | add X' Y' =>
      refine ProfileData.ext_get ?_ hget
      rw [hids, hids, hregion, hregion', hgroup, hgroup']

end ProfileSum

/-! ### The scaled totals -/

theorem get_applyCounter (m : RuntimeArrays) (p : ProfileData) (index : Int) {f : SummedField}
    (hf : f ≠ .splitCounters) : (m.applyCounter p index).get f = p.get f * m.counterArray index := by
  cases f <;> first | rfl | exact absurd rfl hf

/-- The sum is taken times the counter. -/
theorem sum_mul {α : Type*} (l : List (α × UInt64)) (c : UInt64) (value : α → UInt64) :
    (l.map fun e => e.2 * value e.1).sum * c = (l.map fun e => e.2 * c * value e.1).sum := by
  induction l with
  | nil => simp
  | cons e l ih =>
    rw [List.map_cons, List.sum_cons, List.map_cons, List.sum_cons, UInt64.add_mul, ih, UInt64.mul_assoc,
      UInt64.mul_comm _ c, ← UInt64.mul_assoc]

/-- What a counter reports of the blocks recorded for it: each field is the sum of what the blocks contribute alone,
times the scale factor and the counter.  A block counts as it stands at its turn; if no block comes twice, that is the
code that was given.  And profiles are added up field by field, whatever the grouping. -/
theorem recordPairs_scaled (pd : List (List β × UInt64)) (code : β → List (Instruction ν))
    (pragmaRegion groupID postDomSetID : UInt64) (isIndirect enableMIRPass : Bool) (m : RuntimeArrays) (index : Int) :
    let s : Recording β ν := ⟨code, clearedProfile pragmaRegion groupID postDomSetID isIndirect enableMIRPass⟩
    let recorded := recordPairs nameOf stackAddressList globalCounterEventTotal pd s
    (∀ f, (m.applyCounter recorded.profile index).get f =
      ((turns nameOf stackAddressList globalCounterEventTotal s (blockPairs pd)).map fun e =>
        e.2 * m.counterArray index * contribution nameOf stackAddressList e.1 f).sum) ∧
    ((pd.flatMap Prod.fst).Nodup → ∀ f, (m.applyCounter recorded.profile index).get f =
      ((blockPairs pd).map fun e =>
        e.2 * m.counterArray index * contribution nameOf stackAddressList (code e.1) f).sum) ∧
    (∀ t : ProfileSum, ∀ f, t.total.get f = (t.profiles.map (·.get f)).sum) ∧
    ∀ t t' : ProfileSum, t.profiles = t'.profiles → t.total = t'.total := by
  intro s recorded
  have hcleared : ∀ f, s.profile.get f = 0 := by
    intro f
    cases f <;> rfl
  have hfield : ∀ f, (m.applyCounter recorded.profile index).get f =
      ((turns nameOf stackAddressList globalCounterEventTotal s (blockPairs pd)).map fun e =>
        e.2 * m.counterArray index * contribution nameOf stackAddressList e.1 f).sum := by
    intro f
    have hsum : recorded.profile.get f =
      ((turns nameOf stackAddressList globalCounterEventTotal s (blockPairs pd)).map
        fun e => e.2 * contribution nameOf stackAddressList e.1 f).sum := by
      show (recordPairs nameOf stackAddressList globalCounterEventTotal pd s).profile.get f = _
      rw [recordPairs_eq, get_foldl_recordTagBlock, hcleared, UInt64.zero_add]
    by_cases hf : f = .splitCounters
    · subst hf
      have hkeep : (m.applyCounter recorded.profile index).get .splitCounters = recorded.profile.get .splitCounters :=
        rfl
      rw [hkeep, hsum]
      simp only [contribution_splitCounters, UInt64.mul_zero]
    · rw [get_applyCounter m _ _ hf, hsum]
      exact sum_mul _ _ fun block => contribution nameOf stackAddressList block f
  refine ⟨hfield, fun hnodup f => ?_, fun t f => t.get_total f, fun t t' h => ProfileSum.total_congr h⟩
  have hblocks : (blockPairs pd).map Prod.fst = pd.flatMap Prod.fst := by
    simp [blockPairs, List.map_flatMap, Function.comp_def]
  rw [hfield, turns_of_nodup _ _ (hblocks ▸ hnodup), List.map_map]
  rfl

/-- A load of 8 bytes in block 0, and a store of 4 bytes to the stack in block 1. -/
private def setBlocks : Nat → List (Instruction Nat)
  | 0 => [{ id := 10, opcode := .load, accessSize := 8 }]
  | _ => [{ id := 20, opcode := .store, accessSize := 4 }, { id := 21, opcode := .ret }]

private def onStack (v : Nat) : Bool := v = 20

private def counterThree : RuntimeArrays := ⟨1, fun _ => 3, fun _ => 0, fun _ => 0⟩

theorem recordPairs_scaled_twoBlocks :
    (counterThree.applyCounter (recordPairs (fun _ => []) onStack 0 [([0], 2), ([1], 5)]
        ⟨setBlocks, clearedProfile 1 0 0 false false⟩).profile 0).get .totalInstCount =
      ((blockPairs [([0], 2), ([1], 5)]).map fun e =>
        e.2 * counterThree.counterArray 0 * contribution (fun _ => []) onStack (setBlocks e.1) .totalInstCount).sum :=
  (recordPairs_scaled (fun _ => []) onStack 0 [([0], 2), ([1], 5)] setBlocks 1 0 0 false false counterThree 0).2.1
    (by decide) .totalInstCount

end ZRay.Pass
