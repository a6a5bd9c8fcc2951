import ZRay.Pass.Emission

/-!
# What a run of the pass records and emits

Along a run of the pass every record of the region log is the sum of the charges of the blocks recorded for it, as
they stood at their turn.  The calls in the code are those that were emitted, besides the exit calls of the program's
markers; without counters there is no code of a trip count, and an increment is emitted exactly when a memory
intrinsic of run-time size is recorded (`inv_runOnModule`).
-/

namespace ZRay.Pass

/-- A call of one of the functions that count. -/
def EmittedCall.isIncrement {ν : Type*} : EmittedCall ν → Bool
  | .incrementCounterArray _ _ | .incrementCounterArraySF _ _ _ _ | .incrementLoadArray _ _ _ _
  | .incrementStoreArray _ _ _ _ | .incrementLoadStoreArray _ _ _ _ => true
  | _ => false

theorem EmittedCall.isEvent_of_isIncrement {ν : Type*} {call : EmittedCall ν} (h : call.isIncrement = true) :
    call.isEvent = true := by
  cases call <;> first | rfl | simp [isIncrement] at h

theorem RuntimeInc.isIncrement_emitted {ν : Type*} (nameOf : Operand ν → List Char) (inc : RuntimeInc)
    (profile : ProfileData) (I : Instruction ν) : (inc.emitted nameOf profile I).isIncrement = true := by
  cases inc <;> rfl

namespace Emission

open Clones (CallInst)

variable {α β ν χ : Type*}

/-! ### Profiles -/

/-- A profile to which a number was added in every field. -/
structure Added (p q : ProfileData) (n : SummedField → UInt64) : Prop where
  get_eq : ∀ f, q.get f = p.get f + n f
  ids_eq : q.ids = p.ids

theorem Added.refl (p : ProfileData) : Added p p fun _ => 0 := ⟨fun _ => (UInt64.add_zero _).symm, rfl⟩

theorem Added.trans {p q r : ProfileData} {n k : SummedField → UInt64} (h : Added p q n) (h' : Added q r k) :
    Added p r fun f => n f + k f :=
  ⟨fun f => by rw [h'.get_eq, h.get_eq, UInt64.add_assoc], h'.ids_eq.trans h.ids_eq⟩

theorem Added.of_adds {step : UInt64 → ProfileData → ProfileData} {c : SummedField → ℤ} (h : Adds step c)
    (sf : UInt64) (p : ProfileData) : Added p (step sf p) fun f => sf * UInt64.ofInt (c f) :=
  ⟨h.get_eq sf p, h.ids_eq sf p⟩

theorem Added.congr {p q : ProfileData} {n k : SummedField → UInt64} (h : Added p q n) (hn : ∀ f, n f = k f) :
    Added p q k :=
  ⟨fun f => by rw [h.get_eq, hn], h.ids_eq⟩

section

variable (stackAddressList : ν → Bool) (sf : UInt64)

theorem added_recordInst (I : Instruction ν) (p : ProfileData) :
    Added p (recordInst stackAddressList I sf p).1 fun f => sf * UInt64.ofInt (charge stackAddressList I f) :=
  Added.of_adds (adds_recordInst stackAddressList I) sf p

/-- The charges of a list of instructions, scaled. -/
def scaledCharge (block : List (Instruction ν)) (f : SummedField) : UInt64 :=
  sf * UInt64.ofInt (blockCharge stackAddressList block f)

theorem scaledCharge_append (block block' : List (Instruction ν)) (f : SummedField) :
    scaledCharge stackAddressList sf (block ++ block') f =
      scaledCharge stackAddressList sf block f + scaledCharge stackAddressList sf block' f := by
  rw [scaledCharge, blockCharge, List.map_append, List.sum_append, UInt64.ofInt_add, UInt64.mul_add]
  rfl

theorem scaledCharge_nil (f : SummedField) : scaledCharge stackAddressList sf [] f = 0 := UInt64.mul_zero

theorem scaledCharge_singleton (I : Instruction ν) (f : SummedField) :
    scaledCharge stackAddressList sf [I] f = sf * UInt64.ofInt (charge stackAddressList I f) := by
  simp [scaledCharge, blockCharge]

theorem scaledCharge_cons (I : Instruction ν) (block : List (Instruction ν)) (f : SummedField) :
    scaledCharge stackAddressList sf (I :: block) f =
      sf * UInt64.ofInt (charge stackAddressList I f) + scaledCharge stackAddressList sf block f := by
  rw [← List.singleton_append, scaledCharge_append, scaledCharge_singleton]

theorem added_foldl_recordInst (block : List (Instruction ν)) (p : ProfileData) :
    Added p (block.foldl (fun p I => (recordInst stackAddressList I sf p).1) p)
      (scaledCharge stackAddressList sf block) := by
  induction block generalizing p with
  | nil => exact (Added.refl p).congr fun f => (scaledCharge_nil stackAddressList sf f).symm
  | cons I block ih =>
    refine ((added_recordInst stackAddressList sf I p).trans (ih _)).congr fun f => ?_
    rw [scaledCharge_cons]

end

/-! ### The code -/

/-- The items that may stand in the code: instructions of the program, calls that were emitted, exit calls of the end
markers, and code of trip counts when there are counters. -/
def Item.Allowed (counters : Bool) (emitted : List (EmittedCall ν)) : Item α ν → Prop
  | .program _ => True
  | .emitted call => call ∈ emitted ∨ ∃ r, call = .endTimingEvent r
  | .tripCount _ _ _ => counters = true

theorem Item.Allowed.mono {counters : Bool} {emitted calls : List (EmittedCall ν)} {i : Item α ν}
    (h : i.Allowed counters emitted) : i.Allowed counters (emitted ++ calls) := by
  cases i with
  | program I => trivial
  | emitted call => exact h.imp_left fun hmem => List.mem_append_left _ hmem
  | tripCount op id operand => exact h

/-- The code holds what may stand there, and the blocks of the regions are blocks of their functions. -/
structure CodeInv (counters : Bool) (m : IRModule α β ν χ) (s : IRState α β ν χ) : Prop where
  items : ∀ F x, ∀ i ∈ (s.code F x).body, i.Allowed counters s.emitted
  listed : ∀ PR ∈ m.prList, ∀ x ∈ PR.bbList, x ∈ (m.llvm.analysis (s.cfg PR.F)).orderedCFG

theorem codeInv_initial (counters : Bool) (m : IRModule α β ν χ) : CodeInv counters m m.initial := by
  refine ⟨fun F x i hi => ?_, m.prList_blocks⟩
  have horiginal := m.code_original F x i hi
  cases i with
  | program I => trivial
  | tripCount op id operand => exact horiginal.elim
  | emitted call =>
    cases call with
    | endTimingEvent r => exact .inr ⟨r, rfl⟩
    | _ => exact horiginal.elim

/-- A change of the code that adds no item but those that may stand there. -/
theorem CodeInv.change {counters : Bool} {m : IRModule α β ν χ} {s s' : IRState α β ν χ} (h : CodeInv counters m s)
    {calls : List (EmittedCall ν)} (hemitted : s'.emitted = s.emitted ++ calls)
    (hlisted : ∀ PR ∈ m.prList, ∀ x ∈ PR.bbList, x ∈ (m.llvm.analysis (s'.cfg PR.F)).orderedCFG)
    (hitems : ∀ F x, ∀ i ∈ (s'.code F x).body, (∃ F' x', i ∈ (s.code F' x').body) ∨ i.Allowed counters s'.emitted) :
    CodeInv counters m s' := by
  refine ⟨fun F x i hi => ?_, hlisted⟩
  rcases hitems F x i hi with ⟨F', x', hi'⟩ | hallowed
  · rw [hemitted]
    exact (h.items F' x' i hi').mono
  · exact hallowed

/-- A step that emits nothing and writes no record. -/
structure Quiet (counters : Bool) (m : IRModule α β ν χ) (s s' : IRState α β ν χ) : Prop where
  emitted_eq : s'.emitted = s.emitted
  log_eq : s'.pragmaRegionLog = s.pragmaRegionLog
  inv : CodeInv counters m s → CodeInv counters m s'

theorem Quiet.refl (counters : Bool) (m : IRModule α β ν χ) (s : IRState α β ν χ) : Quiet counters m s s :=
  ⟨rfl, rfl, fun h => h⟩

theorem Quiet.trans {counters : Bool} {m : IRModule α β ν χ} {s s' s'' : IRState α β ν χ} (h : Quiet counters m s s')
    (h' : Quiet counters m s' s'') : Quiet counters m s s'' :=
  ⟨h'.emitted_eq.trans h.emitted_eq, h'.log_eq.trans h.log_eq, fun hs => h'.inv (h.inv hs)⟩

section

variable [DecidableEq α] {counters : Bool} {m : IRModule α β ν χ}

/-! ### Clones -/

theorem quiet_cloneFunction (counters : Bool) (m : IRModule α β ν χ) (f : α) (s : IRState α β ν χ) :
    Quiet counters m s (cloneFunction f (m.cloneName f) s) := by
  refine ⟨rfl, rfl, fun h => ?_⟩
  refine h.change (List.append_nil _).symm (fun PR hPR x hx => ?_) fun F x i hi => .inl ?_
  · have hne : PR.F ≠ m.cloneName f := (m.cloneName_ne PR hPR f).symm
    show x ∈ (m.llvm.analysis (Function.update s.cfg (m.cloneName f) (s.cfg f) PR.F)).orderedCFG
    rw [Function.update_of_ne hne]
    exact h.listed PR hPR x hx
  · have hcode : (cloneFunction f (m.cloneName f) s).code = Function.update s.code (m.cloneName f) (s.code f) := rfl
    rw [hcode] at hi
    by_cases hF : F = m.cloneName f
    · subst hF
      rw [Function.update_self] at hi
      exact ⟨f, x, hi⟩
    · rw [Function.update_of_ne hF] at hi
      exact ⟨F, x, hi⟩

theorem quiet_stripTimingEvents (counters : Bool) (m : IRModule α β ν χ) (F : α) (s : IRState α β ν χ) :
    Quiet counters m s (stripTimingEvents m F s) := by
  unfold stripTimingEvents
  split
  · exact .refl _ _ _
  · refine ⟨rfl, rfl, fun h => h.change (List.append_nil _).symm h.listed fun F' x i hi => .inl ⟨F', x, ?_⟩⟩
    dsimp only at hi
    by_cases hF : F' = F
    · subst hF
      rw [Function.update_self] at hi
      exact List.mem_of_mem_filter hi
    · rwa [Function.update_of_ne hF] at hi

theorem quiet_processFunctionClone (counters : Bool) (m : IRModule α β ν χ) (f : α) (r : Nat) (s : IRState α β ν χ) :
    Quiet counters m s (processFunctionClone m f r s).2 := by
  unfold processFunctionClone
  split
  · exact .refl _ _ _
  · split
    · exact .refl _ _ _
    · have hclone := (quiet_cloneFunction counters m f s).trans
        (quiet_stripTimingEvents counters m (m.cloneName f) (cloneFunction f (m.cloneName f) s))
      exact ⟨hclone.emitted_eq, hclone.log_eq, fun h => ⟨(hclone.inv h).items, (hclone.inv h).listed⟩⟩

theorem quiet_processCallInst (counters : Bool) (opts : PassOptions) (m : IRModule α β ν χ) (r : Nat) (c : CallInst α)
    (s : IRState α β ν χ) : Quiet counters m s (processCallInst opts m r c s).2 := by
  unfold processCallInst
  cases c.calledFunction with
  | none => exact .refl _ _ _
  | some f =>
    dsimp only
    repeat' split
    all_goals first
      | exact .refl _ _ _
      | exact quiet_processFunctionClone counters m _ r s

theorem quiet_processInst (counters : Bool) (opts : PassOptions) (m : IRModule α β ν χ) (r : Nat)
    (I : ProgramInst α ν) (s : IRState α β ν χ) : Quiet counters m s (processInst opts m r I s).2 := by
  unfold processInst
  split
  · exact .refl _ _ _
  · exact quiet_processCallInst counters opts m r _ s

theorem quiet_processItem (counters : Bool) (opts : PassOptions) (m : IRModule α β ν χ) (r : Nat) (i : Item α ν)
    (s : IRState α β ν χ) : Quiet counters m s (processItem opts m r i s).2 := by
  cases i with
  | program I => exact quiet_processInst counters opts m r I s
  | emitted call => exact .refl _ _ _
  | tripCount op id operand => exact .refl _ _ _

/-- A call stays an instruction of the program, and everything else is left. -/
theorem processItem_fst (opts : PassOptions) (m : IRModule α β ν χ) (r : Nat) (i : Item α ν) (s : IRState α β ν χ) :
    (∃ I, i = .program I ∧ ∃ I', (processItem opts m r i s).1 = .program I') ∨ processItem opts m r i s = (i, s) := by
  cases i with
  | program I => exact .inl ⟨I, rfl, _, rfl⟩
  | emitted call => exact .inr rfl
  | tripCount op id operand => exact .inr rfl

theorem allowed_processItem {opts : PassOptions} {r : Nat} {i : Item α ν} {s : IRState α β ν χ}
    {emitted : List (EmittedCall ν)} (h : i.Allowed counters emitted) :
    (processItem opts m r i s).1.Allowed counters emitted := by
  rcases processItem_fst opts m r i s with ⟨I, -, I', hI'⟩ | hsame
  · rw [hI']
    trivial
  · rwa [hsame]

end

section

variable [DecidableEq α] [DecidableEq β] {counters : Bool} {m : IRModule α β ν χ} {s : IRState α β ν χ}

/-! ### Changes of a block -/

@[simp] theorem code_setBody (F : α) (x : β) (body : List (Item α ν)) (s : IRState α β ν χ) :
    (s.setBody F x body).code F x = { s.code F x with body := body } := by
  simp [IRState.setBody, IRState.modifyBlock]

/-- The bodies behind a change of one of them. -/
theorem body_modifyBlock (F : α) (x : β) (g : Block α ν → Block α ν) (s : IRState α β ν χ) (F' : α) (x' : β) :
    ((s.modifyBlock F x g).code F' x').body = (g (s.code F x)).body ∨
      ((s.modifyBlock F x g).code F' x').body = (s.code F' x').body := by
  have hcode : (s.modifyBlock F x g).code =
      Function.update s.code F (Function.update (s.code F) x (g (s.code F x))) := rfl
  rw [hcode]
  by_cases hF : F' = F
  · subst hF
    by_cases hx : x' = x
    · subst hx
      simp
    · simp [Function.update_of_ne hx]
  · simp [Function.update_of_ne hF]

/-- Items were put into a body, and calls emitted. -/
theorem CodeInv.setBody_emit (h : CodeInv counters m s) {F : α} {x : β} {body : List (Item α ν)}
    {calls : List (EmittedCall ν)} (hbody : ∀ i ∈ body, i.Allowed counters (s.emitted ++ calls)) :
    CodeInv counters m ((s.setBody F x body).emit calls) := by
  refine h.change rfl h.listed fun F' x' i hi => ?_
  rcases body_modifyBlock F x (fun b => { b with body := body }) s F' x' with hset | hsame
  · have hi : i ∈ ((s.setBody F x body).code F' x').body := hi
    rw [show ((s.setBody F x body).code F' x').body = body from hset] at hi
    exact .inr (hbody i hi)
  · have hi : i ∈ ((s.setBody F x body).code F' x').body := hi
    rw [show ((s.setBody F x body).code F' x').body = (s.code F' x').body from hsame] at hi
    exact .inl ⟨F', x', hi⟩

omit [DecidableEq α] [DecidableEq β] in
theorem emit_nil (s : IRState α β ν χ) : s.emit [] = s := by simp [IRState.emit]

theorem quiet_setBody {F : α} {x : β} {body : List (Item α ν)} (hbody : ∀ i ∈ body, i.Allowed counters s.emitted) :
    Quiet counters m s (s.setBody F x body) := by
  refine ⟨rfl, rfl, fun h => ?_⟩
  rw [← emit_nil (s.setBody F x body)]
  exact h.setBody_emit (by simpa using hbody)

theorem quiet_processTerminator (counters : Bool) (opts : PassOptions) (m : IRModule α β ν χ)
    (r : Nat) (F : α) (x : β) (s : IRState α β ν χ) : Quiet counters m s (processTerminator opts m r F x s) := by
  have hcall := quiet_processInst counters opts m r (s.code F x).terminator s
  refine ⟨hcall.emitted_eq, hcall.log_eq, fun h => ?_⟩
  have hinv := hcall.inv h
  refine hinv.change (List.append_nil _).symm hinv.listed fun F' x' i hi => .inl ?_
  rcases body_modifyBlock F x (fun b => { b with terminator := (processInst opts m r (s.code F x).terminator s).1 })
    (processInst opts m r (s.code F x).terminator s).2 F' x' with hset | hsame
  · exact ⟨F, x, hset ▸ hi⟩
  · exact ⟨F', x', hsame ▸ hi⟩

theorem quiet_processBody (counters : Bool) (opts : PassOptions) (m : IRModule α β ν χ) (r : Nat) (F : α) (x : β)
    (rest : List (Item α ν)) : ∀ (done : List (Item α ν)) (s : IRState α β ν χ),
    (∀ i ∈ done ++ rest, i.Allowed counters s.emitted) →
    Quiet counters m s (processBody opts m r F x done rest s) := by
  induction rest with
  | nil => exact fun done s _ => .refl _ _ _
  | cons i rest ih =>
    intro done s hitems
    have hitem := quiet_processItem counters opts m r i s
    have hnext : ∀ j ∈ done ++ (processItem opts m r i s).1 :: rest,
        j.Allowed counters (processItem opts m r i s).2.emitted := by
      rw [hitem.emitted_eq]
      intro j hj
      rcases List.mem_append.mp hj with hj | hj
      · exact hitems j (List.mem_append_left _ hj)
      · rcases List.mem_cons.mp hj with rfl | hj
        · exact allowed_processItem (hitems i (by simp))
        · exact hitems j (by simp [hj])
    have hset := quiet_setBody (m := m) (F := F) (x := x) hnext
    refine (hitem.trans hset).trans (ih _ _ fun j hj => ?_)
    rw [hset.emitted_eq]
    rw [List.append_assoc, List.singleton_append] at hj
    exact hnext j hj

theorem quiet_processBlock (counters : Bool) (opts : PassOptions) (m : IRModule α β ν χ) (r : Nat) (F : α)
    (s : IRState α β ν χ) (x : β) (h : CodeInv counters m s) :
    Quiet counters m s (processBlock opts m r F s x) :=
  (quiet_processBody counters opts m r F x _ [] s (h.items F x)).trans
    (quiet_processTerminator counters opts m r F x _)

end

/-! ### Recording -/

end Emission

/-- A memory intrinsic whose size is known at run time only, in a call that the filter of
`recordInst` lets through. -/
def Instruction.IsUnsized {ν : Type*} (I : Instruction ν) : Prop :=
  I.opcode = .call ∧ I.isToolCall = false ∧ ∃ intrinsic, I.memIntrinsic = some (intrinsic, none)

/-- These are the instructions behind which `recordInst` puts an increment. -/
theorem recordInst_snd_eq_none_iff {ν : Type*} (stackAddressList : ν → Bool) (I : Instruction ν) (sf : UInt64)
    (p : ProfileData) : (recordInst stackAddressList I sf p).2 = none ↔ ¬ I.IsUnsized := by
  unfold recordInst Instruction.IsUnsized
  cases hop : I.opcode with
  | call =>
    simp only [Opcode.switchCase, recordCall]
    cases htool : I.isToolCall with
    | true => simp
    | false =>
      unfold recordMemIntrinsic
      rcases I.memIntrinsic with _ | ⟨_ | _ | _, _ | size⟩ <;> simp
  | _ => simp [Opcode.switchCase]

namespace Emission

/-- The instructions of a block. -/
def Block.instructions [Inhabited ν] (b : Block α ν) : List (Instruction ν) :=
  b.heads ++ (b.body.map Item.toInstruction ++ [b.terminator.toInstruction])

/-- The block holds a memory intrinsic of run-time size. -/
def Block.HasUnsized [Inhabited ν] (b : Block α ν) : Prop := ∃ i ∈ b.body, i.toInstruction.IsUnsized

def Item.isTripCount : Item α ν → Bool
  | .tripCount _ _ _ => true
  | _ => false

/-- What a turn adds to a field of the profile. -/
def Turn.charge [Inhabited ν] (m : IRModule α β ν χ) (t : Turn α ν χ) (f : SummedField) : UInt64 :=
  scaledCharge (m.llvm.stackAddressList t.cfg) t.scaleFactor t.block.instructions f

/-- A step that emits the given calls and writes no record. -/
structure Emits (counters : Bool) (m : IRModule α β ν χ) (calls : List (EmittedCall ν)) (s s' : IRState α β ν χ) :
    Prop where
  emitted_eq : s'.emitted = s.emitted ++ calls
  log_eq : s'.pragmaRegionLog = s.pragmaRegionLog
  inv : CodeInv counters m s → CodeInv counters m s'

theorem Quiet.emits {counters : Bool} {m : IRModule α β ν χ} {s s' : IRState α β ν χ} (h : Quiet counters m s s') :
    Emits counters m [] s s' :=
  ⟨h.emitted_eq.trans (List.append_nil _).symm, h.log_eq, h.inv⟩

theorem Emits.trans {counters : Bool} {m : IRModule α β ν χ} {calls calls' : List (EmittedCall ν)}
    {s s' s'' : IRState α β ν χ} (h : Emits counters m calls s s') (h' : Emits counters m calls' s' s'') :
    Emits counters m (calls ++ calls') s s'' :=
  ⟨by rw [h'.emitted_eq, h.emitted_eq, List.append_assoc], h'.log_eq.trans h.log_eq, fun hs => h'.inv (h.inv hs)⟩

theorem Emits.quiet {counters : Bool} {m : IRModule α β ν χ} {calls : List (EmittedCall ν)}
    {s s' s'' : IRState α β ν χ} (h : Emits counters m calls s s') (h' : Quiet counters m s' s'') :
      Emits counters m calls s s'' := by
  have hboth := h.trans h'.emits
  rwa [List.append_nil] at hboth

section

variable [DecidableEq α] [DecidableEq β] {counters : Bool} {m : IRModule α β ν χ} {s : IRState α β ν χ}

theorem emits_setBody {F : α} {x : β} {body : List (Item α ν)} {calls : List (EmittedCall ν)}
    (hbody : ∀ i ∈ body, i.Allowed counters (s.emitted ++ calls)) :
    Emits counters m calls s ((s.setBody F x body).emit calls) :=
  ⟨rfl, rfl, fun h => h.setBody_emit hbody⟩

/-- A call in front of the terminator or at the first insertion point. -/
theorem emits_insertFirst (h : CodeInv counters m s) (F : α) (x : β) (call : EmittedCall ν) :
    Emits counters m [call] s (s.insertFirst F x call) := by
  refine emits_setBody fun i hi => ?_
  rcases List.mem_cons.mp hi with rfl | hi
  · exact .inl (by simp)
  · exact (h.items F x i hi).mono

theorem emits_insertLast (h : CodeInv counters m s) (F : α) (x : β) (call : EmittedCall ν) :
    Emits counters m [call] s (s.insertLast F x call) := by
  refine emits_setBody fun i hi => ?_
  rcases List.mem_append.mp hi with hi | hi
  · exact (h.items F x i hi).mono
  · rw [List.mem_singleton] at hi
    rw [hi]
    exact .inl (by simp)

variable [Inhabited ν]

omit [DecidableEq α] [DecidableEq β] in
theorem isIncrement_runtimeInc {stackAddressList : ν → Bool} {sf : UInt64} {i : Item α ν} {p : ProfileData}
    {call : EmittedCall ν} (h : call ∈ runtimeInc m stackAddressList sf i p) : call.isIncrement = true := by
  obtain ⟨inc, -, rfl⟩ := Option.map_eq_some_iff.mp (Option.mem_toList.mp h)
  exact inc.isIncrement_emitted _ _ _

omit [DecidableEq α] [DecidableEq β] in
theorem runtimeInc_ne_nil_iff (m : IRModule α β ν χ) (stackAddressList : ν → Bool) (sf : UInt64) (i : Item α ν)
    (p : ProfileData) : runtimeInc m stackAddressList sf i p ≠ [] ↔ i.toInstruction.IsUnsized := by
  rw [← not_iff_not, not_not, ← recordInst_snd_eq_none_iff stackAddressList _ sf p, runtimeInc,
    Option.toList_eq_nil_iff, Option.map_eq_none_iff]

omit [DecidableEq α] [DecidableEq β] in
/-- An increment is recorded and cancelled. -/
theorem foldl_recordInst_increments (stackAddressList : ν → Bool) (sf : UInt64) {calls : List (EmittedCall ν)}
    (h : ∀ call ∈ calls, call.isIncrement = true) (p : ProfileData) :
    (calls.map (Item.emitted (α := α))).foldl
      (fun p inc => (recordInst stackAddressList inc.toInstruction sf p).1) p = p := by
  induction calls with
  | nil => rfl
  | cons call calls ih =>
    have hevent := EmittedCall.isEvent_of_isIncrement (h call List.mem_cons_self)
    have hcancel : (recordInst stackAddressList (Item.emitted (α := α) call).toInstruction sf p).1 = p :=
      recordInst_event stackAddressList hevent default none sf p
    rw [List.map_cons, List.foldl_cons, hcancel]
    exact ih fun call' hcall' => h call' (List.mem_cons_of_mem call hcall')

/-- One round of the loop over the items of a block. -/
theorem recordBody_cons (opts : PassOptions) (m : IRModule α β ν χ) (r : Nat) (F : α) (x : β)
    (stackAddressList : ν → Bool) (sf : UInt64) (done : List (Item α ν)) (i : Item α ν) (rest : List (Item α ν))
    (p : ProfileData) (s : IRState α β ν χ) :
    let calls := runtimeInc m stackAddressList sf i p
    let incs := calls.map Item.emitted
    let next := processItem opts m r i ((s.setBody F x (done ++ i :: (incs ++ rest))).emit calls)
    recordBody opts m r F x stackAddressList sf done (i :: rest) p s =
      recordBody opts m r F x stackAddressList sf (done ++ next.1 :: incs) rest
        (recordInst stackAddressList i.toInstruction sf p).1
        (next.2.setBody F x (done ++ next.1 :: (incs ++ rest))) := by
  intro calls incs next
  have hprofile := foldl_recordInst_increments (α := α) stackAddressList sf
    (fun call (hcall : call ∈ calls) => isIncrement_runtimeInc hcall)
    (recordInst stackAddressList i.toInstruction sf p).1
  rw [recordBody]
  dsimp only
  rw [hprofile]

/-- The loop records the items it was given. -/
theorem added_recordBody (opts : PassOptions) (m : IRModule α β ν χ) (r : Nat) (F : α) (x : β)
    (stackAddressList : ν → Bool) (sf : UInt64) (rest : List (Item α ν)) :
    ∀ (done : List (Item α ν)) (p : ProfileData) (s : IRState α β ν χ),
      Added p (recordBody opts m r F x stackAddressList sf done rest p s).1
        (scaledCharge stackAddressList sf (rest.map Item.toInstruction)) := by
  induction rest with
  | nil => exact fun done p s => (Added.refl p).congr fun f => (scaledCharge_nil stackAddressList sf f).symm
  | cons i rest ih =>
    intro done p s
    have hround := recordBody_cons opts m r F x stackAddressList sf done i rest p s
    dsimp only at hround
    rw [hround]
    refine ((added_recordInst stackAddressList sf i.toInstruction p).trans (ih _ _ _)).congr fun f => ?_
    rw [List.map_cons, scaledCharge_cons]

/-- It emits an increment for each memory intrinsic of run-time size. -/
theorem recordBody_spec (opts : PassOptions) (r : Nat) (F : α) (x : β) (stackAddressList : ν → Bool) (sf : UInt64)
    (rest : List (Item α ν)) : ∀ (done : List (Item α ν)) (p : ProfileData) (s : IRState α β ν χ),
    (∀ i ∈ done ++ rest, i.Allowed counters s.emitted) →
    ∃ calls, Emits counters m calls s (recordBody opts m r F x stackAddressList sf done rest p s).2 ∧
      (∀ call ∈ calls, call.isIncrement = true) ∧ (calls ≠ [] ↔ ∃ i ∈ rest, i.toInstruction.IsUnsized) := by
  induction rest with
  | nil =>
    exact fun done p s _ => ⟨[], (Quiet.refl _ _ _).emits, by simp, by simp⟩
  | cons i rest ih =>
    intro done p s hitems
    have hround := recordBody_cons opts m r F x stackAddressList sf done i rest p s
    have hincrement := fun call (hcall : call ∈ runtimeInc m stackAddressList sf i p) => isIncrement_runtimeInc hcall
    have hunsized := runtimeInc_ne_nil_iff m stackAddressList sf i p
    dsimp only at hround
    rw [hround]
    generalize runtimeInc m stackAddressList sf i p = calls at hincrement hunsized ⊢
    have hbody : ∀ j ∈ done ++ i :: (calls.map Item.emitted ++ rest), j.Allowed counters (s.emitted ++ calls) := by
      intro j hj
      simp only [List.mem_append, List.mem_cons, List.mem_map] at hj
      rcases hj with hj | rfl | ⟨call, hcall, rfl⟩ | hj
      · exact (hitems j (by simp [hj])).mono
      · exact (hitems j (by simp)).mono
      · exact .inl (List.mem_append_right _ hcall)
      · exact (hitems j (by simp [hj])).mono
    have hset := emits_setBody (m := m) (F := F) (x := x) hbody
    generalize (s.setBody F x (done ++ i :: (calls.map Item.emitted ++ rest))).emit calls = s₁ at hset ⊢
    have hitem := quiet_processItem counters opts m r i s₁
    have hbody' : ∀ j ∈ done ++ (processItem opts m r i s₁).1 :: (calls.map Item.emitted ++ rest),
        j.Allowed counters (processItem opts m r i s₁).2.emitted := by
      rw [hitem.emitted_eq, hset.emitted_eq]
      intro j hj
      rcases List.mem_append.mp hj with hj | hj
      · exact hbody j (List.mem_append_left _ hj)
      · rcases List.mem_cons.mp hj with rfl | hj
        · exact allowed_processItem (hbody i (by simp))
        · exact hbody j (List.mem_append_right _ (List.mem_cons_of_mem i hj))
    have hset' := quiet_setBody (m := m) (F := F) (x := x) hbody'
    generalize processItem opts m r i s₁ = next at hitem hbody' hset' ⊢
    obtain ⟨calls', hrest, hincrement', hunsized'⟩ := ih (done ++ next.1 :: calls.map Item.emitted)
      (recordInst stackAddressList i.toInstruction sf p).1
      (next.2.setBody F x (done ++ next.1 :: (calls.map Item.emitted ++ rest))) (fun j hj => by
        rw [List.append_assoc, List.cons_append] at hj
        exact hset'.emitted_eq ▸ hbody' j hj)
    refine ⟨calls ++ calls', ((hset.quiet hitem).quiet hset').trans hrest, fun call hcall => ?_, ?_⟩
    · exact (List.mem_append.mp hcall).elim (hincrement call) (hincrement' call)
    · rw [ne_eq, List.append_eq_nil_iff, not_and_or, ← ne_eq, ← ne_eq, hunsized, hunsized']
      simp

/-! ### Turns -/

/-- The recording of the turns `ts`: the profile takes their charges, and an increment is emitted exactly when one of
the blocks holds a memory intrinsic of run-time size. -/
structure Records (counters : Bool) (m : IRModule α β ν χ) (ts : List (Turn α ν χ)) (r r' : Recording α β ν χ) :
    Prop where
  turns_eq : r'.turns = r.turns ++ ts
  added : Added r.profile r'.profile fun f => (ts.map fun t => t.charge m f).sum
  log_eq : r'.state.pragmaRegionLog = r.state.pragmaRegionLog
  emitted : ∃ calls, r'.state.emitted = r.state.emitted ++ calls ∧
    ((∃ call ∈ calls, call.isIncrement = true) ↔ ∃ t ∈ ts, t.block.HasUnsized)
  tripCounts : ∀ t ∈ ts, ∀ i ∈ t.block.body, i.isTripCount = true → counters = true
  inv : CodeInv counters m r'.state

omit [DecidableEq α] [DecidableEq β] in
theorem Records.refl {r : Recording α β ν χ} (h : CodeInv counters m r.state) : Records counters m [] r r where
  turns_eq := (List.append_nil _).symm
  added := Added.refl r.profile
  log_eq := rfl
  emitted := ⟨[], (List.append_nil _).symm, by simp⟩
  tripCounts := by simp
  inv := h

omit [DecidableEq α] [DecidableEq β] in
theorem Records.trans {ts ts' : List (Turn α ν χ)} {r r' r'' : Recording α β ν χ} (h : Records counters m ts r r')
    (h' : Records counters m ts' r' r'') : Records counters m (ts ++ ts') r r'' where
  turns_eq := by rw [h'.turns_eq, h.turns_eq, List.append_assoc]
  added := (h.added.trans h'.added).congr fun f => by rw [List.map_append, List.sum_append]
  log_eq := h'.log_eq.trans h.log_eq
  emitted := by
    obtain ⟨calls, hcalls, hiff⟩ := h.emitted
    obtain ⟨calls', hcalls', hiff'⟩ := h'.emitted
    refine ⟨calls ++ calls', by rw [hcalls', hcalls, List.append_assoc], ?_⟩
    simp only [List.mem_append, or_and_right, exists_or, hiff, hiff']
  tripCounts := fun t ht => (List.mem_append.mp ht).elim (h.tripCounts t) (h'.tripCounts t)
  inv := h'.inv

/-- One block: it is recorded as it stands, and tagged. -/
theorem records_recordTagBlock (opts : PassOptions) (m : IRModule α β ν χ) (id : Nat) (F : α) (sf : UInt64)
    (r : Recording α β ν χ) (x : β) (h : CodeInv counters m r.state) :
    Records counters m [⟨r.state.cfg F, r.state.code F x, sf⟩] r (recordTagBlock opts m id F sf r x) := by
  let stackAddressList := m.llvm.stackAddressList (r.state.cfg F)
  have hheads := added_foldl_recordInst stackAddressList sf (r.state.code F x).heads r.profile
  unfold recordTagBlock
  dsimp only
  generalize (r.state.code F x).heads.foldl (fun p I => (recordInst stackAddressList I sf p).1) r.profile =
    p at hheads ⊢
  have hbody := added_recordBody opts m id F x stackAddressList sf (r.state.code F x).body [] p r.state
  obtain ⟨calls, hemits, hincrement, hunsized⟩ := recordBody_spec opts id F x stackAddressList sf
    (r.state.code F x).body [] p r.state (h.items F x)
  generalize recordBody opts m id F x stackAddressList sf [] (r.state.code F x).body p r.state = recorded
    at hemits hbody ⊢
  have hterm := quiet_processTerminator counters opts m id F x recorded.2
  have htag := emits_insertFirst ((hemits.quiet hterm).inv h) F x
    (.bbTag (processTerminator opts m id F x recorded.2).globalCounterEventTotal sf.toNat)
  have hall := (hemits.quiet hterm).trans htag
  refine ⟨rfl, ?_, hall.log_eq, ⟨_, hall.emitted_eq, ?_⟩, ?_, hall.inv h⟩
  · refine ((hheads.trans hbody).trans (added_recordInst stackAddressList sf _ recorded.1)).congr fun f => ?_
    rw [List.map_singleton, List.sum_singleton, Turn.charge, Block.instructions, scaledCharge_append,
      scaledCharge_append, scaledCharge_singleton, UInt64.add_assoc]
  · have hcalls : (∃ call ∈ calls, call.isIncrement = true) ↔ calls ≠ [] := by
      refine ⟨fun ⟨call, hcall, _⟩ => List.ne_nil_of_mem hcall, fun hne => ?_⟩
      obtain ⟨call, hcall⟩ := List.exists_mem_of_ne_nil calls hne
      exact ⟨call, hcall, hincrement call hcall⟩
    have hnotag : ∀ k n, (EmittedCall.bbTag k n : EmittedCall ν).isIncrement = false := fun _ _ => rfl
    simp only [List.mem_append, List.mem_singleton, or_and_right, exists_or, exists_eq_left, hnotag, hcalls, hunsized]
    simp [Block.HasUnsized]
  · intro t ht i hi htrip
    rw [List.mem_singleton.mp ht] at hi
    have hallowed := h.items F x i hi
    cases i with
    | tripCount op id operand => exact hallowed
    | _ => simp [Item.isTripCount] at htrip

omit [DecidableEq α] [DecidableEq β] in
/-- Recordings one after the other. -/
theorem exists_records_foldl {ι : Type*} (step : Recording α β ν χ → ι → Recording α β ν χ)
    (hstep : ∀ r i, CodeInv counters m r.state → ∃ ts, Records counters m ts r (step r i)) (l : List ι)
    (r : Recording α β ν χ) (h : CodeInv counters m r.state) : ∃ ts, Records counters m ts r (l.foldl step r) := by
  induction l generalizing r with
  | nil => exact ⟨[], .refl h⟩
  | cons i l ih =>
    obtain ⟨ts, hfirst⟩ := hstep r i h
    obtain ⟨ts', hrest⟩ := ih (step r i) hfirst.inv
    exact ⟨ts ++ ts', hfirst.trans hrest⟩

theorem exists_records_recordTagBlocks (opts : PassOptions) (id : Nat) (F : α) (pd : List β) (sf : UInt64)
    (r : Recording α β ν χ) (h : CodeInv counters m r.state) :
    ∃ ts, Records counters m ts r (recordTagBlocks opts m id F pd sf r) :=
  exists_records_foldl _ (fun r x hr => ⟨_, records_recordTagBlock opts m id F sf r x hr⟩) pd r h

theorem exists_records_recordCounter (opts : PassOptions) (id : Nat) (F : α) (counter : Counter β)
    (r : Recording α β ν χ) (h : CodeInv counters m r.state) :
    ∃ ts, Records counters m ts r (recordCounter opts m id F counter r) := by
  cases counter with
  | postDomSet blocks => exact exists_records_recordTagBlocks opts id F blocks 1 r h
  | scaleFactorSet header pairs =>
    exact exists_records_foldl _ (fun r e hr => exists_records_recordTagBlocks opts id F e.1 (UInt64.ofNat e.2) r hr)
      pairs r h
  | dynamicLoop header blocks => exact exists_records_recordTagBlocks opts id F blocks 1 r h

/-- Recording leaves the ids and the flags. -/
theorem ids_recordTagBlock (opts : PassOptions) (m : IRModule α β ν χ) (id : Nat) (F : α) (sf : UInt64)
    (r : Recording α β ν χ) (x : β) : (recordTagBlock opts m id F sf r x).profile.ids = r.profile.ids := by
  have hheads := added_foldl_recordInst (m.llvm.stackAddressList (r.state.cfg F)) sf
    (r.state.code F x).heads r.profile
  have hbody := added_recordBody opts m id F x (m.llvm.stackAddressList (r.state.cfg F)) sf (r.state.code F x).body []
    ((r.state.code F x).heads.foldl
      (fun p I => (recordInst (m.llvm.stackAddressList (r.state.cfg F)) I sf p).1) r.profile) r.state
  have hterm := added_recordInst (m.llvm.stackAddressList (r.state.cfg F)) sf
    (r.state.code F x).terminator.toInstruction
  exact (hterm _).ids_eq.trans (hbody.ids_eq.trans hheads.ids_eq)

theorem ids_recordTagBlocks (opts : PassOptions) (m : IRModule α β ν χ) (id : Nat) (F : α) (pd : List β) (sf : UInt64)
    (r : Recording α β ν χ) : (recordTagBlocks opts m id F pd sf r).profile.ids = r.profile.ids := by
  unfold recordTagBlocks
  induction pd generalizing r with
  | nil => rfl
  | cons x pd ih => exact (ih _).trans (ids_recordTagBlock opts m id F sf r x)

theorem ids_recordCounter (opts : PassOptions) (m : IRModule α β ν χ) (id : Nat) (F : α) (counter : Counter β)
    (r : Recording α β ν χ) : (recordCounter opts m id F counter r).profile.ids = r.profile.ids := by
  cases counter with
  | postDomSet blocks => exact ids_recordTagBlocks opts m id F blocks 1 r
  | dynamicLoop header blocks => exact ids_recordTagBlocks opts m id F blocks 1 r
  | scaleFactorSet header pairs =>
    unfold recordCounter
    dsimp only
    induction pairs generalizing r with
    | nil => rfl
    | cons e pairs ih => exact (ih _).trans (ids_recordTagBlocks opts m id F e.1 (UInt64.ofNat e.2) r)

/-! ### The run -/

/-- The log: without counters no code of a trip count was recorded; every profile is the sum of its turns; and without
counters an increment was emitted exactly when a memory intrinsic of run-time size was recorded. -/
structure Inv (counters : Bool) (m : IRModule α β ν χ) (s : IRState α β ν χ) : Prop where
  code : CodeInv counters m s
  tripCounts : ∀ rec ∈ s.pragmaRegionLog, ∀ t ∈ rec.turns, ∀ i ∈ t.block.body, i.isTripCount = true → counters = true
  profile : ∀ rec ∈ s.pragmaRegionLog, ∀ f, rec.profile.get f = (rec.turns.map fun t => t.charge m f).sum
  increments : counters = false → ((∃ call ∈ s.emitted, call.isIncrement = true) ↔
    ∃ rec ∈ s.pragmaRegionLog, ∃ t ∈ rec.turns, t.block.HasUnsized)

omit [DecidableEq α] [DecidableEq β] in
theorem inv_initial (counters : Bool) (m : IRModule α β ν χ) : Inv counters m m.initial where
  code := codeInv_initial counters m
  tripCounts := fun _ hrec => absurd hrec (List.not_mem_nil)
  profile := fun _ hrec => absurd hrec (List.not_mem_nil)
  increments := fun _ => ⟨fun ⟨_, hcall, _⟩ => absurd hcall List.not_mem_nil,
    fun ⟨_, hrec, _⟩ => absurd hrec List.not_mem_nil⟩

omit [DecidableEq α] [DecidableEq β] in
/-- A step that writes no record, and emits increments only with counters. -/
theorem Inv.of_emits {calls : List (EmittedCall ν)} {s' : IRState α β ν χ} (h : Inv counters m s)
    (hstep : Emits counters m calls s s')
    (hcalls : counters = false → ∀ call ∈ calls, call.isIncrement = false) : Inv counters m s' where
  code := hstep.inv h.code
  tripCounts := hstep.log_eq ▸ h.tripCounts
  profile := hstep.log_eq ▸ h.profile
  increments := fun hcounters => by
    rw [hstep.emitted_eq, hstep.log_eq, ← h.increments hcounters]
    refine ⟨fun ⟨call, hcall, hincrement⟩ => ?_, fun ⟨call, hcall, hincrement⟩ =>
      ⟨call, List.mem_append_left _ hcall, hincrement⟩⟩
    rcases List.mem_append.mp hcall with hcall | hcall
    · exact ⟨call, hcall, hincrement⟩
    · simp [hcalls hcounters call hcall] at hincrement

omit [DecidableEq α] [DecidableEq β] in
theorem Inv.of_quiet {s' : IRState α β ν χ} (h : Inv counters m s) (hstep : Quiet counters m s s') :
    Inv counters m s' :=
  h.of_emits hstep.emits fun _ _ hcall => absurd hcall List.not_mem_nil

omit [DecidableEq α] [DecidableEq β] [Inhabited ν] in
/-- A step that changes members only. -/
theorem quiet_withMembers (counters : Bool) (m : IRModule α β ν χ) (s : IRState α β ν χ) (p : PassMembers α) :
    Quiet counters m s { s with toPassMembers := p } :=
  ⟨rfl, rfl, fun h => ⟨h.items, h.listed⟩⟩

theorem Inv.insertFirst (h : Inv counters m s) (F : α) (x : β) {call : EmittedCall ν}
    (hcall : call.isIncrement = false) :
    Inv counters m (s.insertFirst F x call) :=
  h.of_emits (emits_insertFirst h.code F x call) fun _ _ hmem => List.mem_singleton.mp hmem ▸ hcall

theorem Inv.insertLast (h : Inv counters m s) (F : α) (x : β) {call : EmittedCall ν}
    (hcall : call.isIncrement = false) :
    Inv counters m (s.insertLast F x call) :=
  h.of_emits (emits_insertLast h.code F x call) fun _ _ hmem => List.mem_singleton.mp hmem ▸ hcall

omit [DecidableEq α] [DecidableEq β] in
/-- An invariant along a list. -/
theorem Inv.foldl {ι : Type*} {step : IRState α β ν χ → ι → IRState α β ν χ}
    (hstep : ∀ s i, Inv counters m s → Inv counters m (step s i)) (l : List ι) (h : Inv counters m s) :
    Inv counters m (l.foldl step s) :=
  List.foldlRecOn l step h fun s hs i _ => hstep s i hs

omit [Inhabited ν] in
theorem quiet_append (h : CodeInv counters m s) (F : α) (x : β) {i : Item α ν} (hi : i.Allowed counters s.emitted) :
    Quiet counters m s (s.append F x i) := by
  refine quiet_setBody fun j hj => ?_
  rcases List.mem_append.mp hj with hj | hj
  · exact h.items F x j hj
  · exact List.mem_singleton.mp hj ▸ hi

omit [DecidableEq α] [DecidableEq β] [Inhabited ν] in
theorem Quiet.foldl {ι : Type*} {step : IRState α β ν χ → ι → IRState α β ν χ} (l : List ι)
    (hstep : ∀ s, ∀ i ∈ l, CodeInv counters m s → Quiet counters m s (step s i)) (h : CodeInv counters m s) :
    Quiet counters m s (l.foldl step s) := by
  induction l generalizing s with
  | nil => exact .refl _ _ _
  | cons i l ih =>
    have hfirst := hstep s i List.mem_cons_self h
    exact hfirst.trans (ih (fun s j hj => hstep s j (List.mem_cons_of_mem i hj)) (hfirst.inv h))

omit [DecidableEq α] [DecidableEq β] [Inhabited ν] in
theorem isTripCount_of_mem_items {v : TripCount ν} {i : Item α ν} (h : i ∈ v.items) : i.isTripCount = true := by
  unfold TripCount.items TripCount.cast at h
  split at h
  · simp at h
  · rcases List.mem_append.mp h with h | h
    · split at h
      · exact List.mem_singleton.mp h ▸ rfl
      · split at h
        · exact List.mem_singleton.mp h ▸ rfl
        · simp at h
    · exact List.mem_singleton.mp h ▸ rfl

omit [Inhabited ν] in
/-- The increment of a counter asks for the switch. -/
theorem exists_emits_insertCounterArrayInc (opts : EmissionOptions) (F : α) (x : β) (p : ProfileData)
    (h : CodeInv opts.applyCounters m s) : ∃ calls,
    Emits opts.applyCounters m calls s (insertCounterArrayInc opts F x p s) ∧
      (opts.applyCounters = false → calls = []) := by
  unfold insertCounterArrayInc
  cases hcounters : opts.applyCounters with
  | false => exact ⟨[], (Quiet.refl _ _ _).emits, fun _ => rfl⟩
  | true => exact ⟨_, emits_insertFirst (hcounters ▸ h) F x _, fun hfalse => by simp at hfalse⟩

omit [Inhabited ν] in
theorem exists_emits_insertDynamicLoopInc (opts : EmissionOptions) (F : α) (header : β) (p : ProfileData)
    (h : CodeInv opts.applyCounters m s) : ∃ calls,
    Emits opts.applyCounters m calls s (insertDynamicLoopInc opts m F header p s) ∧
      (opts.applyCounters = false → calls = []) := by
  unfold insertDynamicLoopInc
  dsimp only
  have hcode : Quiet opts.applyCounters m s
      ((m.llvm.expandCodeFor (s.cfg F) header).foldl (fun s e => s.append F e.1 (.program e.2)) s) :=
    Quiet.foldl _ (fun s e _ hs => quiet_append hs F e.1 trivial) h
  generalize (m.llvm.expandCodeFor (s.cfg F) header).foldl (fun s e => s.append F e.1 (.program e.2)) s =
    s₁ at hcode ⊢
  cases hcounters : opts.applyCounters with
  | false => exact ⟨[], (hcounters ▸ hcode).emits, fun _ => rfl⟩
  | true =>
    rw [hcounters] at h hcode
    have htrip : Quiet true m s₁ ((m.llvm.tripCount (s.cfg F) header).items.foldl
        (fun s' i => s'.append F (m.llvm.edgeBlock (s.cfg F) header) i) s₁) := by
      refine Quiet.foldl _ (fun s' i hi hs => quiet_append hs F _ ?_) (hcode.inv h)
      have hop := isTripCount_of_mem_items hi
      cases i with
      | tripCount op id operand => rfl
      | _ => simp [Item.isTripCount] at hop
    have hfront := hcode.trans htrip
    rw [if_pos rfl]
    exact ⟨_, hfront.emits.trans (emits_insertLast (hfront.inv h) F _ _), fun hfalse => by simp at hfalse⟩

omit [Inhabited ν] in
theorem exists_emits_insertInc (opts : EmissionOptions) (F : α) (counter : Counter β) (p : ProfileData)
    (h : CodeInv opts.applyCounters m s) : ∃ calls,
    Emits opts.applyCounters m calls s (insertInc opts m F counter p s) ∧
      (opts.applyCounters = false → calls = []) := by
  cases counter with
  | postDomSet blocks =>
    unfold insertInc
    dsimp only
    cases blocks.head? with
    | none => exact ⟨[], (Quiet.refl _ _ _).emits, fun _ => rfl⟩
    | some anchor => exact exists_emits_insertCounterArrayInc opts F anchor p h
  | scaleFactorSet header pairs => exact exists_emits_insertCounterArrayInc opts F _ p h
  | dynamicLoop header blocks => exact exists_emits_insertDynamicLoopInc opts F header p h

omit [DecidableEq α] [DecidableEq β] [Inhabited ν] in
theorem get_newProfile (opts : EmissionOptions) (PR : PragmaRegion α β) (isIndirect : Bool) (s : IRState α β ν χ)
    (f : SummedField) : (newProfile opts PR isIndirect s).get f = 0 := by
  cases f <;> rfl

/-- One counter. -/
theorem inv_emitCounter (opts : EmissionOptions) (PR : PragmaRegion α β) (isIndirect : Bool) (counter : Counter β)
    (h : Inv opts.applyCounters m s) : Inv opts.applyCounters m (emitCounter opts m PR isIndirect s counter) := by
  obtain ⟨ts, hrecords⟩ := exists_records_recordCounter opts.toPassOptions PR.pragmaRegionID PR.F counter
    { profile := newProfile opts PR isIndirect s, state := s } h.code
  unfold emitCounter
  dsimp only
  generalize recordCounter opts.toPassOptions m PR.pragmaRegionID PR.F counter
    { profile := newProfile opts PR isIndirect s, state := s } = r at hrecords ⊢
  obtain ⟨calls, hinc, hnone⟩ := exists_emits_insertInc opts PR.F counter r.profile hrecords.inv
  generalize insertInc opts m PR.F counter r.profile r.state = s₂ at hinc ⊢
  obtain ⟨calls', hemitted, hiff⟩ := hrecords.emitted
  have hlog : s₂.pragmaRegionLog = s.pragmaRegionLog := hinc.log_eq.trans hrecords.log_eq
  have hturns : r.turns = ts := hrecords.turns_eq.trans (List.nil_append ts)
  have hcode := hinc.inv hrecords.inv
  refine ⟨⟨hcode.items, hcode.listed⟩, fun rec hrec => ?_, fun rec hrec f => ?_, fun hcounters => ?_⟩
  · rcases List.mem_append.mp hrec with hrec | hrec
    · exact h.tripCounts rec (hlog ▸ hrec)
    · rw [List.mem_singleton.mp hrec, hturns]
      exact hrecords.tripCounts
  · rcases List.mem_append.mp hrec with hrec | hrec
    · exact h.profile rec (hlog ▸ hrec) f
    · rw [List.mem_singleton.mp hrec, hrecords.added.get_eq, get_newProfile, UInt64.zero_add, hturns]
  · have hemitted₂ : s₂.emitted = s.emitted ++ calls' := by
      rw [hinc.emitted_eq, hnone hcounters, List.append_nil, hemitted]
    show (∃ call ∈ s₂.emitted, call.isIncrement = true) ↔
      ∃ rec ∈ s₂.pragmaRegionLog ++ [⟨counterEvent counter, PR.F, r.profile, r.turns⟩], ∃ t ∈ rec.turns,
        t.block.HasUnsized
    simp only [hemitted₂, hlog, hturns, List.mem_append, List.mem_singleton, or_and_right, exists_or, exists_eq_left]
    exact or_congr (h.increments hcounters) hiff

theorem inv_insertThreadHandlers (opts : EmissionOptions) (F : α) (h : Inv counters m s) :
    Inv counters m (insertThreadHandlers opts m F s) := by
  unfold insertThreadHandlers
  split
  · exact (h.insertFirst F _ rfl).insertFirst F _ rfl
  · exact h.insertFirst F _ rfl

theorem inv_insertReturnEvents (F : α) (r : Nat) (h : Inv counters m s) :
    Inv counters m (insertReturnEvents m F r s) := by
  refine Inv.foldl (fun s x hs => ?_) _ h
  split
  · exact hs.insertLast F x rfl
  · exact hs

theorem inv_insertTimerEvents (opts : EmissionOptions) (PR : PragmaRegion α β) (isIndirect : Bool)
    (beginBlock endBlock : Option β) (h : Inv counters m s) :
    Inv counters m (insertTimerEvents opts m PR isIndirect beginBlock endBlock s) := by
  unfold insertTimerEvents
  split
  · have hstart : Inv counters m
        (beginBlock.elim s fun x => s.insertFirst PR.F x (.startTimingEvent PR.pragmaRegionID)) := by
      cases beginBlock with
      | none => exact h
      | some x => exact h.insertFirst PR.F x rfl
    dsimp only
    split
    · cases endBlock with
      | none => exact hstart
      | some x => exact hstart.insertLast PR.F x rfl
    · exact hstart
  · split
    · exact (inv_insertReturnEvents PR.F _ h).insertFirst PR.F _ rfl
    · exact h

omit [DecidableEq β] in
theorem inv_splitLoopEdges (PR : PragmaRegion α β) (cs : List (Counter β)) (h : Inv counters m s) :
    Inv counters m (splitLoopEdges m PR cs s) := by
  refine h.of_quiet ⟨rfl, rfl, fun hcode => ⟨hcode.items, fun PR' hPR' x hx => ?_⟩⟩
  have hlisted := hcode.listed PR' hPR' x hx
  show x ∈ (m.llvm.analysis (Function.update s.cfg PR.F _ PR'.F)).orderedCFG
  by_cases hF : PR'.F = PR.F
  · rw [hF, Function.update_self]
    exact m.llvm.mem_splitEdges _ _ _ x (hF ▸ hlisted)
  · rwa [Function.update_of_ne hF]

/-- A region or a clone. -/
theorem inv_instrumentPragmaRegion (opts : EmissionOptions) (isIndirect : Bool) (PR : PragmaRegion α β)
    (h : Inv opts.applyCounters m s) : Inv opts.applyCounters m (instrumentPragmaRegion opts m isIndirect s PR) := by
  unfold instrumentPragmaRegion
  split
  · exact h
  · have hfront : Inv opts.applyCounters m
        (if !isIndirect || m.startsWithOmp PR.F then insertThreadHandlers opts m PR.F s else s) := by
      split
      · exact inv_insertThreadHandlers opts PR.F h
      · exact h
    dsimp only
    generalize (if !isIndirect || m.startsWithOmp PR.F then insertThreadHandlers opts m PR.F s else s) =
      s₁ at hfront ⊢
    have hcounters := Inv.foldl (fun s c hs => inv_emitCounter opts PR isIndirect c hs)
      ((InstrumentPragmaRegion opts.toPassOptions (s₁.analysis m PR.F) PR.bbList).getD [])
      (hfront.of_quiet (quiet_withMembers _ m s₁ { s₁.toPassMembers with regionCounterEventTotal := 0 }))
    have hevents := inv_insertTimerEvents opts PR isIndirect (regionBeginBlock (s₁.analysis m PR.F) PR.bbList)
      (regionEndBlock (s₁.analysis m PR.F) PR.bbList) (inv_splitLoopEdges PR
        ((InstrumentPragmaRegion opts.toPassOptions (s₁.analysis m PR.F) PR.bbList).getD []) hcounters)
    split
    · exact hevents.of_quiet (quiet_withMembers _ m _ _)
    · exact hevents

theorem inv_instrumentClone (opts : EmissionOptions) (key : α) (h : Inv opts.applyCounters m s) :
    Inv opts.applyCounters m (instrumentClone opts m s key) := by
  have hmembers := h.of_quiet (quiet_withMembers _ m s
    { s.toPassMembers with indirectFunctionCounterOffset := s.regionCounterEventMax })
  have hclone := inv_instrumentPragmaRegion opts true (clonePR m key s) hmembers
  unfold instrumentClone raiseMax
  dsimp only
  generalize instrumentPragmaRegion opts m true _ (clonePR m key s) = s₁ at hclone ⊢
  have herase := hclone.of_quiet (quiet_withMembers _ m s₁
    { s₁.toPassMembers with pendingFunctionClones := s₁.pendingFunctionClones.erase key })
  split
  · exact herase.of_quiet (quiet_withMembers _ m _ _)
  · exact herase

theorem inv_initMain (opts : EmissionOptions) (h : Inv counters m s) : Inv counters m (initMain opts m s) := by
  unfold initMain
  cases m.main with
  | none => exact h
  | some main =>
    have hinit : Inv counters m (s.insertFirst main (m.llvm.entryBlock (s.cfg main))
        (.zray_runtime_init m.prList.length s.globalCounterEventTotal)) := h.insertFirst main _ rfl
    dsimp only [Option.elim]
    split
    · exact hinit.insertFirst main _ rfl
    · exact hinit

theorem inv_processRegionCalls (opts : PassOptions) (h : Inv counters m s) :
    Inv counters m (processRegionCalls opts m s) :=
  Inv.foldl (fun _ PR hs => Inv.foldl (fun s x hs => hs.of_quiet
    (quiet_processBlock counters opts m PR.pragmaRegionID PR.F s x hs.code)) _ hs) _ h

/-- The invariant holds behind the recorded regions, and behind every run. -/
theorem inv_runOnModule (opts : EmissionOptions) (m : IRModule α β ν χ) (rounds : Nat) :
    Inv opts.applyCounters m (runOnModule opts m rounds) := by
  unfold runOnModule
  split
  · have hregions := Inv.foldl (fun _ PR hs => inv_instrumentPragmaRegion opts false PR hs) m.prList
      (inv_processRegionCalls opts.toPassOptions (inv_initial opts.applyCounters m))
    dsimp only
    refine inv_initMain opts ?_
    split
    · generalize m.prList.foldl (instrumentPragmaRegion opts m false)
        (processRegionCalls opts.toPassOptions m m.initial) = s at hregions ⊢
      induction rounds generalizing s with
      | zero => exact hregions
      | succ n ih => exact ih _ (Inv.foldl (fun _ key hs => inv_instrumentClone opts key hs) _ hregions)
    · exact hregions
  · exact inv_initial opts.applyCounters m

end

end Emission

end ZRay.Pass
