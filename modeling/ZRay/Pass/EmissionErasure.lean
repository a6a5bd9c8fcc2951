import ZRay.Erasure
import ZRay.Pass.EmissionRecords

/-!
# What the increments hide

Two states of the pass that differ only in the increments and in the code of trip counts have the same erasure.
None of the two is looked at when clones are made, when blocks are numbered, recorded and tagged, or when timing
events are placed, so every function of the pass leads from states with the same erasure to states with the same
erasure, with or without counters.
-/

namespace ZRay.Pass

namespace Emission

open Clones (CallInst)

variable {α β ν χ : Type*}

/-! ### The erasure -/

/-- Neither an increment nor code of a trip count. -/
def Item.isKept : Item α ν → Bool
  | .program _ => true
  | .emitted call => !call.isIncrement
  | .tripCount _ _ _ => false

/-- The items that are kept. -/
def kept (l : List (Item α ν)) : List (Item α ν) := l.filter Item.isKept

@[simp] theorem kept_nil : kept ([] : List (Item α ν)) = [] := rfl

@[simp] theorem kept_append (l l' : List (Item α ν)) : kept (l ++ l') = kept l ++ kept l' := List.filter_append ..

theorem kept_cons_of_pos {i : Item α ν} (h : i.isKept = true) (l : List (Item α ν)) : kept (i :: l) = i :: kept l :=
  List.filter_cons_of_pos h

theorem kept_cons_of_neg {i : Item α ν} (h : i.isKept = false) (l : List (Item α ν)) : kept (i :: l) = kept l :=
  List.filter_cons_of_neg (by simp [h])

theorem kept_map_emitted {calls : List (EmittedCall ν)} (h : ∀ call ∈ calls, call.isIncrement = true) :
    kept (calls.map Item.emitted : List (Item α ν)) = [] := by
  refine List.filter_eq_nil_iff.mpr fun i hi => ?_
  obtain ⟨call, hcall, rfl⟩ := List.mem_map.mp hi
  simp [Item.isKept, h call hcall]

def Block.erase (b : Block α ν) : Block α ν := { b with body := kept b.body }

def Turn.erase (t : Turn α ν χ) : Turn α ν χ := { t with block := t.block.erase }

/-- The ids and the flags of a profile. -/
def idsOnly (p : ProfileData) : ProfileData :=
  clearedProfile p.pragmaRegionID p.groupNumber p.postDomSetID p.isIndirect p.enableMIRPass

theorem idsOnly_eq_iff {p q : ProfileData} : idsOnly p = idsOnly q ↔ p.ids = q.ids := by
  simp only [idsOnly, clearedProfile, ProfileData.ids, ProfileData.mk.injEq, Prod.mk.injEq]
  tauto

def CounterRecord.erase (r : CounterRecord α ν χ) : CounterRecord α ν χ :=
  { r with profile := idsOnly r.profile, turns := r.turns.map Turn.erase }

/-- The calls that are no increments. -/
def keptCalls (calls : List (EmittedCall ν)) : List (EmittedCall ν) := calls.filter fun call => !call.isIncrement

def IRState.erase (s : IRState α β ν χ) : IRState α β ν χ :=
  { s with
    code := fun F x => (s.code F x).erase
    emitted := keptCalls s.emitted
    pragmaRegionLog := s.pragmaRegionLog.map CounterRecord.erase }

/-- What is left of a recording besides the profile. -/
def Recording.erase (r : Recording α β ν χ) : List (Turn α ν χ) × IRState α β ν χ :=
  (r.turns.map Turn.erase, r.state.erase)

@[simp] theorem erase_code (s : IRState α β ν χ) (F : α) (x : β) : s.erase.code F x = (s.code F x).erase := rfl

@[simp] theorem erase_cfg (s : IRState α β ν χ) : s.erase.cfg = s.cfg := rfl

@[simp] theorem erase_members (s : IRState α β ν χ) : s.erase.toPassMembers = s.toPassMembers := rfl

/-- What has the same erasure has the same graphs and members, and items that are kept. -/
theorem cfg_eq_of_erase {s t : IRState α β ν χ} (h : s.erase = t.erase) : s.cfg = t.cfg := by
  have hcfg : s.erase.cfg = t.erase.cfg := congrArg IRState.cfg h
  exact hcfg

theorem members_eq_of_erase {s t : IRState α β ν χ} (h : s.erase = t.erase) :
    s.toPassMembers = t.toPassMembers := by
  have hmembers : s.erase.toPassMembers = t.erase.toPassMembers := congrArg IRState.toPassMembers h
  exact hmembers

theorem block_eq_of_erase {s t : IRState α β ν χ} (h : s.erase = t.erase) (F : α) (x : β) :
    (s.code F x).erase = (t.code F x).erase := by
  have hcode : s.erase.code F x = t.erase.code F x := congrArg (fun u : IRState α β ν χ => u.code F x) h
  exact hcode

theorem body_eq_of_erase {s t : IRState α β ν χ} (h : s.erase = t.erase) (F : α) (x : β) :
    kept (s.code F x).body = kept (t.code F x).body := by
  have hbody : (s.code F x).erase.body = (t.code F x).erase.body := congrArg Block.body (block_eq_of_erase h F x)
  exact hbody

theorem terminator_eq_of_erase {s t : IRState α β ν χ} (h : s.erase = t.erase) (F : α) (x : β) :
    (s.code F x).terminator = (t.code F x).terminator := by
  have hterm : (s.code F x).erase.terminator = (t.code F x).erase.terminator :=
    congrArg Block.terminator (block_eq_of_erase h F x)
  exact hterm

/-- The members are set. -/
theorem erase_withMembers {s t : IRState α β ν χ} (h : s.erase = t.erase) (p : PassMembers α) :
    IRState.erase { s with toPassMembers := p } = IRState.erase { t with toPassMembers := p } :=
  congrArg (fun u : IRState α β ν χ => { u with toPassMembers := p }) h

section

variable [DecidableEq α] [DecidableEq β]

/-! ### Changes of the code -/

theorem erase_modifyBlock {F : α} {x : β} {g g' : Block α ν → Block α ν} {s : IRState α β ν χ}
    (h : (g (s.code F x)).erase = g' (s.code F x).erase) :
    (s.modifyBlock F x g).erase = s.erase.modifyBlock F x g' := by
  have hcode : (fun F' x' => (Function.update s.code F (Function.update (s.code F) x (g (s.code F x))) F' x').erase) =
      Function.update s.erase.code F (Function.update (s.erase.code F) x (g' (s.erase.code F x))) := by
    funext F' x'
    by_cases hF : F' = F
    · subst hF
      by_cases hx : x' = x
      · subst hx
        simpa using h
      · simp [Function.update_of_ne hx]
    · simp [Function.update_of_ne hF]
  exact congrArg (fun c => ({ s.erase with code := c } : IRState α β ν χ)) hcode

theorem erase_setBody (F : α) (x : β) (body : List (Item α ν)) (s : IRState α β ν χ) :
    (s.setBody F x body).erase = s.erase.setBody F x (kept body) :=
  erase_modifyBlock rfl

/-- Nothing changes but items that are erased. -/
theorem erase_setBody_of_kept {F : α} {x : β} {body : List (Item α ν)} {s : IRState α β ν χ}
    (h : kept body = kept (s.code F x).body) : (s.setBody F x body).erase = s.erase := by
  rw [erase_setBody, h]
  have hcode : Function.update s.erase.code F (Function.update (s.erase.code F) x (s.erase.code F x)) =
      s.erase.code := by
    rw [Function.update_eq_self, Function.update_eq_self]
  exact congrArg (fun c => ({ s.erase with code := c } : IRState α β ν χ)) hcode

omit [DecidableEq α] [DecidableEq β] in
theorem erase_emit (calls : List (EmittedCall ν)) (s : IRState α β ν χ) :
    (s.emit calls).erase = s.erase.emit (keptCalls calls) := by
  have hcalls : keptCalls (s.emitted ++ calls) = keptCalls s.emitted ++ keptCalls calls := List.filter_append ..
  exact congrArg (fun l => ({ s.erase with emitted := l } : IRState α β ν χ)) hcalls

omit [DecidableEq α] [DecidableEq β] in
theorem erase_emit_increments {calls : List (EmittedCall ν)} (h : ∀ call ∈ calls, call.isIncrement = true)
    (s : IRState α β ν χ) : (s.emit calls).erase = s.erase := by
  have hnil : keptCalls calls = [] := List.filter_eq_nil_iff.mpr fun call hcall => by simp [h call hcall]
  rw [erase_emit, hnil, IRState.emit, List.append_nil]

theorem erase_insertFirst {call : EmittedCall ν} (h : call.isIncrement = false) (F : α) (x : β)
    (s : IRState α β ν χ) : (s.insertFirst F x call).erase = s.erase.insertFirst F x call := by
  have hcalls : keptCalls [call] = [call] := List.filter_cons_of_pos (by simp [h])
  rw [IRState.insertFirst, erase_emit, erase_setBody, kept_cons_of_pos (by simp [Item.isKept, h]), hcalls]
  rfl

theorem erase_insertFirst_increment {call : EmittedCall ν} (h : call.isIncrement = true) (F : α) (x : β)
    (s : IRState α β ν χ) : (s.insertFirst F x call).erase = s.erase := by
  rw [IRState.insertFirst, erase_emit_increments (by simpa using h),
    erase_setBody_of_kept (kept_cons_of_neg (by simp [Item.isKept, h]) _)]

theorem erase_append {i : Item α ν} (h : i.isKept = true) (F : α) (x : β) (s : IRState α β ν χ) :
    (s.append F x i).erase = s.erase.append F x i := by
  rw [IRState.append, erase_setBody, kept_append, kept_cons_of_pos h]
  rfl

theorem erase_append_of_not_kept {i : Item α ν} (h : i.isKept = false) (F : α) (x : β) (s : IRState α β ν χ) :
    (s.append F x i).erase = s.erase := by
  rw [IRState.append, erase_setBody_of_kept]
  rw [kept_append, kept_cons_of_neg h, kept_nil, List.append_nil]

theorem erase_insertLast {call : EmittedCall ν} (h : call.isIncrement = false) (F : α) (x : β)
    (s : IRState α β ν χ) : (s.insertLast F x call).erase = s.erase.insertLast F x call := by
  have hcalls : keptCalls [call] = [call] := List.filter_cons_of_pos (by simp [h])
  rw [IRState.insertLast, erase_emit, erase_append (by simp [Item.isKept, h]), hcalls]
  rfl

theorem erase_insertLast_increment {call : EmittedCall ν} (h : call.isIncrement = true) (F : α) (x : β)
    (s : IRState α β ν χ) : (s.insertLast F x call).erase = s.erase := by
  rw [IRState.insertLast, erase_emit_increments (by simpa using h),
    erase_append_of_not_kept (by simp [Item.isKept, h])]

/-! ### Clones -/

omit [DecidableEq β] in
theorem erase_cloneFunction (f newF : α) (s : IRState α β ν χ) :
    (cloneFunction f newF s).erase = cloneFunction f newF s.erase := by
  have hcode : (fun F x => (Function.update s.code newF (s.code f) F x).erase) =
      Function.update s.erase.code newF (s.erase.code f) := by
    funext F x
    by_cases hF : F = newF
    · subst hF
      simp
    · simp [Function.update_of_ne hF]
  exact congrArg (fun c => ({ (cloneFunction f newF s).erase with code := c } : IRState α β ν χ)) hcode

omit [DecidableEq α] [DecidableEq β] in
/-- Entry calls are kept. -/
theorem any_isStart_kept (l : List (Item α ν)) : (kept l).any Item.isStart = l.any Item.isStart := by
  induction l with
  | nil => rfl
  | cons i l ih =>
    cases hi : i.isKept with
    | true => rw [kept_cons_of_pos hi, List.any_cons, List.any_cons, ih]
    | false =>
      have hstart : i.isStart = false := by
        cases i with
        | program I => rfl
        | tripCount op id operand => rfl
        | emitted call => cases call <;> first | rfl | simp [Item.isKept, EmittedCall.isIncrement] at hi
      rw [kept_cons_of_neg hi, List.any_cons, hstart, Bool.false_or, ih]

omit [DecidableEq β] in
theorem erase_stripTimingEvents (m : IRModule α β ν χ) (F : α) (s : IRState α β ν χ) :
    (stripTimingEvents m F s).erase = stripTimingEvents m F s.erase := by
  have hany : (m.llvm.blocks (s.erase.cfg F)).any (fun x => (s.erase.code F x).body.any Item.isStart) =
      (m.llvm.blocks (s.cfg F)).any fun x => (s.code F x).body.any Item.isStart := by
    simp only [erase_cfg, erase_code, Block.erase, any_isStart_kept]
  unfold stripTimingEvents
  rw [hany]
  split
  · rfl
  · have hcode : (fun F' x => (Function.update s.code F (fun x =>
          { s.code F x with body := (s.code F x).body.filter fun i => !i.isEnd }) F' x).erase) =
        Function.update s.erase.code F fun x =>
          { s.erase.code F x with body := (s.erase.code F x).body.filter fun i => !i.isEnd } := by
      funext F' x
      by_cases hF : F' = F
      · subst hF
        simp [Block.erase, kept, List.filter_filter, Bool.and_comm]
      · simp [Function.update_of_ne hF]
    exact congrArg (fun c => ({ s.erase with code := c } : IRState α β ν χ)) hcode

omit [DecidableEq β] in
theorem erase_processFunctionClone (m : IRModule α β ν χ) (f : α) (r : Nat) (s : IRState α β ν χ) :
    processFunctionClone m f r s.erase =
      ((processFunctionClone m f r s).1, (processFunctionClone m f r s).2.erase) := by
  unfold processFunctionClone
  by_cases hmap : f ∈ s.cloneFunctionMap.map Prod.fst
  · rw [if_pos hmap, if_pos (show f ∈ s.erase.cloneFunctionMap.map Prod.fst from hmap)]
  · rw [if_neg hmap, if_neg (show f ∉ s.erase.cloneFunctionMap.map Prod.fst from hmap)]
    by_cases hlist : f ∈ s.clonedFunctionNames
    · rw [if_pos hlist, if_pos (show f ∈ s.erase.clonedFunctionNames from hlist)]
    · rw [if_neg hlist, if_neg (show f ∉ s.erase.clonedFunctionNames from hlist)]
      dsimp only
      rw [← erase_cloneFunction, ← erase_stripTimingEvents]
      rfl

omit [DecidableEq β] in
theorem erase_processCallInst (opts : PassOptions) (m : IRModule α β ν χ) (r : Nat) (c : CallInst α)
    (s : IRState α β ν χ) : processCallInst opts m r c s.erase =
      ((processCallInst opts m r c s).1, (processCallInst opts m r c s).2.erase) := by
  unfold processCallInst
  cases c.calledFunction with
  | none => rfl
  | some f =>
    dsimp only
    by_cases hintrinsic : m.isIntrinsic f = true
    · rw [if_pos hintrinsic, if_pos hintrinsic]
    rw [if_neg hintrinsic, if_neg hintrinsic]
    by_cases hblocks : (m.llvm.blocks (s.cfg f)).isEmpty = true
    · rw [if_pos hblocks, if_pos (show (m.llvm.blocks (s.erase.cfg f)).isEmpty = true from hblocks)]
      by_cases hfork : opts.applyFunctionCloning = true ∧ f = m.kmpcForkCall
      · rw [if_pos hfork, if_pos hfork]
        cases c.ompName with
        | none => rfl
        | some f =>
          dsimp only
          by_cases hfunction : (m.isFunction f || decide (f ∈ s.clonedFunctionNames)) = true
          · rw [if_pos hfunction,
              if_pos (show (m.isFunction f || decide (f ∈ s.erase.clonedFunctionNames)) = true from
              hfunction), erase_processFunctionClone]
          · rw [if_neg hfunction,
              if_neg (show ¬ (m.isFunction f || decide (f ∈ s.erase.clonedFunctionNames)) = true from
              hfunction)]
      · rw [if_neg hfork, if_neg hfork]
    rw [if_neg hblocks, if_neg (show ¬ (m.llvm.blocks (s.erase.cfg f)).isEmpty = true from hblocks)]
    by_cases hexit : f = m.onThreadExit
    · rw [if_pos hexit, if_pos hexit]
    rw [if_neg hexit, if_neg hexit]
    by_cases hcloning : opts.applyFunctionCloning = true
    · rw [if_pos hcloning, if_pos hcloning, erase_processFunctionClone]
    · rw [if_neg hcloning, if_neg hcloning]

omit [DecidableEq β] in
theorem erase_processInst (opts : PassOptions) (m : IRModule α β ν χ) (r : Nat) (I : ProgramInst α ν)
    (s : IRState α β ν χ) : processInst opts m r I s.erase =
      ((processInst opts m r I s).1, (processInst opts m r I s).2.erase) := by
  unfold processInst
  cases I.call with
  | none => rfl
  | some c => simp only [erase_processCallInst]

omit [DecidableEq β] in
theorem erase_processItem (opts : PassOptions) (m : IRModule α β ν χ) (r : Nat) (i : Item α ν)
    (s : IRState α β ν χ) : processItem opts m r i s.erase =
      ((processItem opts m r i s).1, (processItem opts m r i s).2.erase) := by
  cases i with
  | program I => simp only [processItem, erase_processInst]
  | emitted call => rfl
  | tripCount op id operand => rfl

theorem erase_processTerminator (opts : PassOptions) (m : IRModule α β ν χ) (r : Nat) (F : α) (x : β)
    (s : IRState α β ν χ) : (processTerminator opts m r F x s).erase = processTerminator opts m r F x s.erase := by
  unfold processTerminator
  have hterm : (s.erase.code F x).terminator = (s.code F x).terminator := rfl
  rw [hterm, erase_processInst]
  exact erase_modifyBlock rfl

/-! ### Recording -/

omit [DecidableEq α] [DecidableEq β] in
theorem kept_cons (i : Item α ν) (l : List (Item α ν)) : kept (i :: l) = kept [i] ++ kept l := kept_append [i] l

omit [DecidableEq β] in
theorem processItem_of_not_kept {i : Item α ν} (h : i.isKept = false) (opts : PassOptions) (m : IRModule α β ν χ)
    (r : Nat) (s : IRState α β ν χ) : processItem opts m r i s = (i, s) := by
  cases i with
  | program I => simp [Item.isKept] at h
  | emitted call => rfl
  | tripCount op id operand => rfl

omit [DecidableEq β] in
theorem isKept_processItem (opts : PassOptions) (m : IRModule α β ν χ) (r : Nat) (i : Item α ν)
    (s : IRState α β ν χ) : (processItem opts m r i s).1.isKept = i.isKept := by
  rcases processItem_fst opts m r i s with ⟨I, rfl, I', hI'⟩ | hsame
  · rw [hI']
    rfl
  · rw [hsame]

/-- An increment put behind an item is hidden. -/
theorem erase_insertBehind {F : α} {x : β} {done rest : List (Item α ν)} {i : Item α ν} {s : IRState α β ν χ}
    (hbody : (s.code F x).body = done ++ i :: rest) {calls : List (EmittedCall ν)}
    (hcalls : ∀ call ∈ calls, call.isIncrement = true) :
    ((s.setBody F x (done ++ i :: (calls.map Item.emitted ++ rest))).emit calls).erase = s.erase := by
  rw [erase_emit_increments hcalls, erase_setBody_of_kept]
  rw [hbody, kept_append, kept_append, kept_cons, kept_cons i rest, kept_append, kept_map_emitted hcalls,
    List.nil_append]

variable [Inhabited ν]

/-- A round of the loop at an item that is hidden. -/
theorem exists_recordBody_of_not_kept (opts : PassOptions) (m : IRModule α β ν χ) (r : Nat) (F : α) (x : β)
    (stackAddressList : ν → Bool) (sf : UInt64) {i : Item α ν} (hi : i.isKept = false) (done rest : List (Item α ν))
    (p : ProfileData) (s : IRState α β ν χ) (hbody : (s.code F x).body = done ++ i :: rest) :
    ∃ done' p' s', recordBody opts m r F x stackAddressList sf done (i :: rest) p s =
        recordBody opts m r F x stackAddressList sf done' rest p' s' ∧ kept done' = kept done ∧
      (s'.code F x).body = done' ++ rest ∧ s'.erase = s.erase := by
  have hround := recordBody_cons opts m r F x stackAddressList sf done i rest p s
  have hincrement := fun call (hcall : call ∈ runtimeInc m stackAddressList sf i p) => isIncrement_runtimeInc hcall
  dsimp only at hround
  generalize runtimeInc m stackAddressList sf i p = calls at hround hincrement
  have hbehind := erase_insertBehind hbody hincrement
  rw [processItem_of_not_kept hi] at hround
  refine ⟨_, _, _, hround, ?_, ?_, ?_⟩
  · rw [kept_append, kept_cons_of_neg hi, kept_map_emitted hincrement, List.append_nil]
  · simp
  · rw [erase_setBody_of_kept, hbehind]
    show _ = kept ((s.setBody F x (done ++ i :: (calls.map Item.emitted ++ rest))).code F x).body
    rw [code_setBody]

/-- The loop over the items of a block, on blocks that differ in what is hidden. -/
theorem erase_recordBody (opts : PassOptions) (m : IRModule α β ν χ) (r : Nat) (F : α) (x : β)
    (stackAddressList : ν → Bool) (sf : UInt64) {rest rest' : List (Item α ν)} (hrest : kept rest = kept rest') :
    ∀ (done done' : List (Item α ν)) (p p' : ProfileData) (s t : IRState α β ν χ), kept done = kept done' →
      (s.code F x).body = done ++ rest → (t.code F x).body = done' ++ rest' → s.erase = t.erase →
      (recordBody opts m r F x stackAddressList sf done rest p s).2.erase =
        (recordBody opts m r F x stackAddressList sf done' rest' p' t).2.erase := by
  refine filter_eq_induction (p := Item.isKept) (P := fun rest rest' => ∀ (done done' : List (Item α ν))
    (p p' : ProfileData) (s t : IRState α β ν χ), kept done = kept done' → (s.code F x).body = done ++ rest →
      (t.code F x).body = done' ++ rest' → s.erase = t.erase →
      (recordBody opts m r F x stackAddressList sf done rest p s).2.erase =
        (recordBody opts m r F x stackAddressList sf done' rest' p' t).2.erase) ?_ ?_ ?_ ?_ hrest
  · exact fun done done' p p' s t _ _ _ h => h
  · intro i l l' hi hl ih done done' p p' s t hdone hs ht h
    have hround := recordBody_cons opts m r F x stackAddressList sf done i l p s
    have hround' := recordBody_cons opts m r F x stackAddressList sf done' i l' p' t
    have hincrement := fun call (hcall : call ∈ runtimeInc m stackAddressList sf i p) => isIncrement_runtimeInc hcall
    have hincrement' := fun call (hcall : call ∈ runtimeInc m stackAddressList sf i p') =>
      isIncrement_runtimeInc hcall
    dsimp only at hround hround'
    rw [hround, hround']
    generalize runtimeInc m stackAddressList sf i p = calls at hincrement ⊢
    generalize runtimeInc m stackAddressList sf i p' = calls' at hincrement' ⊢
    have hbehind := erase_insertBehind hs hincrement
    have hbehind' := erase_insertBehind ht hincrement'
    generalize (s.setBody F x (done ++ i :: (calls.map Item.emitted ++ l))).emit calls = s₁ at hbehind ⊢
    generalize (t.setBody F x (done' ++ i :: (calls'.map Item.emitted ++ l'))).emit calls' = t₁ at hbehind' ⊢
    have hsame : s₁.erase = t₁.erase := hbehind.trans (h.trans hbehind'.symm)
    have hitem := erase_processItem opts m r i s₁
    have hitem' := erase_processItem opts m r i t₁
    rw [hsame, hitem', Prod.mk.injEq] at hitem
    have hkept := isKept_processItem opts m r i s₁
    rw [hi] at hkept
    generalize processItem opts m r i s₁ = next at hitem hkept ⊢
    generalize processItem opts m r i t₁ = next' at hitem ⊢
    obtain ⟨hfst, hsnd⟩ := hitem
    rw [hfst]
    refine ih _ _ _ _ _ _ ?_ (by simp) (by simp) ?_
    · rw [kept_append, kept_append, kept_cons_of_pos hkept, kept_cons_of_pos hkept, kept_map_emitted hincrement,
        kept_map_emitted hincrement', hdone]
    · rw [erase_setBody, erase_setBody, ← hsnd, kept_append, kept_append, kept_cons_of_pos hkept,
        kept_cons_of_pos hkept, kept_append, kept_append, kept_map_emitted hincrement, kept_map_emitted hincrement',
        hdone, show kept l = kept l' from hl]
  · intro i l l' hi hl ih done done' p p' s t hdone hs ht h
    obtain ⟨done₁, p₁, s₁, hround, hdone₁, hs₁, hsame⟩ :=
      exists_recordBody_of_not_kept opts m r F x stackAddressList sf hi done l p s hs
    rw [hround]
    exact ih _ _ _ _ _ _ (hdone₁.trans hdone) hs₁ ht (hsame.trans h)
  · intro i l l' hi hl ih done done' p p' s t hdone hs ht h
    obtain ⟨done₁, p₁, t₁, hround, hdone₁, ht₁, hsame⟩ :=
      exists_recordBody_of_not_kept opts m r F x stackAddressList sf hi done' l' p' t ht
    rw [hround]
    exact ih _ _ _ _ _ _ (hdone.trans hdone₁.symm) hs ht₁ (h.trans hsame.symm)

/-- One block is recorded and tagged. -/
theorem agree_recordTagBlock (opts : PassOptions) (m : IRModule α β ν χ) (id : Nat) (F : α) (sf : UInt64) (x : β) :
    Agree Recording.erase (fun r => recordTagBlock opts m id F sf r x) fun r =>
      recordTagBlock opts m id F sf r x := by
  intro r r' h
  obtain ⟨hturns, hstate⟩ := Prod.mk.inj h
  have hcfg := cfg_eq_of_erase hstate
  have hterm := terminator_eq_of_erase hstate F x
  have hblock := block_eq_of_erase hstate F x
  unfold recordTagBlock Recording.erase
  dsimp only
  rw [hcfg]
  have hrecorded := fun p p' => erase_recordBody opts m id F x (m.llvm.stackAddressList (r'.state.cfg F)) sf
    (body_eq_of_erase hstate F x) [] [] p p' r.state r'.state rfl rfl rfl hstate
  generalize (r.state.code F x).heads.foldl _ r.profile = p
  generalize (r'.state.code F x).heads.foldl _ r'.profile = p'
  have hrecorded := hrecorded p p'
  generalize recordBody opts m id F x (m.llvm.stackAddressList (r'.state.cfg F)) sf [] (r.state.code F x).body p
    r.state = recorded at hrecorded ⊢
  generalize recordBody opts m id F x (m.llvm.stackAddressList (r'.state.cfg F)) sf [] (r'.state.code F x).body p'
    r'.state = recorded' at hrecorded ⊢
  have hcalls : (processTerminator opts m id F x recorded.2).erase =
      (processTerminator opts m id F x recorded'.2).erase := by
    rw [erase_processTerminator, erase_processTerminator, hrecorded]
  rw [Prod.mk.injEq]
  constructor
  · rw [List.map_append, List.map_append, hturns]
    simp [Turn.erase, hblock]
  · rw [erase_insertFirst rfl, erase_insertFirst rfl, hcalls]
    have htotal := congrArg PassMembers.globalCounterEventTotal (members_eq_of_erase hcalls)
    rw [htotal]

theorem agree_recordTagBlocks (opts : PassOptions) (m : IRModule α β ν χ) (id : Nat) (F : α)
    (pd : List β) (sf : UInt64) :
    Agree Recording.erase (recordTagBlocks opts m id F pd sf) (recordTagBlocks opts m id F pd sf) :=
  Agree.foldl pd fun x _ => agree_recordTagBlock opts m id F sf x

theorem agree_recordCounter (opts : PassOptions) (m : IRModule α β ν χ) (id : Nat) (F : α) (counter : Counter β) :
    Agree Recording.erase (recordCounter opts m id F counter) (recordCounter opts m id F counter) := by
  cases counter with
  | postDomSet blocks => exact agree_recordTagBlocks opts m id F blocks 1
  | scaleFactorSet header pairs =>
    exact Agree.foldl pairs fun e _ => agree_recordTagBlocks opts m id F e.1 (UInt64.ofNat e.2)
  | dynamicLoop header blocks => exact agree_recordTagBlocks opts m id F blocks 1

/-! ### Counters -/

omit [DecidableEq α] [DecidableEq β] [Inhabited ν] in
/-- The options with the switch for counters set. -/
def EmissionOptions.withCounters (opts : EmissionOptions) (counters : Bool) : EmissionOptions :=
  { opts with applyCounters := counters }

omit [DecidableEq α] [DecidableEq β] [Inhabited ν] in
@[simp] theorem toPassOptions_withCounters (opts : EmissionOptions) (counters : Bool) :
    (opts.withCounters counters).toPassOptions = opts.toPassOptions := rfl

omit [Inhabited ν] in
theorem erase_insertCounterArrayInc (opts : EmissionOptions) (F : α) (x : β) (p : ProfileData) (s : IRState α β ν χ) :
    (insertCounterArrayInc opts F x p s).erase = s.erase := by
  unfold insertCounterArrayInc
  split
  · rfl
  · exact erase_insertFirst_increment rfl F x s

omit [Inhabited ν] in
/-- With counters or without, the code of the backedge-taken count is emitted. -/
theorem erase_insertDynamicLoopInc (opts : EmissionOptions) (m : IRModule α β ν χ) (F : α)
    (header : β) (p : ProfileData) (s : IRState α β ν χ) :
    (insertDynamicLoopInc opts m F header p s).erase =
      (m.llvm.expandCodeFor (s.erase.cfg F) header).foldl (fun s e => s.append F e.1 (.program e.2)) s.erase := by
  have hcode : ∀ (l : List (β × ProgramInst α ν)) (s : IRState α β ν χ),
      l.foldl (fun s e => s.append F e.1 (.program e.2)) s.erase =
        (l.foldl (fun s e => s.append F e.1 (.program e.2)) s).erase :=
    fun l s => List.foldl_hom IRState.erase fun s e => (erase_append rfl F e.1 s).symm
  have htrip : ∀ (l : List (Item α ν)) (bb : β) (s : IRState α β ν χ), (∀ i ∈ l, i.isTripCount = true) →
      (l.foldl (fun s i => s.append F bb i) s).erase = s.erase := by
    intro l bb
    induction l with
    | nil => exact fun s _ => rfl
    | cons i l ih =>
      intro s hl
      have hi : i.isKept = false := by
        have hop := hl i List.mem_cons_self
        cases i with
        | tripCount op id operand => rfl
        | _ => simp [Item.isTripCount] at hop
      exact (ih _ fun j hj => hl j (List.mem_cons_of_mem i hj)).trans (erase_append_of_not_kept hi F bb s)
  unfold insertDynamicLoopInc
  dsimp only
  rw [hcode]
  split
  · rw [erase_insertLast_increment rfl, htrip _ _ _ fun i hi => isTripCount_of_mem_items hi]
    rfl
  · rfl

omit [Inhabited ν] in
/-- The increment of a counter is hidden. -/
theorem erase_insertInc (opts opts' : EmissionOptions) (m : IRModule α β ν χ) (F : α) (counter : Counter β)
    (p p' : ProfileData) {s t : IRState α β ν χ} (h : s.erase = t.erase) :
    (insertInc opts m F counter p s).erase = (insertInc opts' m F counter p' t).erase := by
  cases counter with
  | postDomSet blocks =>
    unfold insertInc
    dsimp only
    cases blocks.head? with
    | none => exact h
    | some anchor =>
      dsimp only
      rw [erase_insertCounterArrayInc, erase_insertCounterArrayInc, h]
  | scaleFactorSet header pairs =>
    unfold insertInc
    rw [erase_insertCounterArrayInc, erase_insertCounterArrayInc, h]
  | dynamicLoop header blocks =>
    unfold insertInc
    dsimp only
    rw [erase_insertDynamicLoopInc, erase_insertDynamicLoopInc, h]

omit [DecidableEq α] [DecidableEq β] [Inhabited ν] in
theorem erase_writeRecord (event : CounterEvent) (F : α) (p : ProfileData) (ts : List (Turn α ν χ))
    (isIndirect : Bool) (s : IRState α β ν χ) :
    (writeRecord event F p ts isIndirect s).erase =
      writeRecord event F (idsOnly p) (ts.map Turn.erase) isIndirect s.erase := by
  have hlog : (s.pragmaRegionLog ++ [(⟨event, F, p, ts⟩ : CounterRecord α ν χ)]).map CounterRecord.erase =
      s.pragmaRegionLog.map CounterRecord.erase ++ [⟨event, F, idsOnly p, ts.map Turn.erase⟩] := List.map_append
  exact congrArg (fun l => ({ (writeRecord event F p ts isIndirect s).erase with pragmaRegionLog := l } :
    IRState α β ν χ)) hlog

/-- One counter, with the switch set or not. -/
theorem agree_emitCounter (opts : EmissionOptions) (b b' : Bool) (m : IRModule α β ν χ) (PR : PragmaRegion α β)
    (isIndirect : Bool) (counter : Counter β) : Agree IRState.erase
      (fun s => emitCounter (opts.withCounters b) m PR isIndirect s counter)
      (fun s => emitCounter (opts.withCounters b') m PR isIndirect s counter) := by
  intro s t h
  have hprofile : newProfile (opts.withCounters b) PR isIndirect s =
      newProfile (opts.withCounters b') PR isIndirect t := by
    have hmembers := members_eq_of_erase h
    unfold newProfile
    rw [hmembers]
    rfl
  unfold emitCounter
  dsimp only
  rw [hprofile]
  generalize newProfile (opts.withCounters b') PR isIndirect t = p
  have hrecorded := agree_recordCounter opts.toPassOptions m PR.pragmaRegionID PR.F counter
    { profile := p, state := s } { profile := p, state := t } (congrArg (fun e => (([] : List (Turn α ν χ)), e)) h)
  have hids : ∀ u : IRState α β ν χ, (recordCounter opts.toPassOptions m PR.pragmaRegionID PR.F counter
      { profile := p, state := u }).profile.ids = p.ids := fun u => ids_recordCounter opts.toPassOptions m _ _ _ _
  have hidss := hids s
  have hidst := hids t
  simp only [toPassOptions_withCounters]
  generalize recordCounter opts.toPassOptions m PR.pragmaRegionID PR.F counter { profile := p, state := s } = r
    at hrecorded hidss ⊢
  generalize recordCounter opts.toPassOptions m PR.pragmaRegionID PR.F counter { profile := p, state := t } = r'
    at hrecorded hidst ⊢
  obtain ⟨hturns, hstate⟩ := Prod.mk.inj hrecorded
  rw [erase_writeRecord, erase_writeRecord, hturns, idsOnly_eq_iff.mpr (hidss.trans hidst.symm),
    erase_insertInc _ _ m PR.F counter r.profile r'.profile hstate]

/-! ### Regions and clones -/

omit [Inhabited ν] in
theorem erase_insertThreadHandlers (opts : EmissionOptions) (m : IRModule α β ν χ) (F : α) (s : IRState α β ν χ) :
    (insertThreadHandlers opts m F s).erase = insertThreadHandlers opts m F s.erase := by
  unfold insertThreadHandlers
  dsimp only
  split
  · rw [erase_insertFirst rfl, erase_insertFirst rfl]
    rfl
  · rw [erase_insertFirst rfl]
    rfl

omit [Inhabited ν] in
theorem erase_insertReturnEvents (m : IRModule α β ν χ) (F : α) (r : Nat) (s : IRState α β ν χ) :
    (insertReturnEvents m F r s).erase = insertReturnEvents m F r s.erase := by
  refine (List.foldl_hom IRState.erase fun s x => ?_).symm
  have hterm : (s.erase.code F x).terminator = (s.code F x).terminator := rfl
  rw [hterm]
  split
  · exact (erase_insertLast rfl F x s).symm
  · rfl

omit [Inhabited ν] in
theorem erase_insertTimerEvents (opts : EmissionOptions) (m : IRModule α β ν χ) (PR : PragmaRegion α β)
    (isIndirect : Bool) (beginBlock endBlock : Option β) (s : IRState α β ν χ) :
    (insertTimerEvents opts m PR isIndirect beginBlock endBlock s).erase =
      insertTimerEvents opts m PR isIndirect beginBlock endBlock s.erase := by
  have hstart : (beginBlock.elim s fun x => s.insertFirst PR.F x (.startTimingEvent PR.pragmaRegionID)).erase =
      beginBlock.elim s.erase fun x => s.erase.insertFirst PR.F x (.startTimingEvent PR.pragmaRegionID) := by
    cases beginBlock with
    | none => rfl
    | some x => exact erase_insertFirst rfl PR.F x s
  unfold insertTimerEvents
  dsimp only
  rw [← hstart]
  split
  · split
    · cases endBlock with
      | none => rfl
      | some x => exact erase_insertLast rfl PR.F x _
    · rfl
  · split
    · rw [erase_insertFirst rfl, erase_insertReturnEvents]
      rfl
    · rfl

omit [DecidableEq α] [DecidableEq β] [Inhabited ν] in
theorem Block.size_pos (b : Block α ν) : 0 < b.size := Nat.succ_pos _

/-- The counters and the timing events, once it is known which they are. -/
theorem erase_insertCounters (opts : EmissionOptions) (b b' : Bool) (m : IRModule α β ν χ) (isIndirect : Bool)
    (PR : PragmaRegion α β) {s t : IRState α β ν χ} (h : s.erase = t.erase) {counters counters' : List (Counter β)}
    (hcounters : counters = counters') {beginBlock beginBlock' endBlock endBlock' : Option β}
    (hbegin : beginBlock = beginBlock') (hend : endBlock = endBlock') :
    (insertTimerEvents (opts.withCounters b) m PR isIndirect beginBlock endBlock (splitLoopEdges m PR counters
        (counters.foldl (emitCounter (opts.withCounters b) m PR isIndirect)
          { s with regionCounterEventTotal := 0 }))).erase =
      (insertTimerEvents (opts.withCounters b') m PR isIndirect beginBlock' endBlock' (splitLoopEdges m PR counters'
        (counters'.foldl (emitCounter (opts.withCounters b') m PR isIndirect)
          { t with regionCounterEventTotal := 0 }))).erase := by
  subst hcounters hbegin hend
  have hstart : IRState.erase { s with regionCounterEventTotal := 0 } =
      IRState.erase { t with regionCounterEventTotal := 0 } := by
    have hmembers := members_eq_of_erase h
    rw [hmembers]
    exact erase_withMembers h { t.toPassMembers with regionCounterEventTotal := 0 }
  have hfold := Agree.foldl counters (fun c _ => agree_emitCounter opts b b' m PR isIndirect c) _ _ hstart
  rw [erase_insertTimerEvents, erase_insertTimerEvents]
  have hsplit : ∀ u : IRState α β ν χ, (splitLoopEdges m PR counters u).erase =
    splitLoopEdges m PR counters u.erase :=
    fun u => rfl
  rw [hsplit, hsplit, hfold]
  rfl

/-- A region or a clone, with the switch set or not.  The counters are the same although the blocks
may differ in size. -/
theorem erase_instrumentPragmaRegion (opts : EmissionOptions) (b b' : Bool) (m : IRModule α β ν χ) (isIndirect : Bool)
    (PR : PragmaRegion α β) {s t : IRState α β ν χ} (h : s.erase = t.erase)
    (hmem : ∀ x ∈ PR.bbList, x ∈ (m.llvm.analysis (s.cfg PR.F)).orderedCFG) :
    (instrumentPragmaRegion (opts.withCounters b) m isIndirect s PR).erase =
      (instrumentPragmaRegion (opts.withCounters b') m isIndirect t PR).erase := by
  unfold instrumentPragmaRegion
  split
  · exact h
  -- the state behind the thread handlers
  have hfront : (if !isIndirect || m.startsWithOmp PR.F then insertThreadHandlers (opts.withCounters b) m PR.F s
      else s).erase =
        (if !isIndirect || m.startsWithOmp PR.F then insertThreadHandlers (opts.withCounters b') m PR.F t
      else t).erase := by
    split
    · rw [erase_insertThreadHandlers, erase_insertThreadHandlers, h]
      rfl
    · exact h
  have hcfg : (if !isIndirect || m.startsWithOmp PR.F then insertThreadHandlers (opts.withCounters b) m PR.F s
      else s).cfg = s.cfg := by
    unfold insertThreadHandlers
    split_ifs <;> rfl
  dsimp only
  generalize (if !isIndirect || m.startsWithOmp PR.F then insertThreadHandlers
    (opts.withCounters b) m PR.F s else s) =
    s₁ at hfront hcfg ⊢
  generalize (if !isIndirect || m.startsWithOmp PR.F then insertThreadHandlers
    (opts.withCounters b') m PR.F t else t) =
    t₁ at hfront ⊢
  -- the analysis in the two runs is the same but for the sizes
  have hfn : t₁.analysis m PR.F = (m.llvm.analysis (s₁.cfg PR.F)).withSize fun x => (t₁.code PR.F x).size := by
    rw [cfg_eq_of_erase hfront]
    rfl
  have hlisted : ∀ x ∈ PR.bbList, x ∈ (m.llvm.analysis (s₁.cfg PR.F)).orderedCFG := hcfg ▸ hmem
  have hsize := fun x => (s₁.code PR.F x).size_pos
  have hsize' := fun x => (t₁.code PR.F x).size_pos
  have hcounters : InstrumentPragmaRegion (opts.withCounters b).toPassOptions (s₁.analysis m PR.F) PR.bbList =
      InstrumentPragmaRegion (opts.withCounters b').toPassOptions (t₁.analysis m PR.F) PR.bbList :=
    hfn ▸ instrumentPragmaRegion_withSize opts.toPassOptions hsize hsize' hlisted (m.llvm.header_mem _)
  have hbegin : regionBeginBlock (s₁.analysis m PR.F) PR.bbList = regionBeginBlock (t₁.analysis m PR.F) PR.bbList :=
    hfn ▸ regionBeginBlock_withSize hsize hsize' hlisted
  have hend : regionEndBlock (s₁.analysis m PR.F) PR.bbList = regionEndBlock (t₁.analysis m PR.F) PR.bbList :=
    hfn ▸ regionEndBlock_withSize hsize hsize' hlisted
  have hevents := erase_insertCounters opts b b' m isIndirect PR hfront (congrArg (Option.getD · []) hcounters)
    hbegin hend
  generalize insertTimerEvents (opts.withCounters b) m PR isIndirect _ _ _ = u at hevents ⊢
  generalize insertTimerEvents (opts.withCounters b') m PR isIndirect _ _ _ = v at hevents ⊢
  have hmembers := members_eq_of_erase hevents
  rw [hmembers]
  split
  · exact erase_withMembers hevents { v.toPassMembers with regionCounterEventMax := v.regionCounterEventTotal }
  · exact hevents

/-- One pending clone. -/
theorem agree_instrumentClone (opts : EmissionOptions) (b b' : Bool) (m : IRModule α β ν χ) (key : α) :
    Agree IRState.erase (fun s => instrumentClone (opts.withCounters b) m s key)
      fun s => instrumentClone (opts.withCounters b') m s key := by
  intro s t h
  have hmembers := members_eq_of_erase h
  have hclone : clonePR m key s = clonePR m key t := by
    unfold clonePR
    rw [hmembers, cfg_eq_of_erase h]
  have hstart := erase_withMembers h { t.toPassMembers with indirectFunctionCounterOffset := t.regionCounterEventMax }
  have hinstrumented := erase_instrumentPragmaRegion opts b b' m true (clonePR m key s) hstart fun x hx => hx
  unfold instrumentClone raiseMax
  dsimp only
  rw [hmembers, ← hclone]
  generalize instrumentPragmaRegion (opts.withCounters b) m true _ (clonePR m key s) = u at hinstrumented ⊢
  generalize instrumentPragmaRegion (opts.withCounters b') m true _ (clonePR m key s) = v at hinstrumented ⊢
  have hmembers' := members_eq_of_erase hinstrumented
  rw [hmembers']
  split
  · exact erase_withMembers hinstrumented _
  · exact erase_withMembers hinstrumented _

theorem agree_cloneRound (opts : EmissionOptions) (b b' : Bool) (m : IRModule α β ν χ) :
    Agree IRState.erase (cloneRound (opts.withCounters b) m) (cloneRound (opts.withCounters b') m) := by
  intro s t h
  have hmembers := members_eq_of_erase h
  unfold cloneRound
  rw [hmembers]
  exact Agree.foldl t.pendingFunctionClones (fun key _ => agree_instrumentClone opts b b' m key) s t h

omit [Inhabited ν] in
theorem erase_initMain (opts : EmissionOptions) (m : IRModule α β ν χ) (s : IRState α β ν χ) :
    (initMain opts m s).erase = initMain opts m s.erase := by
  unfold initMain
  cases m.main with
  | none => rfl
  | some main =>
    dsimp only [Option.elim]
    split
    · rw [erase_insertFirst rfl, erase_insertFirst rfl]
      rfl
    · rw [erase_insertFirst rfl]
      rfl

/-- The regions of the module, whose blocks stay blocks of their functions. -/
theorem erase_instrumentRegions (opts : EmissionOptions) (b b' : Bool) (m : IRModule α β ν χ) {s t : IRState α β ν χ}
    (hs : Inv b m s) (h : s.erase = t.erase) :
    (m.prList.foldl (instrumentPragmaRegion (opts.withCounters b) m false) s).erase =
      (m.prList.foldl (instrumentPragmaRegion (opts.withCounters b') m false) t).erase := by
  refine Agree.foldl_of_invariant (P := Inv b m)
    (fun u PR _ hu => inv_instrumentPragmaRegion (opts.withCounters b) false PR hu) (fun u v PR hPR hu huv => ?_) hs h
  exact erase_instrumentPragmaRegion opts b b' m false PR huv (hu.code.listed PR hPR)

/-- With counters or without, a run of the pass comes to the same but for increments and code of trip counts. -/
theorem erase_runOnModule (opts : EmissionOptions) (b b' : Bool) (m : IRModule α β ν χ) (rounds : Nat) :
    (runOnModule (opts.withCounters b) m rounds).erase = (runOnModule (opts.withCounters b') m rounds).erase := by
  unfold runOnModule
  split
  · have hregions := erase_instrumentRegions opts b b' m
      (inv_processRegionCalls opts.toPassOptions (inv_initial b m)) rfl
    dsimp only [toPassOptions_withCounters]
    rw [erase_initMain, erase_initMain]
    generalize m.prList.foldl (instrumentPragmaRegion (opts.withCounters b) m false) _ = s at hregions ⊢
    generalize m.prList.foldl (instrumentPragmaRegion (opts.withCounters b') m false) _ = t at hregions ⊢
    refine congrArg (initMain opts m) ?_
    show IRState.erase (if opts.applyFunctionCloning = true then _ else _) =
      IRState.erase (if opts.applyFunctionCloning = true then _ else _)
    split
    · exact (agree_cloneRound opts b b' m).iterate rounds s t hregions
    · exact hregions
  · rfl

end

end Emission

end ZRay.Pass
