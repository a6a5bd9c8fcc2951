import ZRay.Pass.EmissionRecords
import ZRay.Pass.Numbering

/-!
# The ids in the emitted calls

Every call that the pass puts into the code names a region of the module, and every increment a counter below
`CountArraySize`, the width of a region's row (`cellsBelow_runOnModule`).  The width is known at the end only: while
the counters of a region are inserted, their ids run ahead of `RegionCounterEventMax`, which is raised behind them.
The counters of a clone start at `RegionCounterEventMax` and raise it by way of `maxIndirect`, which never exceeds it.

Recording a block numbers nothing (`Unnumbered`), but it may put increments of the counter's id behind memory
intrinsics, and ask for clones.
-/

namespace ZRay.Pass

/-- The region that a call names is one of the first `R`, and its counter one of the first `N`. -/
def EmittedCall.Below {ν : Type*} (R N : Nat) : EmittedCall ν → Prop
  | .startTimingEvent r | .endTimingEvent r => r < R
  | .incrementCounterArray r k | .incrementCounterArraySF r k _ _ => r < R ∧ k < N
  | .incrementLoadArray r k _ _ | .incrementStoreArray r k _ _ | .incrementLoadStoreArray r k _ _ => r < R ∧ k < N
  | _ => True

theorem EmittedCall.Below.mono {ν : Type*} {R N N' : Nat} {call : EmittedCall ν} (h : call.Below R N) (hle : N ≤ N') :
    call.Below R N' := by
  cases call <;> first | trivial | exact h | exact ⟨h.1, by have := h.2; omega⟩

/-- The profile of a counter whose ids are below. -/
def ProfileBelow (R N : Nat) (p : ProfileData) : Prop := p.pragmaRegionID.toNat < R ∧ p.postDomSetID.toNat < N

theorem ProfileBelow.of_ids {R N : Nat} {p q : ProfileData} (h : ProfileBelow R N p) (hids : q.ids = p.ids) :
    ProfileBelow R N q := by
  simp only [ProfileData.ids, Prod.mk.injEq] at hids
  unfold ProfileBelow at h ⊢
  rw [hids.1, hids.2.1]
  exact h

theorem RuntimeInc.below_emitted {ν : Type*} {R N : Nat} {p : ProfileData} (h : ProfileBelow R N p)
    (nameOf : Operand ν → List Char) (inc : RuntimeInc) (I : Instruction ν) : (inc.emitted nameOf p I).Below R N := by
  cases inc <;> exact h

namespace Emission

open Clones (CallInst)

variable {α β ν χ : Type*}

/-! ### Steps that number nothing -/

/-- The counts that number counters: `GlobalCounterEventTotal`, `RegionCounterEventTotal`, `RegionCounterEventMax`,
`IndirectFunctionCounterOffset` and `maxIndirect`. -/
def PassMembers.numbering (p : PassMembers α) : Nat × Nat × Nat × Nat × Nat :=
  (p.globalCounterEventTotal, p.regionCounterEventTotal, p.regionCounterEventMax, p.indirectFunctionCounterOffset,
    p.maxIndirect)

/-- The members that keep track of clones. -/
def PassMembers.cloneMembers (p : PassMembers α) : CloneMembers α :=
  ⟨p.cloneFunctionMap, p.clonedFunctionNames, p.pendingFunctionClones⟩

/-- A function is asked for on behalf of region `r`. -/
abbrev IRModule.ask [DecidableEq α] (m : IRModule α β ν χ) (opts : PassOptions) (r : Nat) :
    CloneMembers α → α → CloneMembers α := CloneMembers.ask opts m.cloneName r

/-- A step that numbers nothing and writes no record.  It emits calls with `P` only, and changes the members that keep
track of clones by asking for functions. -/
structure Unnumbered (P : EmittedCall ν → Prop) (ask : CloneMembers α → α → CloneMembers α) (s s' : IRState α β ν χ) :
    Prop where
  calls : ∀ call ∈ s'.emitted, call ∈ s.emitted ∨ P call
  log_eq : s'.pragmaRegionLog = s.pragmaRegionLog
  numbering_eq : s'.numbering = s.numbering
  asked : ∃ fs : List α, s'.cloneMembers = fs.foldl ask s.cloneMembers

section

variable {P : EmittedCall ν → Prop} {ask : CloneMembers α → α → CloneMembers α} {s s' s'' : IRState α β ν χ}

theorem Unnumbered.refl (P : EmittedCall ν → Prop) (ask : CloneMembers α → α → CloneMembers α) (s : IRState α β ν χ) :
    Unnumbered P ask s s :=
  ⟨fun _ h => .inl h, rfl, rfl, [], rfl⟩

theorem Unnumbered.trans (h : Unnumbered P ask s s') (h' : Unnumbered P ask s' s'') : Unnumbered P ask s s'' where
  calls := by
    intro call hcall
    rcases h'.calls call hcall with hcall | hP
    · exact h.calls call hcall
    · exact .inr hP
  log_eq := h'.log_eq.trans h.log_eq
  numbering_eq := h'.numbering_eq.trans h.numbering_eq
  asked := by
    obtain ⟨fs, hfs⟩ := h.asked
    obtain ⟨fs', hfs'⟩ := h'.asked
    exact ⟨fs ++ fs', by rw [hfs', hfs, List.foldl_append]⟩

theorem Unnumbered.foldl {ι : Type*} {step : IRState α β ν χ → ι → IRState α β ν χ}
    (hstep : ∀ s i, Unnumbered P ask s (step s i)) (l : List ι) (s : IRState α β ν χ) :
    Unnumbered P ask s (l.foldl step s) := by
  induction l generalizing s with
  | nil => exact .refl P ask s
  | cons i l ih => exact (hstep s i).trans (ih (step s i))

/-- Calls are emitted, with whatever change of the code. -/
theorem unnumbered_emit {calls : List (EmittedCall ν)} (hcalls : ∀ call ∈ calls, P call)
    (hemitted : s'.emitted = s.emitted ++ calls) (hlog : s'.pragmaRegionLog = s.pragmaRegionLog)
    (hmembers : s'.toPassMembers = s.toPassMembers) : Unnumbered P ask s s' where
  calls := by
    intro call hcall
    rw [hemitted] at hcall
    exact (List.mem_append.mp hcall).imp_right (hcalls call)
  log_eq := hlog
  numbering_eq := by rw [hmembers]
  asked := ⟨[], by rw [hmembers, List.foldl_nil]⟩

/-- The code changes only. -/
theorem unnumbered_code (hemitted : s'.emitted = s.emitted) (hlog : s'.pragmaRegionLog = s.pragmaRegionLog)
    (hmembers : s'.toPassMembers = s.toPassMembers) : Unnumbered P ask s s' :=
  unnumbered_emit (fun _ h => absurd h List.not_mem_nil) (hemitted.trans (List.append_nil _).symm) hlog hmembers

/-- Whoever is asked for on behalf of region `r` is cloned for it. -/
theorem Unnumbered.clones [DecidableEq α] {opts : PassOptions} {cloneName : α → α} {r : Nat}
    (h : Unnumbered P (CloneMembers.ask opts cloneName r) s s') :
    ∀ e ∈ s'.cloneFunctionMap, e ∈ s.cloneFunctionMap ∨ e.2 = r := by
  obtain ⟨fs, hfs⟩ := h.asked
  have hmap : s'.cloneFunctionMap = (fs.foldl (CloneMembers.ask opts cloneName r) s.cloneMembers).cloneFunctionMap :=
    congrArg CloneMembers.cloneFunctionMap hfs
  rw [hmap]
  exact CloneMembers.mem_foldl_ask fs s.cloneMembers

end

section

variable [DecidableEq α]

/-! ### Clones that are asked for -/

theorem unnumbered_processFunctionClone (P : EmittedCall ν → Prop) {opts : PassOptions}
    (hopt : opts.applyFunctionCloning = true) (m : IRModule α β ν χ) (f : α) (r : Nat) (s : IRState α β ν χ) :
    Unnumbered P (m.ask opts r) s (processFunctionClone m f r s).2 := by
  have hask := CloneMembers.ask_of_cloning hopt m.cloneName r s.cloneMembers f
  change _ = if f ∈ s.cloneFunctionMap.map Prod.fst then _ else if f ∈ s.clonedFunctionNames then _ else _ at hask
  unfold processFunctionClone
  split
  · exact .refl P _ s
  · rename_i hkey
    rw [if_neg hkey] at hask
    split
    · exact .refl P _ s
    · rename_i hname
      rw [if_neg hname] at hask
      have hstrip : (stripTimingEvents m (m.cloneName f) (cloneFunction f (m.cloneName f) s)).toPassMembers =
          s.toPassMembers := by
        unfold stripTimingEvents
        split <;> rfl
      have hquiet := (quiet_cloneFunction false m f s).trans
        (quiet_stripTimingEvents false m (m.cloneName f) (cloneFunction f (m.cloneName f) s))
      have hcode : Unnumbered P (m.ask opts r) s
          (stripTimingEvents m (m.cloneName f) (cloneFunction f (m.cloneName f) s)) :=
        unnumbered_code hquiet.emitted_eq hquiet.log_eq hstrip
      refine ⟨hcode.calls, hcode.log_eq, hcode.numbering_eq, [f], ?_⟩
      show _ = CloneMembers.ask opts m.cloneName r s.cloneMembers f
      rw [hask, ← hstrip]
      rfl

theorem unnumbered_processCallInst (P : EmittedCall ν → Prop) (opts : PassOptions) (m : IRModule α β ν χ) (r : Nat)
    (c : CallInst α) (s : IRState α β ν χ) : Unnumbered P (m.ask opts r) s (processCallInst opts m r c s).2 := by
  unfold processCallInst
  cases c.calledFunction with
  | none => exact .refl P _ s
  | some f =>
    dsimp only
    split
    · exact .refl P _ s
    · split
      · split
        · rename_i hfork
          repeat' split
          all_goals first
            | exact .refl P _ s
            | exact unnumbered_processFunctionClone P hfork.1 m _ r s
        · exact .refl P _ s
      · split
        · exact .refl P _ s
        · split
          · rename_i hopt
            exact unnumbered_processFunctionClone P hopt m _ r s
          · exact .refl P _ s

theorem unnumbered_processInst (P : EmittedCall ν → Prop) (opts : PassOptions) (m : IRModule α β ν χ) (r : Nat)
    (I : ProgramInst α ν) (s : IRState α β ν χ) : Unnumbered P (m.ask opts r) s (processInst opts m r I s).2 := by
  unfold processInst
  split
  · exact .refl P _ s
  · exact unnumbered_processCallInst P opts m r _ s

theorem unnumbered_processItem (P : EmittedCall ν → Prop) (opts : PassOptions) (m : IRModule α β ν χ) (r : Nat)
    (i : Item α ν) (s : IRState α β ν χ) : Unnumbered P (m.ask opts r) s (processItem opts m r i s).2 := by
  cases i with
  | program I => exact unnumbered_processInst P opts m r I s
  | emitted call => exact .refl P _ s
  | tripCount op id operand => exact .refl P _ s

variable [DecidableEq β]

theorem unnumbered_setBody (P : EmittedCall ν → Prop) (ask : CloneMembers α → α → CloneMembers α) (F : α) (x : β)
    (body : List (Item α ν)) (s : IRState α β ν χ) : Unnumbered P ask s (s.setBody F x body) :=
  unnumbered_code rfl rfl rfl

theorem unnumbered_processTerminator (P : EmittedCall ν → Prop) (opts : PassOptions) (m : IRModule α β ν χ) (r : Nat)
    (F : α) (x : β) (s : IRState α β ν χ) : Unnumbered P (m.ask opts r) s (processTerminator opts m r F x s) :=
  (unnumbered_processInst P opts m r (s.code F x).terminator s).trans (unnumbered_code rfl rfl rfl)

theorem unnumbered_processBody (P : EmittedCall ν → Prop) (opts : PassOptions) (m : IRModule α β ν χ)
    (r : Nat) (F : α) (x : β) (rest done : List (Item α ν)) (s : IRState α β ν χ) :
    Unnumbered P (m.ask opts r) s (processBody opts m r F x done rest s) := by
  induction rest generalizing done s with
  | nil => exact .refl P _ s
  | cons i rest ih =>
    have hitem := unnumbered_processItem P opts m r i s
    have hset := unnumbered_setBody P (m.ask opts r) F x (done ++ (processItem opts m r i s).1 :: rest)
      (processItem opts m r i s).2
    exact (hitem.trans hset).trans (ih _ _)

theorem unnumbered_processBlock (P : EmittedCall ν → Prop) (opts : PassOptions) (m : IRModule α β ν χ)
    (r : Nat) (F : α) (s : IRState α β ν χ) (x : β) : Unnumbered P (m.ask opts r) s (processBlock opts m r F s x) :=
  (unnumbered_processBody P opts m r F x _ [] s).trans (unnumbered_processTerminator P opts m r F x _)

theorem unnumbered_insertFirst (F : α) (x : β) {P : EmittedCall ν → Prop} {call : EmittedCall ν} (h : P call)
    (ask : CloneMembers α → α → CloneMembers α) (s : IRState α β ν χ) :
      Unnumbered P ask s (s.insertFirst F x call) := by
  have hcalls : ∀ c ∈ [call], P c := by
    intro c hc
    rw [List.mem_singleton.mp hc]
    exact h
  exact unnumbered_emit hcalls rfl rfl rfl

theorem unnumbered_insertLast (F : α) (x : β) {P : EmittedCall ν → Prop} {call : EmittedCall ν} (h : P call)
    (ask : CloneMembers α → α → CloneMembers α) (s : IRState α β ν χ) :
      Unnumbered P ask s (s.insertLast F x call) := by
  have hcalls : ∀ c ∈ [call], P c := by
    intro c hc
    rw [List.mem_singleton.mp hc]
    exact h
  exact unnumbered_emit hcalls rfl rfl rfl

/-! ### Recording a counter -/

variable [Inhabited ν] {R N : Nat}

/-- The increments behind memory intrinsics have the ids of the profile. -/
theorem unnumbered_recordBody (opts : PassOptions) (m : IRModule α β ν χ) (r : Nat) (F : α) (x : β)
    (stackAddressList : ν → Bool) (sf : UInt64) (rest done : List (Item α ν)) (p : ProfileData) (s : IRState α β ν χ)
    (hp : ProfileBelow R N p) :
    Unnumbered (EmittedCall.Below R N) (m.ask opts r) s
      (recordBody opts m r F x stackAddressList sf done rest p s).2 := by
  induction rest generalizing done p s with
  | nil => exact .refl _ _ s
  | cons i rest ih =>
    have hround := recordBody_cons opts m r F x stackAddressList sf done i rest p s
    dsimp only at hround
    rw [hround]
    have hids := (added_recordInst stackAddressList sf i.toInstruction p).ids_eq
    have hcalls : ∀ call ∈ runtimeInc m stackAddressList sf i p, call.Below R N := by
      intro call hcall
      obtain ⟨inc, -, rfl⟩ := Option.map_eq_some_iff.mp (Option.mem_toList.mp hcall)
      exact inc.below_emitted (hp.of_ids hids) _ _
    have hset : Unnumbered (EmittedCall.Below R N) (m.ask opts r) s
        ((s.setBody F x (done ++ i :: ((runtimeInc m stackAddressList sf i p).map Item.emitted ++ rest))).emit
          (runtimeInc m stackAddressList sf i p)) := unnumbered_emit hcalls rfl rfl rfl
    refine (hset.trans (unnumbered_processItem _ opts m r i _)).trans ?_
    exact (unnumbered_setBody _ _ F x _ _).trans (ih _ _ _ (hp.of_ids hids))

theorem unnumbered_recordTagBlock (opts : PassOptions) (m : IRModule α β ν χ) (id : Nat) (F : α) (sf : UInt64)
    (r : Recording α β ν χ) (x : β) (hp : ProfileBelow R N r.profile) :
    Unnumbered (EmittedCall.Below R N) (m.ask opts id) r.state (recordTagBlock opts m id F sf r x).state := by
  have hheads := added_foldl_recordInst (m.llvm.stackAddressList (r.state.cfg F)) sf
    (r.state.code F x).heads r.profile
  have hbody := unnumbered_recordBody opts m id F x (m.llvm.stackAddressList (r.state.cfg F)) sf
    (r.state.code F x).body [] _ r.state (hp.of_ids hheads.ids_eq)
  exact (hbody.trans (unnumbered_processTerminator _ opts m id F x _)).trans (unnumbered_insertFirst F x trivial _ _)

theorem unnumbered_recordTagBlocks (opts : PassOptions) (m : IRModule α β ν χ) (id : Nat) (F : α) (pd : List β)
    (sf : UInt64) (r : Recording α β ν χ) (hp : ProfileBelow R N r.profile) :
    Unnumbered (EmittedCall.Below R N) (m.ask opts id) r.state (recordTagBlocks opts m id F pd sf r).state := by
  unfold recordTagBlocks
  induction pd generalizing r with
  | nil => exact .refl _ _ _
  | cons x pd ih =>
    have hids := ids_recordTagBlock opts m id F sf r x
    exact (unnumbered_recordTagBlock opts m id F sf r x hp).trans (ih _ (hp.of_ids hids))

theorem unnumbered_recordCounter (opts : PassOptions) (m : IRModule α β ν χ) (id : Nat) (F : α) (counter : Counter β)
    (r : Recording α β ν χ) (hp : ProfileBelow R N r.profile) :
    Unnumbered (EmittedCall.Below R N) (m.ask opts id) r.state (recordCounter opts m id F counter r).state := by
  cases counter with
  | postDomSet blocks => exact unnumbered_recordTagBlocks opts m id F blocks 1 r hp
  | dynamicLoop header blocks => exact unnumbered_recordTagBlocks opts m id F blocks 1 r hp
  | scaleFactorSet header pairs =>
    unfold recordCounter
    dsimp only
    induction pairs generalizing r with
    | nil => exact .refl _ _ _
    | cons e pairs ih =>
      have hids := ids_recordTagBlocks opts m id F e.1 (UInt64.ofNat e.2) r
      exact (unnumbered_recordTagBlocks opts m id F e.1 (UInt64.ofNat e.2) r hp).trans (ih _ (hp.of_ids hids))

omit [Inhabited ν] in
theorem unnumbered_insertCounterArrayInc (opts : EmissionOptions) (F : α) (x : β) {p : ProfileData}
    (hp : ProfileBelow R N p) (ask : CloneMembers α → α → CloneMembers α) (s : IRState α β ν χ) :
    Unnumbered (EmittedCall.Below R N) ask s (insertCounterArrayInc opts F x p s) := by
  unfold insertCounterArrayInc
  split
  · exact .refl _ ask s
  · exact unnumbered_insertFirst F x hp ask s

omit [Inhabited ν] in
theorem unnumbered_insertDynamicLoopInc (opts : EmissionOptions) (m : IRModule α β ν χ) (F : α) (header : β)
    {p : ProfileData} (hp : ProfileBelow R N p) (ask : CloneMembers α → α → CloneMembers α) (s : IRState α β ν χ) :
    Unnumbered (EmittedCall.Below R N) ask s (insertDynamicLoopInc opts m F header p s) := by
  have happend : ∀ (s : IRState α β ν χ) (x : β) (i : Item α ν),
      Unnumbered (EmittedCall.Below R N) ask s (s.append F x i) := fun s x i => unnumbered_code rfl rfl rfl
  unfold insertDynamicLoopInc
  dsimp only
  have hcode := Unnumbered.foldl (fun s (e : β × ProgramInst α ν) => happend s e.1 (.program e.2))
    (m.llvm.expandCodeFor (s.cfg F) header) s
  refine hcode.trans ?_
  split
  · have htrip := Unnumbered.foldl (fun s' i => happend s' (m.llvm.edgeBlock (s.cfg F) header) i)
      (m.llvm.tripCount (s.cfg F) header).items
    exact (htrip _).trans (unnumbered_insertLast F _ hp ask _)
  · exact .refl _ ask _

omit [Inhabited ν] in
/-- The increment of a counter has its id. -/
theorem unnumbered_insertInc (opts : EmissionOptions) (m : IRModule α β ν χ) (F : α) (counter : Counter β)
    {p : ProfileData} (hp : ProfileBelow R N p) (ask : CloneMembers α → α → CloneMembers α) (s : IRState α β ν χ) :
    Unnumbered (EmittedCall.Below R N) ask s (insertInc opts m F counter p s) := by
  cases counter with
  | postDomSet blocks =>
    unfold insertInc
    dsimp only
    cases blocks.head? with
    | none => exact .refl _ ask s
    | some anchor => exact unnumbered_insertCounterArrayInc opts F anchor hp ask s
  | scaleFactorSet header pairs => exact unnumbered_insertCounterArrayInc opts F _ hp ask s
  | dynamicLoop header blocks => exact unnumbered_insertDynamicLoopInc opts m F header hp ask s

end

/-! ### Numbering -/

/-- What holds of a module while it is instrumented: the calls, the records and the clones asked for name the first
`R` regions, and the ids of counters are below `N`. -/
structure CellsBelow (R N : Nat) (s : IRState α β ν χ) : Prop where
  calls : ∀ call ∈ s.emitted, call.Below R N
  records : ∀ rec ∈ s.pragmaRegionLog, ProfileBelow R N rec.profile
  clones : ∀ e ∈ s.cloneFunctionMap, e.2 < R

section

variable {R N N' r : Nat} {s s' : IRState α β ν χ}

theorem CellsBelow.mono (h : CellsBelow R N s) (hle : N ≤ N') : CellsBelow R N' s where
  calls call hcall := (h.calls call hcall).mono hle
  records rec hrec := ⟨(h.records rec hrec).1, lt_of_lt_of_le (h.records rec hrec).2 hle⟩
  clones := h.clones

theorem CellsBelow.step [DecidableEq α] {opts : PassOptions} {cloneName : α → α} (h : CellsBelow R N s) (hr : r < R)
    (hstep : Unnumbered (EmittedCall.Below R N) (CloneMembers.ask opts cloneName r) s s') : CellsBelow R N s' where
  calls := by
    intro call hcall
    rcases hstep.calls call hcall with hold | hnew
    · exact h.calls call hold
    · exact hnew
  records := by
    rw [hstep.log_eq]
    exact h.records
  clones := by
    intro e he
    rcases hstep.clones e he with hold | hnew
    · exact h.clones e hold
    · omega

/-- A step that changes members only. -/
theorem CellsBelow.withMembers (h : CellsBelow R N s) (p : PassMembers α)
    (hclones : p.cloneFunctionMap = s.cloneFunctionMap) : CellsBelow R N { s with toPassMembers := p } where
  calls := h.calls
  records := h.records
  clones := by
    show ∀ e ∈ p.cloneFunctionMap, e.2 < R
    rw [hclones]
    exact h.clones

end

/-- The id that the next counter takes. -/
def nextID (isIndirect : Bool) (p : PassMembers α) : Nat :=
  if isIndirect then p.indirectFunctionCounterOffset else p.regionCounterEventTotal

theorem profileBelow_newProfile (opts : EmissionOptions) (PR : PragmaRegion α β) (isIndirect : Bool)
    (s : IRState α β ν χ) {R N : Nat} (hr : PR.pragmaRegionID < R) (hk : nextID isIndirect s.toPassMembers < N) :
    ProfileBelow R N (newProfile opts PR isIndirect s) := by
  have hle : ∀ n : Nat, (UInt64.ofNat n).toNat ≤ n := fun n => by
    rw [UInt64.toNat_ofNat']
    exact Nat.mod_le _ _
  exact ⟨lt_of_le_of_lt (hle _) hr, lt_of_le_of_lt (hle _) hk⟩

section

variable [DecidableEq α] [DecidableEq β] [Inhabited ν] {R M : Nat} {m : IRModule α β ν χ} {s : IRState α β ν χ}

/-- One counter: its id is the next one, and the next one is the one behind it. -/
theorem cellsBelow_emitCounter (opts : EmissionOptions) (PR : PragmaRegion α β) (isIndirect : Bool)
    (counter : Counter β) (hr : PR.pragmaRegionID < R)
    (h : CellsBelow R (max M (nextID isIndirect s.toPassMembers)) s) :
    CellsBelow R (max M (nextID isIndirect (emitCounter opts m PR isIndirect s counter).toPassMembers))
        (emitCounter opts m PR isIndirect s counter) ∧
      (emitCounter opts m PR isIndirect s counter).regionCounterEventMax = s.regionCounterEventMax ∧
      (emitCounter opts m PR isIndirect s counter).maxIndirect = s.maxIndirect := by
  set k := nextID isIndirect s.toPassMembers with hk
  have hp : ProfileBelow R (max M (k + 1)) (newProfile opts PR isIndirect s) :=
    profileBelow_newProfile opts PR isIndirect s hr (by omega)
  have hrecord := unnumbered_recordCounter opts.toPassOptions m PR.pragmaRegionID PR.F counter
    { profile := newProfile opts PR isIndirect s, state := s } hp
  have hids := ids_recordCounter opts.toPassOptions m PR.pragmaRegionID PR.F counter
    { profile := newProfile opts PR isIndirect s, state := s }
  unfold emitCounter
  dsimp only
  generalize recordCounter opts.toPassOptions m PR.pragmaRegionID PR.F counter
    { profile := newProfile opts PR isIndirect s, state := s } = rec at hrecord hids ⊢
  have hpr : ProfileBelow R (max M (k + 1)) rec.profile := hp.of_ids hids
  have hinc := hrecord.trans (unnumbered_insertInc opts m PR.F counter hpr _ rec.state)
  generalize insertInc opts m PR.F counter rec.profile rec.state = s₁ at hinc ⊢
  have hbelow : CellsBelow R (max M (k + 1)) s₁ := (h.mono (by omega)).step hr hinc
  have hnumbering := hinc.numbering_eq
  simp only [PassMembers.numbering, Prod.mk.injEq] at hnumbering
  obtain ⟨-, htotal, hmax, hoffset, hindirect⟩ := hnumbering
  have hnext : nextID isIndirect
      (writeRecord (counterEvent counter) PR.F rec.profile rec.turns isIndirect s₁).toPassMembers = k + 1 := by
    rw [hk]
    cases isIndirect with
    | false => exact congrArg (· + 1) htotal
    | true => exact congrArg (· + 1) hoffset
  rw [hnext]
  refine ⟨⟨hbelow.calls, fun rec' hrec' => ?_, hbelow.clones⟩, hmax, hindirect⟩
  rcases List.mem_append.mp hrec' with hold | hnew
  · exact hbelow.records rec' hold
  · rw [List.mem_singleton.mp hnew]
    exact hpr

/-- All counters of a region or a clone. -/
theorem cellsBelow_emitCounters (opts : EmissionOptions) (PR : PragmaRegion α β) (isIndirect : Bool)
    (counters : List (Counter β)) (hr : PR.pragmaRegionID < R)
    (h : CellsBelow R (max M (nextID isIndirect s.toPassMembers)) s) :
    CellsBelow R (max M (nextID isIndirect (counters.foldl (emitCounter opts m PR isIndirect) s).toPassMembers))
        (counters.foldl (emitCounter opts m PR isIndirect) s) ∧
      (counters.foldl (emitCounter opts m PR isIndirect) s).regionCounterEventMax = s.regionCounterEventMax ∧
      (counters.foldl (emitCounter opts m PR isIndirect) s).maxIndirect = s.maxIndirect := by
  induction counters generalizing s with
  | nil => exact ⟨h, rfl, rfl⟩
  | cons c counters ih =>
    obtain ⟨hfirst, hmax, hindirect⟩ := cellsBelow_emitCounter (m := m) opts PR isIndirect c hr h
    obtain ⟨hrest, hmax', hindirect'⟩ := ih hfirst
    exact ⟨hrest, hmax'.trans hmax, hindirect'.trans hindirect⟩

/-! ### Regions and clones -/

omit [Inhabited ν] in
theorem unnumbered_insertThreadHandlers (opts : EmissionOptions) (m : IRModule α β ν χ) (F : α) (R N : Nat)
    (ask : CloneMembers α → α → CloneMembers α) (s : IRState α β ν χ) :
    Unnumbered (EmittedCall.Below R N) ask s (insertThreadHandlers opts m F s) := by
  unfold insertThreadHandlers
  split
  · exact (unnumbered_insertFirst F _ trivial ask s).trans (unnumbered_insertFirst F _ trivial ask _)
  · exact unnumbered_insertFirst F _ trivial ask s

omit [Inhabited ν] in
theorem unnumbered_insertTimerEvents (opts : EmissionOptions) (m : IRModule α β ν χ) (PR : PragmaRegion α β)
    (isIndirect : Bool) (beginBlock endBlock : Option β) (hr : PR.pragmaRegionID < R) (N : Nat)
    (ask : CloneMembers α → α → CloneMembers α) (s : IRState α β ν χ) :
    Unnumbered (EmittedCall.Below R N) ask s
      (insertTimerEvents opts m PR isIndirect beginBlock endBlock s) := by
  unfold insertTimerEvents
  split
  · have hstart : Unnumbered (EmittedCall.Below R N) ask s
        (beginBlock.elim s fun x => s.insertFirst PR.F x (.startTimingEvent PR.pragmaRegionID)) := by
      cases beginBlock with
      | none => exact .refl _ _ s
      | some x => exact unnumbered_insertFirst PR.F x hr _ s
    dsimp only
    split
    · cases endBlock with
      | none => exact hstart
      | some x => exact hstart.trans (unnumbered_insertLast PR.F x hr _ _)
    · exact hstart
  · split
    · have hreturns : Unnumbered (EmittedCall.Below R N) ask s
          (insertReturnEvents m PR.F PR.pragmaRegionID s) := by
        refine Unnumbered.foldl (fun s x => ?_) _ s
        split
        · exact unnumbered_insertLast PR.F x hr _ s
        · exact .refl _ _ s
      exact hreturns.trans (unnumbered_insertFirst PR.F _ hr _ _)
    · exact .refl _ _ s

omit [DecidableEq α] [DecidableEq β] [Inhabited ν] in
/-- The largest number of ids that a region used is remembered. -/
theorem cellsBelow_raise (isIndirect : Bool) (hmax : s.regionCounterEventMax = M)
    (h : CellsBelow R (max M (nextID isIndirect s.toPassMembers)) s) :
    let s' := if !isIndirect && s.regionCounterEventMax < s.regionCounterEventTotal then
      { s with regionCounterEventMax := s.regionCounterEventTotal } else s
    CellsBelow R (if isIndirect then max s'.regionCounterEventMax s'.indirectFunctionCounterOffset
        else s'.regionCounterEventMax) s' ∧
      M ≤ s'.regionCounterEventMax ∧ s'.maxIndirect = s.maxIndirect := by
  intro s'
  cases isIndirect with
  | true =>
    have hs' : s' = s := if_neg (by simp)
    rw [hs', hmax]
    exact ⟨h, le_refl M, rfl⟩
  | false =>
    have hnext : nextID false s.toPassMembers = s.regionCounterEventTotal := rfl
    rw [hnext] at h
    by_cases hlt : s.regionCounterEventMax < s.regionCounterEventTotal
    · have hs' : s' = { s with regionCounterEventMax := s.regionCounterEventTotal } := if_pos (by simp [hlt])
      rw [hs']
      refine ⟨(h.mono ?_).withMembers _ rfl, ?_, rfl⟩
      · show max M s.regionCounterEventTotal ≤ s.regionCounterEventTotal
        omega
      · show M ≤ s.regionCounterEventTotal
        omega
    · have hs' : s' = s := if_neg (by simpa using hlt)
      rw [hs']
      refine ⟨h.mono ?_, by omega, rfl⟩
      show max M s.regionCounterEventTotal ≤ s.regionCounterEventMax
      omega

/-- A region or a clone: the ids are below the largest number of ids, or below the next id of a clone. -/
theorem cellsBelow_instrumentPragmaRegion (opts : EmissionOptions) (isIndirect : Bool) (PR : PragmaRegion α β)
    (hr : PR.pragmaRegionID < R)
    (hnext : isIndirect = true → s.indirectFunctionCounterOffset = s.regionCounterEventMax)
    (h : CellsBelow R s.regionCounterEventMax s) :
    let s' := instrumentPragmaRegion opts m isIndirect s PR
    CellsBelow R (if isIndirect then max s'.regionCounterEventMax s'.indirectFunctionCounterOffset
        else s'.regionCounterEventMax) s' ∧
      s.regionCounterEventMax ≤ s'.regionCounterEventMax ∧ s'.maxIndirect = s.maxIndirect := by
  unfold instrumentPragmaRegion
  split
  · refine ⟨h.mono ?_, le_refl _, rfl⟩
    cases isIndirect with
    | true => exact le_max_left _ _
    | false => exact le_refl _
  · have hfront :
      Unnumbered (EmittedCall.Below R s.regionCounterEventMax) (m.ask opts.toPassOptions PR.pragmaRegionID) s
        (if !isIndirect || m.startsWithOmp PR.F then insertThreadHandlers opts m PR.F s else s) := by
      split
      · exact unnumbered_insertThreadHandlers opts m PR.F R _ _ s
      · exact .refl _ _ s
    dsimp only
    generalize (if !isIndirect || m.startsWithOmp PR.F then insertThreadHandlers opts m PR.F s else s) =
      s₁ at hfront ⊢
    have hnumbering := hfront.numbering_eq
    simp only [PassMembers.numbering, Prod.mk.injEq] at hnumbering
    obtain ⟨-, -, hmax, hoffset, hindirect⟩ := hnumbering
    have hstart : CellsBelow R (max s.regionCounterEventMax
        (nextID isIndirect { s₁.toPassMembers with regionCounterEventTotal := 0 }))
        { s₁ with regionCounterEventTotal := 0 } :=
      ((h.step hr hfront).mono (le_max_left _ _)).withMembers _ rfl
    generalize (InstrumentPragmaRegion opts.toPassOptions (s₁.analysis m PR.F) PR.bbList).getD [] = counters
    obtain ⟨hcounters, hmax', hindirect'⟩ := cellsBelow_emitCounters (m := m)
      (s := { s₁ with regionCounterEventTotal := 0 }) opts PR isIndirect counters hr hstart
    generalize counters.foldl (emitCounter opts m PR isIndirect) { s₁ with regionCounterEventTotal := 0 } = s₂
      at hcounters hmax' hindirect' ⊢
    generalize regionBeginBlock (s₁.analysis m PR.F) PR.bbList = beginBlock
    generalize regionEndBlock (s₁.analysis m PR.F) PR.bbList = endBlock
    have hsplit : Unnumbered (EmittedCall.Below R (max s.regionCounterEventMax (nextID isIndirect s₂.toPassMembers)))
        (m.ask opts.toPassOptions PR.pragmaRegionID) s₂ (splitLoopEdges m PR counters s₂) :=
          unnumbered_code rfl rfl rfl
    have htimer := hsplit.trans (unnumbered_insertTimerEvents opts m PR isIndirect beginBlock endBlock hr _ _ _)
    generalize insertTimerEvents opts m PR isIndirect beginBlock endBlock (splitLoopEdges m PR counters s₂) = s₃
      at htimer ⊢
    have hlast := hcounters.step hr htimer
    have hnumbering' := htimer.numbering_eq
    simp only [PassMembers.numbering, Prod.mk.injEq] at hnumbering'
    obtain ⟨-, htotal, hmax'', hoffset'', hindirect''⟩ := hnumbering'
    have hsame : nextID isIndirect s₂.toPassMembers = nextID isIndirect s₃.toPassMembers := by
      rw [nextID, nextID, htotal, hoffset'']
    rw [hsame] at hlast
    obtain ⟨hbelow, hle, hkept⟩ := cellsBelow_raise isIndirect ((hmax''.trans hmax').trans hmax) hlast
    exact ⟨hbelow, hle, hkept.trans ((hindirect''.trans hindirect').trans hindirect)⟩

/-- What holds between regions, and between clones. -/
structure Numbered (R : Nat) (s : IRState α β ν χ) : Prop where
  below : CellsBelow R s.regionCounterEventMax s
  indirect : s.maxIndirect ≤ s.regionCounterEventMax

theorem numbered_instrumentRegion (opts : EmissionOptions) (PR : PragmaRegion α β) (hr : PR.pragmaRegionID < R)
    (h : Numbered R s) : Numbered R (instrumentPragmaRegion opts m false s PR) := by
  obtain ⟨hbelow, hle, hindirect⟩ := cellsBelow_instrumentPragmaRegion (m := m) opts false PR hr (by simp) h.below
  have hold := h.indirect
  exact ⟨hbelow, by omega⟩

omit [DecidableEq β] [Inhabited ν] in
/-- A pending clone belongs to the region that asked for it first. -/
theorem clonePR_lt (m : IRModule α β ν χ) (key : α) (hR : 0 < R) (h : CellsBelow R M s) :
    (clonePR m key s).pragmaRegionID < R := by
  show (s.cloneFunctionMap.lookup key).getD 0 < R
  cases hlookup : s.cloneFunctionMap.lookup key with
  | none => exact hR
  | some r =>
    obtain ⟨l₁, l₂, heq, -⟩ := List.lookup_eq_some_iff.mp hlookup
    exact h.clones (key, r) (by rw [heq]; simp)

theorem numbered_instrumentClone (opts : EmissionOptions) (key : α) (hR : 0 < R) (h : Numbered R s) :
    Numbered R (instrumentClone opts m s key) := by
  have hstart : CellsBelow R s.regionCounterEventMax
      { s with indirectFunctionCounterOffset := s.regionCounterEventMax } := h.below.withMembers _ rfl
  obtain ⟨hbelow, hle, hindirect⟩ := cellsBelow_instrumentPragmaRegion (m := m)
    (s := { s with indirectFunctionCounterOffset := s.regionCounterEventMax }) opts true (clonePR m key s)
    (clonePR_lt m key hR h.below) (fun _ => rfl) hstart
  unfold instrumentClone raiseMax
  dsimp only at hbelow hle hindirect ⊢
  generalize instrumentPragmaRegion opts m true _ (clonePR m key s) = s₁ at hbelow hle hindirect ⊢
  have hold := h.indirect
  rw [if_pos rfl] at hbelow
  split
  · rename_i hlt
    have hlt : s₁.maxIndirect < s₁.indirectFunctionCounterOffset := hlt
    exact ⟨(hbelow.mono (le_refl _)).withMembers _ rfl, le_max_right _ _⟩
  · rename_i hge
    have hge : ¬ s₁.maxIndirect < s₁.indirectFunctionCounterOffset := hge
    refine ⟨(hbelow.mono ?_).withMembers _ rfl, ?_⟩
    · show max s₁.regionCounterEventMax s₁.indirectFunctionCounterOffset ≤ s₁.regionCounterEventMax
      omega
    · show s₁.maxIndirect ≤ s₁.regionCounterEventMax
      omega

/-! ### The run -/

omit [DecidableEq α] [DecidableEq β] [Inhabited ν] in
theorem numbered_initial (R : Nat) (m : IRModule α β ν χ) : Numbered R m.initial where
  below :=
    { calls := fun _ hcall => absurd hcall List.not_mem_nil
      records := fun _ hrec => absurd hrec List.not_mem_nil
      clones := fun _ he => absurd he List.not_mem_nil }
  indirect := le_refl 0

omit [DecidableEq β] [Inhabited ν] in
theorem Numbered.step {s' : IRState α β ν χ} {opts : PassOptions} {cloneName : α → α} {r : Nat} (h : Numbered R s)
    (hr : r < R)
    (hstep : Unnumbered (EmittedCall.Below R s.regionCounterEventMax) (CloneMembers.ask opts cloneName r) s s') :
    Numbered R s' := by
  have hnumbering := hstep.numbering_eq
  simp only [PassMembers.numbering, Prod.mk.injEq] at hnumbering
  obtain ⟨-, -, hmax, -, hindirect⟩ := hnumbering
  refine ⟨?_, ?_⟩
  · rw [hmax]
    exact h.below.step hr hstep
  · rw [hmax, hindirect]
    exact h.indirect

omit [Inhabited ν] in
theorem numbered_processRegionCalls (opts : PassOptions) (hids : ∀ PR ∈ m.prList, PR.pragmaRegionID < R)
    (h : Numbered R s) : Numbered R (processRegionCalls opts m s) := by
  refine List.foldlRecOn m.prList _ h fun s hs PR hPR => ?_
  exact List.foldlRecOn PR.bbList _ hs fun s hs x _ =>
    hs.step (hids PR hPR) (unnumbered_processBlock _ opts m PR.pragmaRegionID PR.F s x)

omit [Inhabited ν] in
theorem numbered_insertFirst (F : α) (x : β) {call : EmittedCall ν} (hcall : ∀ N, call.Below R N) (h : Numbered R s) :
    Numbered R (s.insertFirst F x call) where
  below :=
    { calls := by
        intro c hc
        rcases List.mem_append.mp hc with hold | hnew
        · exact h.below.calls c hold
        · rw [List.mem_singleton.mp hnew]
          exact hcall _
      records := h.below.records
      clones := h.below.clones }
  indirect := h.indirect

omit [Inhabited ν] in
theorem numbered_initMain (opts : EmissionOptions) (h : Numbered R s) : Numbered R (initMain opts m s) := by
  unfold initMain
  cases m.main with
  | none => exact h
  | some main =>
    have hcall : ∀ N, (EmittedCall.zray_runtime_init m.prList.length s.globalCounterEventTotal :
        EmittedCall ν).Below R N := fun _ => trivial
    have hinit := numbered_insertFirst main (m.llvm.entryBlock (s.cfg main)) hcall h
    dsimp only [Option.elim]
    split
    · exact numbered_insertFirst main _ (fun _ => trivial) hinit
    · exact hinit

theorem numbered_runOnModule (opts : EmissionOptions) (m : IRModule α β ν χ) (rounds : Nat)
    (hids : ∀ PR ∈ m.prList, PR.pragmaRegionID < m.prList.length) :
    Numbered m.prList.length (runOnModule opts m rounds) := by
  unfold runOnModule
  split
  · have hregions : Numbered m.prList.length (m.prList.foldl (instrumentPragmaRegion opts m false)
        (processRegionCalls opts.toPassOptions m m.initial)) :=
      List.foldlRecOn m.prList _ (numbered_processRegionCalls opts.toPassOptions hids (numbered_initial _ m))
        fun s hs PR hPR => numbered_instrumentRegion opts PR (hids PR hPR) hs
    have hpending : m.prList = [] → (m.prList.foldl (instrumentPragmaRegion opts m false)
        (processRegionCalls opts.toPassOptions m m.initial)).pendingFunctionClones = [] := by
      intro hnil
      rw [processRegionCalls, hnil]
      rfl
    dsimp only
    refine numbered_initMain opts ?_
    split
    · generalize m.prList.foldl (instrumentPragmaRegion opts m false)
        (processRegionCalls opts.toPassOptions m m.initial) = s at hregions hpending ⊢
      by_cases hnil : m.prList = []
      · -- a module without regions has no clones
        rw [Function.iterate_fixed (cloneRound_of_done opts m (hpending hnil))]
        exact hregions
      · have hpos : 0 < m.prList.length := List.length_pos_iff.mpr hnil
        clear hpending
        induction rounds generalizing s with
        | zero => exact hregions
        | succ n ih =>
          apply ih
          exact List.foldlRecOn s.pendingFunctionClones _ hregions
            fun s hs key _ => numbered_instrumentClone opts key hpos hs
    · exact hregions
  · exact numbered_initial _ m

/-- `CountArraySize`. -/
def IRState.countArraySize (s : IRState α β ν χ) : Nat :=
  if s.regionCounterEventMax < s.maxIndirect then s.maxIndirect else s.regionCounterEventMax

/-- Every call in the code names a region of the module and a cell of its row, exit calls apart, which stand for the
program's markers; and so do the records. -/
theorem cellsBelow_runOnModule (opts : EmissionOptions) (m : IRModule α β ν χ) (rounds : Nat)
    (hids : ∀ PR ∈ m.prList, PR.pragmaRegionID < m.prList.length) :
    let s := runOnModule opts m rounds
    (∀ F x call, .emitted call ∈ (s.code F x).body →
      call.Below m.prList.length s.countArraySize ∨ ∃ r, call = .endTimingEvent r) ∧
    ∀ rec ∈ s.pragmaRegionLog, ProfileBelow m.prList.length s.countArraySize rec.profile := by
  intro s
  have hnumbered := numbered_runOnModule opts m rounds hids
  have hindirect : s.maxIndirect ≤ s.regionCounterEventMax := hnumbered.indirect
  have hsize : s.countArraySize = s.regionCounterEventMax := if_neg (by omega)
  rw [hsize]
  refine ⟨fun F x call hcall => ?_, hnumbered.below.records⟩
  have hallowed := (inv_runOnModule opts m rounds).code.items F x _ hcall
  rcases hallowed with hemitted | hexit
  · exact .inl (hnumbered.below.calls call hemitted)
  · exact .inr hexit

end

end Emission

end ZRay.Pass
