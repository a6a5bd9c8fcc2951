import ZRay.Pass.CloneWorklist
import ZRay.Pass.EmittedIds

/-!
# The numbering of the instrumented module

`runOnModule` is modelled three times: for the ids of the counters, for the clones, and for the code.  The
latter two change a module, and read the calls and the counters off it as it is at the time; the first has both
fixed.  Forgetting the module, a run of either is a run of the first on the calls that it met
(`Emission.exists_moduleCode`, `Clones.exists_moduleCode`): region by region, clone by clone and counter by
counter the same ids are handed out and the same clones are asked for.  What is known of the ids therefore holds
of the records of the region log: the id of a clone's counter is in no other record (`Emission.clone_ids_distinct`).
-/

namespace ZRay.Pass

variable {α β ν χ : Type*}

/-! ### The code -/

namespace Emission

/-- The ids of a record, and its function. -/
def CounterRecord.ids (r : CounterRecord α ν χ) : UInt64 × UInt64 × UInt64 × Bool × α :=
  (r.profile.postDomSetID, r.profile.pragmaRegionID, r.profile.groupNumber, r.profile.isIndirect, r.functionName)

/-- The ids as words. -/
def recordWords (p : ProfileRecord α) : UInt64 × UInt64 × UInt64 × Bool × α :=
  (UInt64.ofNat p.postDomSetID, UInt64.ofNat p.pragmaRegionID, UInt64.ofNat p.groupNumber, p.isIndirect,
    p.functionName)

/-- The counts of the numbering. -/
def loopNumbering (l : CloneLoop α) : Nat × Nat × Nat × Nat × Nat :=
  (l.pass.globalCounterEventTotal, l.pass.regionCounterEventTotal, l.pass.regionCounterEventMax,
    l.pass.indirectFunctionCounterOffset, l.maxIndirect)

/-- Without the code, the module is where the numbering is. -/
structure NumberedAs (s : IRState α β ν χ) (l : CloneLoop α) : Prop where
  clones_eq : s.cloneMembers = l.pass.cloneMembers
  numbering_eq : s.numbering = loopNumbering l
  log_eq : s.pragmaRegionLog.map CounterRecord.ids = l.pass.pragmaRegionLog.map recordWords

section

variable {s s' : IRState α β ν χ} {l : CloneLoop α} {P : EmittedCall ν → Prop}

/-- A step that asks for functions. -/
theorem Unnumbered.exists_asked {ask : CloneMembers α → α → CloneMembers α} (h : Unnumbered P ask s s') :
    ∃ fs : List α, ∀ l, NumberedAs s l →
      NumberedAs s' { l with pass := l.pass.withClones (fs.foldl ask l.pass.cloneMembers) } := by
  obtain ⟨fs, hfs⟩ := h.asked
  refine ⟨fs, fun l hl => ⟨?_, h.numbering_eq.trans hl.numbering_eq, ?_⟩⟩
  · rw [hfs, hl.clones_eq]
    rfl
  · rw [h.log_eq]
    exact hl.log_eq

/-- A step that asks for none. -/
theorem NumberedAs.keep (hl : NumberedAs s l) (h : Unnumbered P (fun c _ => c) s s') : NumberedAs s' l where
  clones_eq := by
    obtain ⟨fs, hfs⟩ := h.asked
    rw [hfs, List.foldl_fixed]
    exact hl.clones_eq
  numbering_eq := h.numbering_eq.trans hl.numbering_eq
  log_eq := by
    rw [h.log_eq]
    exact hl.log_eq

theorem NumberedAs.counts (hl : NumberedAs s l) :
    s.globalCounterEventTotal = l.pass.globalCounterEventTotal ∧
      s.regionCounterEventTotal = l.pass.regionCounterEventTotal ∧
      s.regionCounterEventMax = l.pass.regionCounterEventMax ∧
      s.indirectFunctionCounterOffset = l.pass.indirectFunctionCounterOffset ∧ s.maxIndirect = l.maxIndirect := by
  have hnumbering := hl.numbering_eq
  simp only [PassMembers.numbering, loopNumbering, Prod.mk.injEq] at hnumbering
  exact hnumbering

/-- A region starts to count. -/
theorem NumberedAs.restart (hl : NumberedAs s l) :
    NumberedAs { s with regionCounterEventTotal := 0 }
      { l with pass := { l.pass with regionCounterEventTotal := 0 } } := by
  obtain ⟨hglobal, -, hmax, hoffset, hindirect⟩ := hl.counts
  refine ⟨hl.clones_eq, ?_, hl.log_eq⟩
  simp only [PassMembers.numbering, loopNumbering, hglobal, hmax, hoffset, hindirect]

/-- The largest number of ids of a region is kept. -/
theorem NumberedAs.raise (hl : NumberedAs s l) (isIndirect : Bool) :
    NumberedAs
      (if !isIndirect && s.regionCounterEventMax < s.regionCounterEventTotal then
        { s with regionCounterEventMax := s.regionCounterEventTotal } else s)
      { l with
        pass := if !isIndirect && l.pass.regionCounterEventMax < l.pass.regionCounterEventTotal then
          { l.pass with regionCounterEventMax := l.pass.regionCounterEventTotal } else l.pass } := by
  obtain ⟨hglobal, htotal, hmax, hoffset, hindirect⟩ := hl.counts
  rw [htotal, hmax]
  split
  · refine ⟨hl.clones_eq, ?_, hl.log_eq⟩
    simp only [PassMembers.numbering, loopNumbering, hglobal, hoffset, hindirect]
  · exact hl

end

section

variable [DecidableEq α] [DecidableEq β] [Inhabited ν]

omit [DecidableEq α] [DecidableEq β] [Inhabited ν] in
/-- The ids of a profile are words. -/
theorem profileBelow_words (R : Nat) (p : ProfileData) : ProfileBelow (R + 2 ^ 64) (2 ^ 64) p := by
  have hregion := p.pragmaRegionID.toNat_lt
  have hid := p.postDomSetID.toNat_lt
  exact ⟨by omega, hid⟩

omit [Inhabited ν] in
/-- The calls of a region. -/
theorem exists_asked_regionCalls (opts : PassOptions) (m : IRModule α β ν χ) (PR : PragmaRegion α β)
    (s : IRState α β ν χ) : ∃ fs : List α, (PR.bbList = [] → fs = []) ∧ ∀ l, NumberedAs s l →
      NumberedAs (PR.bbList.foldl (processBlock opts m PR.pragmaRegionID PR.F) s) { l with
        pass := l.pass.withClones (fs.foldl (m.ask opts PR.pragmaRegionID) l.pass.cloneMembers) } := by
  by_cases hempty : PR.bbList = []
  · rw [hempty]
    exact ⟨[], fun _ => rfl, fun l hl => hl⟩
  · obtain ⟨fs, hfs⟩ := (Unnumbered.foldl
      (fun s x => unnumbered_processBlock (fun _ => True) opts m PR.pragmaRegionID PR.F s x) PR.bbList s).exists_asked
    exact ⟨fs, fun h => absurd h hempty, hfs⟩

/-- One counter. -/
theorem exists_asked_emitCounter (opts : EmissionOptions) (m : IRModule α β ν χ) (PR : PragmaRegion α β)
    (isIndirect : Bool) (counter : Counter β) (s : IRState α β ν χ) :
    ∃ fs : List α, ∀ code : ModuleCode α (MetBlock α), code.Reads m.cloneName → (∀ f ∈ fs, f ∈ code.functions) →
      ∀ bbList l, NumberedAs s l → NumberedAs (emitCounter opts m PR isIndirect s counter) { l with
        pass := Pass.emitCounter opts.toPassOptions code ⟨PR.pragmaRegionID, PR.groupID, PR.F, bbList⟩
          isIndirect l.pass (metCounter fs) } := by
  have hp : ProfileBelow (PR.pragmaRegionID + 2 ^ 64) (2 ^ 64) (newProfile opts PR isIndirect s) :=
    profileBelow_words PR.pragmaRegionID _
  have hrecord := unnumbered_recordCounter opts.toPassOptions m PR.pragmaRegionID PR.F counter
    { profile := newProfile opts PR isIndirect s, state := s } hp
  have hids := ids_recordCounter opts.toPassOptions m PR.pragmaRegionID PR.F counter
    { profile := newProfile opts PR isIndirect s, state := s }
  unfold emitCounter
  dsimp only
  generalize recordCounter opts.toPassOptions m PR.pragmaRegionID PR.F counter
    { profile := newProfile opts PR isIndirect s, state := s } = rec at hrecord hids ⊢
  obtain ⟨fs, hfs⟩ := (hrecord.trans
    (unnumbered_insertInc opts m PR.F counter (profileBelow_words PR.pragmaRegionID rec.profile)
      _ rec.state)).exists_asked
  generalize insertInc opts m PR.F counter rec.profile rec.state = s₁ at hfs ⊢
  refine ⟨fs, fun code hcode hmem bbList l hl => ?_⟩
  have hasked := hfs l hl
  obtain ⟨hglobal, htotal, hmax, hoffset, hindirect⟩ := hasked.counts
  obtain ⟨-, htotal₀, -, hoffset₀, -⟩ := hl.counts
  simp only [ProfileData.ids, Prod.mk.injEq] at hids
  obtain ⟨hid, hregion, hgroup, hindirectID, -⟩ := hids
  rw [hcode.emitCounter_eq hmem]
  refine ⟨hasked.clones_eq, ?_, ?_⟩
  · simp only [PassMembers.numbering, loopNumbering, writeRecord, ModuleState.withClones, hglobal,
      htotal, hmax, hoffset, hindirect]
  · simp only [writeRecord, List.map_append, List.map_cons, List.map_nil]
    rw [hasked.log_eq]
    simp only [ModuleState.withClones, CounterRecord.ids, recordWords, hid, hregion, hgroup, hindirectID, newProfile,
      Pass.newProfile, clearedProfile, htotal₀, hoffset₀]

/-- A region or a clone. -/
theorem exists_asked_instrumentPragmaRegion (opts : EmissionOptions) (m : IRModule α β ν χ) (isIndirect : Bool)
    (PR : PragmaRegion α β) (s : IRState α β ν χ) :
    ∃ css : List (List α), (PR.bbList = [] → css = []) ∧ ∀ code : ModuleCode α (MetBlock α), code.Reads m.cloneName →
      (∀ f ∈ css.flatten, f ∈ code.functions) → ∀ fs l, NumberedAs s l →
        NumberedAs (instrumentPragmaRegion opts m isIndirect s PR) { l with
          pass := numberPragmaRegion opts.toPassOptions code (metRegion PR ⟨fs, css⟩) isIndirect l.pass } := by
  by_cases hempty : PR.bbList = []
  · refine ⟨[], fun _ => rfl, fun code _ _ fs l hl => ?_⟩
    rw [instrumentPragmaRegion, if_pos (by simp [hempty]), numberPragmaRegion, if_pos (by simp [metRegion, hempty])]
    exact hl
  · have hblocks : ∀ met : MetBlock α, (metRegion PR met).bbList = [met] := fun met => if_neg (by simpa using hempty)
    have hfront : Unnumbered (EmittedCall.Below (PR.pragmaRegionID + 1) 0) (fun c _ => c) s
        (if !isIndirect || m.startsWithOmp PR.F then insertThreadHandlers opts m PR.F s else s) := by
      split
      · exact unnumbered_insertThreadHandlers opts m PR.F _ 0 _ s
      · exact .refl _ _ s
    rw [instrumentPragmaRegion, if_neg (by simpa using hempty)]
    dsimp only
    generalize (if !isIndirect || m.startsWithOmp PR.F then insertThreadHandlers opts m PR.F s else s) =
      s₁ at hfront ⊢
    generalize (InstrumentPragmaRegion opts.toPassOptions (s₁.analysis m PR.F) PR.bbList).getD [] = counters
    obtain ⟨css, hcounters⟩ := exists_met_counters
      (fun s c => exists_asked_emitCounter opts m PR isIndirect c s) counters { s₁ with regionCounterEventTotal := 0 }
    generalize counters.foldl (emitCounter opts m PR isIndirect) { s₁ with regionCounterEventTotal := 0 } = s₂
      at hcounters ⊢
    refine ⟨css, fun h => absurd h hempty, fun code hcode hmem fs l hl => ?_⟩
    have hcounted := hcounters code hcode hmem [⟨fs, css⟩] _ (hl.keep hfront).restart
    generalize regionBeginBlock (s₁.analysis m PR.F) PR.bbList = beginBlock
    generalize regionEndBlock (s₁.analysis m PR.F) PR.bbList = endBlock
    have hsplit : Unnumbered (EmittedCall.Below (PR.pragmaRegionID + 1) 0) (fun c _ => c) s₂
        (splitLoopEdges m PR counters s₂) := unnumbered_code rfl rfl rfl
    have htimer := hsplit.trans
      (unnumbered_insertTimerEvents opts m PR isIndirect beginBlock endBlock (Nat.lt_succ_self _) 0 _ _)
    generalize insertTimerEvents opts m PR isIndirect beginBlock endBlock (splitLoopEdges m PR counters s₂) = s₃
      at htimer ⊢
    have hraised := (hcounted.keep htimer).raise isIndirect
    rw [hcode.numberPragmaRegion_eq (metRegion PR ⟨fs, css⟩) (hblocks _)]
    have hregion : metRegion PR ⟨fs, css⟩ = ⟨PR.pragmaRegionID, PR.groupID, PR.F, [⟨fs, css⟩]⟩ := by
      rw [← hblocks ⟨fs, css⟩]
      rfl
    rw [hregion]
    exact hraised

omit [DecidableEq α] [DecidableEq β] [Inhabited ν] in
/-- A clone starts to count where the regions end. -/
theorem NumberedAs.startClone {s : IRState α β ν χ} {l : CloneLoop α} (hl : NumberedAs s l) :
    NumberedAs { s with indirectFunctionCounterOffset := s.regionCounterEventMax }
      { l with pass := { l.pass with indirectFunctionCounterOffset := l.pass.regionCounterEventMax } } := by
  obtain ⟨hglobal, htotal, hmax, -, hindirect⟩ := hl.counts
  refine ⟨hl.clones_eq, ?_, hl.log_eq⟩
  simp only [PassMembers.numbering, loopNumbering, hglobal, htotal, hmax, hindirect]

omit [DecidableEq β] [Inhabited ν] in
/-- A clone is done. -/
theorem NumberedAs.finishClone {s : IRState α β ν χ} {l : CloneLoop α} (hl : NumberedAs s l) (key : α) :
    NumberedAs (raiseMax { s with pendingFunctionClones := s.pendingFunctionClones.erase key })
      (let a := { l.pass with pendingFunctionClones := l.pass.pendingFunctionClones.erase key }
      if l.maxIndirect < a.indirectFunctionCounterOffset then
        { pass := if a.regionCounterEventMax < a.indirectFunctionCounterOffset then
            { a with regionCounterEventMax := a.indirectFunctionCounterOffset } else a
          maxIndirect := a.indirectFunctionCounterOffset }
      else { l with pass := a }) := by
  obtain ⟨hglobal, htotal, hmax, hoffset, hindirect⟩ := hl.counts
  have hclones := hl.clones_eq
  simp only [PassMembers.cloneMembers, ModuleState.cloneMembers, CloneMembers.mk.injEq] at hclones
  obtain ⟨hmap, hnames, hpending⟩ := hclones
  have herased : s.pendingFunctionClones.erase key = l.pass.pendingFunctionClones.erase key := by rw [hpending]
  unfold raiseMax
  dsimp only
  rw [hindirect, hoffset, hmax]
  by_cases hlt : l.maxIndirect < l.pass.indirectFunctionCounterOffset
  · rw [if_pos hlt, if_pos hlt]
    by_cases hraise : l.pass.regionCounterEventMax < l.pass.indirectFunctionCounterOffset
    · rw [if_pos hraise]
      refine ⟨?_, ?_, hl.log_eq⟩
      · simp only [PassMembers.cloneMembers, ModuleState.cloneMembers, hmap, hnames, herased]
      · simp only [PassMembers.numbering, loopNumbering, hglobal, htotal, max_eq_right hraise.le]
    · rw [if_neg hraise]
      refine ⟨?_, ?_, hl.log_eq⟩
      · simp only [PassMembers.cloneMembers, ModuleState.cloneMembers, hmap, hnames, herased]
      · simp only [PassMembers.numbering, loopNumbering, hglobal, htotal, max_eq_left (Nat.not_lt.mp hraise)]
  · rw [if_neg hlt, if_neg hlt]
    refine ⟨?_, ?_, hl.log_eq⟩
    · simp only [PassMembers.cloneMembers, ModuleState.cloneMembers, hmap, hnames, herased]
    · simp only [PassMembers.numbering, loopNumbering, hglobal, htotal]

/-- A pending clone. -/
theorem exists_asked_instrumentClone (opts : EmissionOptions) (m : IRModule α β ν χ) (key : α) (s : IRState α β ν χ) :
    ∃ bs : List (MetBlock α), ∀ code : ModuleCode α (MetBlock α), code.Reads m.cloneName →
      (∀ b ∈ bs, ∀ f ∈ b.names, f ∈ code.functions) → code.cloneBlocks key = bs → ∀ l, NumberedAs s l →
        NumberedAs (instrumentClone opts m s key) (Pass.instrumentClone opts.toPassOptions code l key) := by
  obtain ⟨css, hnil, hregion⟩ := exists_asked_instrumentPragmaRegion opts m true (clonePR m key s)
    { s with indirectFunctionCounterOffset := s.regionCounterEventMax }
  refine ⟨(metRegion (clonePR m key s) ⟨[], css⟩).bbList, fun code hcode hmem hblocks l hl => ?_⟩
  have hPR : Pass.clonePR code key { l.pass with indirectFunctionCounterOffset := l.pass.regionCounterEventMax } =
      metRegion (clonePR m key s) ⟨[], css⟩ := by
    have hmap : s.cloneFunctionMap = l.pass.cloneFunctionMap := congrArg CloneMembers.cloneFunctionMap hl.clones_eq
    simp only [Pass.clonePR, hblocks, hcode.cloneName_eq, ← hmap]
    rfl
  have hcounted := hregion code hcode (mem_of_names_metRegion hnil hmem) [] _ hl.startClone
  unfold instrumentClone Pass.instrumentClone
  dsimp only at hcounted ⊢
  rw [hPR]
  exact hcounted.finishClone key

/-- The steps of `runOnModule`. -/
def numberingPass (opts : EmissionOptions) (m : IRModule α β ν χ) : NumberingPass α β (IRState α β ν χ) where
  regionCalls s PR := PR.bbList.foldl (processBlock opts.toPassOptions m PR.pragmaRegionID PR.F) s
  region := instrumentPragmaRegion opts m false
  pending s := s.pendingFunctionClones
  clone := instrumentClone opts m

theorem numberedBy (opts : EmissionOptions) (m : IRModule α β ν χ) :
    (numberingPass opts m).NumberedBy opts.toPassOptions m.cloneName NumberedAs where
  pending_eq hl := congrArg CloneMembers.pendingFunctionClones hl.clones_eq
  regionCalls s PR := exists_asked_regionCalls opts.toPassOptions m PR s
  region := by
    intro s PR
    obtain ⟨css, -, hcss⟩ := exists_asked_instrumentPragmaRegion opts m false PR s
    exact ⟨css, hcss⟩
  clone s key := exists_asked_instrumentClone opts m key s

omit [Inhabited ν] in
theorem NumberedAs.initMain (opts : EmissionOptions) (m : IRModule α β ν χ) {s : IRState α β ν χ} {l : CloneLoop α}
    (hl : NumberedAs s l) : NumberedAs (initMain opts m s) l := by
  have hinsert :
    ∀ (s : IRState α β ν χ) F x call, Unnumbered (fun _ => True) (fun c _ => c) s (s.insertFirst F x call) :=
    fun s F x call => unnumbered_insertFirst F x trivial _ s
  unfold Emission.initMain
  cases m.main with
  | none => exact hl
  | some main =>
    dsimp only [Option.elim]
    split
    · exact hl.keep ((hinsert _ _ _ _).trans (hinsert _ _ _ _))
    · exact hl.keep (hinsert _ _ _ _)

/-- When no clone is left, the regions, the records and the width of the rows are those of a run of the numbering. -/
theorem exists_moduleCode (opts : EmissionOptions) (m : IRModule α β ν χ) (hmodified : m.modified = true)
    (hids : m.prList.map PragmaRegion.pragmaRegionID = List.range m.prList.length) {rounds : Nat}
    (hdone : (runOnModule opts m rounds).pendingFunctionClones = []) :
    ∃ code : ModuleCode α (MetBlock α), code.cloneName = m.cloneName ∧
      code.prList.map (fun PR => (PR.pragmaRegionID, PR.groupID, PR.F)) =
        m.prList.map (fun PR => (PR.pragmaRegionID, PR.groupID, PR.F)) ∧
      ∃ r, Pass.runOnModule opts.toPassOptions code = some r ∧
        (runOnModule opts m rounds).pragmaRegionLog.map CounterRecord.ids = r.log.map recordWords ∧
        r.roiCount = m.prList.length ∧ r.countArraySize = (runOnModule opts m rounds).countArraySize := by
  have hstart : NumberedAs m.initial ⟨{}, 0⟩ := ⟨rfl, rfl, rfl⟩
  unfold runOnModule at hdone ⊢
  rw [if_pos hmodified] at hdone ⊢
  dsimp only at hdone ⊢
  rw [pendingFunctionClones_initMain] at hdone
  generalize hs : (if opts.applyFunctionCloning then (cloneRound opts m)^[rounds] (m.prList.foldl
    (instrumentPragmaRegion opts m false) (processRegionCalls opts.toPassOptions m m.initial)) else m.prList.foldl
      (instrumentPragmaRegion opts m false) (processRegionCalls opts.toPassOptions m m.initial)) = s at hdone ⊢
  have hrun : (numberingPass opts m).run opts.toPassOptions m.prList rounds m.initial = some s := by
    unfold NumberingPass.run
    by_cases hopt : opts.applyFunctionCloning = true
    · rw [if_pos hopt] at hs ⊢
      subst hs
      exact Worklist.drain_of_iterate hdone
    · rw [if_neg hopt] at hs ⊢
      exact congrArg some hs
  obtain ⟨code, hname, hheader, l, hl, hresult⟩ := (numberedBy opts m).exists_moduleCode hids hstart hrun
  have hend := hl.initMain opts m
  refine ⟨code, hname, hheader, _, hresult, hend.log_eq, rfl, ?_⟩
  obtain ⟨-, -, hmax, -, hindirect⟩ := hend.counts
  unfold IRState.countArraySize
  rw [hmax, hindirect]

/-- The id of a clone's counter is in no other record of the region log. -/
theorem clone_ids_distinct (opts : EmissionOptions) (m : IRModule α β ν χ) (hmodified : m.modified = true)
    (hids : m.prList.map PragmaRegion.pragmaRegionID = List.range m.prList.length) {rounds : Nat}
    (hdone : (runOnModule opts m rounds).pendingFunctionClones = [])
    (hwords : (runOnModule opts m rounds).countArraySize ≤ 2 ^ 64) :
    (runOnModule opts m rounds).pragmaRegionLog.Pairwise fun p q =>
      p.profile.isIndirect = true ∨ q.profile.isIndirect = true → p.profile.postDomSetID ≠
        q.profile.postDomSetID := by
  obtain ⟨code, -, -, r, hrun, hlog, -, hsize⟩ := exists_moduleCode opts m hmodified hids hdone
  obtain ⟨s, hrun', hbelow⟩ := exists_runOnModule opts.toPassOptions code
  obtain rfl : r = _ := Option.some.inj (hrun.symm.trans hrun')
  dsimp only at hlog hsize
  rw [← hsize] at hwords
  have hpairs : (s.pragmaRegionLog.map recordWords).Pairwise fun p q =>
      p.2.2.2.1 = true ∨ q.2.2.2.1 = true → p.1 ≠ q.1 := by
    refine List.pairwise_map.mpr ((List.Pairwise.and_mem.mp hbelow.distinct).imp ?_)
    rintro p q ⟨hp, hq, hne⟩ hindirect heq
    have hplt := hbelow.lt_max p hp
    have hqlt := hbelow.lt_max q hq
    have hnat := congrArg UInt64.toNat heq
    simp only [recordWords, UInt64.toNat_ofNat'] at hnat
    rw [Nat.mod_eq_of_lt (by omega), Nat.mod_eq_of_lt (by omega)] at hnat
    refine hne ?_ hnat
    rcases hindirect with hp' | hq'
    · exact .inl hp'
    · exact .inr (.inl hq')
  rw [← hlog] at hpairs
  exact List.pairwise_map.mp hpairs

end

end Emission

/-! ### The clones -/

namespace Clones

/-- The members that keep track of clones. -/
def IRState.cloneMembers (s : IRState α) : CloneMembers α :=
  ⟨s.cloneFunctionMap, s.clonedFunctionNames, s.pendingFunctionClones⟩

/-- Without the code, the module is where the numbering is; of a record it has the region and `IsIndirect`. -/
structure NumberedAs (s : IRState α) (l : Pass.CloneLoop α) : Prop where
  clones_eq : s.cloneMembers = l.pass.cloneMembers
  total_eq : s.globalCounterEventTotal = l.pass.globalCounterEventTotal
  log_eq : s.pragmaRegionLog = l.pass.pragmaRegionLog.map fun p => (p.pragmaRegionID, p.isIndirect)

/-- A step that writes no record. -/
structure Asks (ask : CloneMembers α → α → CloneMembers α) (s s' : IRState α) : Prop where
  asked : ∃ fs : List α, s'.cloneMembers = fs.foldl ask s.cloneMembers
  total_eq : s'.globalCounterEventTotal = s.globalCounterEventTotal
  log_eq : s'.pragmaRegionLog = s.pragmaRegionLog

section

variable {ask : CloneMembers α → α → CloneMembers α} {s s' s'' : IRState α}

theorem Asks.refl (ask : CloneMembers α → α → CloneMembers α) (s : IRState α) : Asks ask s s := ⟨⟨[], rfl⟩, rfl, rfl⟩

theorem Asks.trans (h : Asks ask s s') (h' : Asks ask s' s'') : Asks ask s s'' where
  asked := by
    obtain ⟨fs, hfs⟩ := h.asked
    obtain ⟨fs', hfs'⟩ := h'.asked
    exact ⟨fs ++ fs', by rw [hfs', hfs, List.foldl_append]⟩
  total_eq := h'.total_eq.trans h.total_eq
  log_eq := h'.log_eq.trans h.log_eq

theorem Asks.foldl {ι : Type*} {step : IRState α → ι → IRState α} (hstep : ∀ s i, Asks ask s (step s i)) (l : List ι)
    (s : IRState α) : Asks ask s (l.foldl step s) := by
  induction l generalizing s with
  | nil => exact .refl ask s
  | cons i l ih => exact (hstep s i).trans (ih (step s i))

theorem Asks.exists_asked (h : Asks ask s s') : ∃ fs : List α, ∀ l, NumberedAs s l →
    NumberedAs s' { l with pass := l.pass.withClones (fs.foldl ask l.pass.cloneMembers) } := by
  obtain ⟨fs, hfs⟩ := h.asked
  refine ⟨fs, fun l hl => ⟨?_, h.total_eq.trans hl.total_eq, h.log_eq.trans hl.log_eq⟩⟩
  rw [hfs, hl.clones_eq]
  rfl

end

section

variable [DecidableEq α] {opts : PassOptions} {m : IRModule α}

theorem asks_processFunctionClone (hopt : opts.applyFunctionCloning = true) (f : α) (r : Nat) (s : IRState α) :
    Asks (CloneMembers.ask opts m.cloneName r) s (processFunctionClone m f r s).2 := by
  have hask := CloneMembers.ask_of_cloning hopt m.cloneName r s.cloneMembers f
  change _ = if f ∈ s.cloned then _ else if f ∈ s.clonedFunctionNames then _ else _ at hask
  unfold processFunctionClone
  split
  · exact .refl _ s
  · rename_i hkey
    rw [if_neg hkey] at hask
    split
    · exact .refl _ s
    · rename_i hname
      rw [if_neg hname] at hask
      obtain ⟨hmembers, htotal, hlog⟩ :
          (stripTimingEvents (m.cloneName f) (cloneFunction f (m.cloneName f) s)).cloneMembers = s.cloneMembers ∧
          (stripTimingEvents (m.cloneName f) (cloneFunction f (m.cloneName f) s)).globalCounterEventTotal =
            s.globalCounterEventTotal ∧
          (stripTimingEvents (m.cloneName f) (cloneFunction f (m.cloneName f) s)).pragmaRegionLog =
            s.pragmaRegionLog := by
        unfold stripTimingEvents
        split <;> exact ⟨rfl, rfl, rfl⟩
      refine ⟨⟨[f], ?_⟩, htotal, hlog⟩
      rw [List.foldl_cons, List.foldl_nil, hask, ← hmembers]
      rfl

variable (opts m)

theorem asks_processCallInst (r : Nat) (c : CallInst α) (s : IRState α) :
    Asks (CloneMembers.ask opts m.cloneName r) s (processCallInst opts m r c s).2 := by
  unfold processCallInst
  cases c.calledFunction with
  | none => exact .refl _ s
  | some f =>
    dsimp only
    split
    · exact .refl _ s
    · split
      · split
        · rename_i hfork
          repeat' split
          all_goals first
            | exact .refl _ s
            | exact asks_processFunctionClone hfork.1 _ r s
        · exact .refl _ s
      · split
        · exact .refl _ s
        · split
          · rename_i hopt
            exact asks_processFunctionClone hopt _ r s
          · exact .refl _ s

theorem asks_processBlock (r : Nat) (s : IRState α) (x : α × Nat) :
    Asks (CloneMembers.ask opts m.cloneName r) s (processBlock opts m r s x) := by
  refine Asks.foldl (fun s i => ?_) _ s
  unfold processInst
  split
  · exact .refl _ s
  · rename_i c hc
    have hcall := asks_processCallInst opts m r c s
    exact ⟨hcall.asked, hcall.total_eq, hcall.log_eq⟩

/-- The calls of a region. -/
theorem exists_asked_regionCalls (PR : PragmaRegion α (α × Nat)) (s : IRState α) :
    ∃ fs : List α, (PR.bbList = [] → fs = []) ∧ ∀ l, NumberedAs s l →
      NumberedAs (PR.bbList.foldl (processBlock opts m PR.pragmaRegionID) s) { l with
        pass := l.pass.withClones
          (fs.foldl (CloneMembers.ask opts m.cloneName PR.pragmaRegionID) l.pass.cloneMembers) } := by
  by_cases hempty : PR.bbList = []
  · rw [hempty]
    exact ⟨[], fun _ => rfl, fun l hl => hl⟩
  · have hcalls := Asks.foldl (fun s x => asks_processBlock opts m PR.pragmaRegionID s x) PR.bbList s
    obtain ⟨fs, hfs⟩ := hcalls.exists_asked
    exact ⟨fs, fun h => absurd h hempty, hfs⟩

/-- One counter. -/
theorem exists_asked_emitCounter (PR : PragmaRegion α (α × Nat)) (isIndirect : Bool) (counter : Counter (α × Nat))
    (s : IRState α) :
    ∃ fs : List α, ∀ code : ModuleCode α (MetBlock α), code.Reads m.cloneName → (∀ f ∈ fs, f ∈ code.functions) →
      ∀ bbList l, NumberedAs s l → NumberedAs (emitCounter opts m PR isIndirect s counter) { l with
        pass := Pass.emitCounter opts code ⟨PR.pragmaRegionID, PR.groupID, PR.F, bbList⟩ isIndirect l.pass
          (metCounter fs) } := by
  have hrecord : Asks (CloneMembers.ask opts m.cloneName PR.pragmaRegionID) s
      (counter.blocks.foldl (recordTagBlock opts m PR.pragmaRegionID) s) := by
    refine Asks.foldl (fun s x => ?_) _ s
    have hblock := asks_processBlock opts m PR.pragmaRegionID s x
    exact ⟨hblock.asked, hblock.total_eq, hblock.log_eq⟩
  obtain ⟨fs, hfs⟩ := hrecord.exists_asked
  refine ⟨fs, fun code hcode hmem bbList l hl => ?_⟩
  have hasked := hfs l hl
  rw [hcode.emitCounter_eq hmem]
  refine ⟨hasked.clones_eq, congrArg (· + 1) hasked.total_eq, ?_⟩
  simp only [emitCounter, List.map_append, List.map_cons, List.map_nil]
  rw [hasked.log_eq]
  rfl

theorem NumberedAs.insertTimerEvents {s : IRState α} {l : Pass.CloneLoop α} (hl : NumberedAs s l)
    (PR : PragmaRegion α (α × Nat)) (isIndirect : Bool) : NumberedAs (insertTimerEvents m PR isIndirect s) l := by
  unfold Clones.insertTimerEvents
  split
  · split
    · exact hl
    · exact ⟨hl.clones_eq, hl.total_eq, hl.log_eq⟩
  · split
    · exact ⟨hl.clones_eq, hl.total_eq, hl.log_eq⟩
    · exact hl

/-- A region or a clone. -/
theorem exists_asked_instrumentPragmaRegion (isIndirect : Bool) (PR : PragmaRegion α (α × Nat)) (s : IRState α) :
    ∃ css : List (List α), (PR.bbList = [] → css = []) ∧ ∀ code : ModuleCode α (MetBlock α), code.Reads m.cloneName →
      (∀ f ∈ css.flatten, f ∈ code.functions) → ∀ fs l, NumberedAs s l →
        NumberedAs (instrumentPragmaRegion opts m isIndirect s PR) { l with
          pass := numberPragmaRegion opts code (metRegion PR ⟨fs, css⟩) isIndirect l.pass } := by
  by_cases hempty : PR.bbList = []
  · refine ⟨[], fun _ => rfl, fun code _ _ fs l hl => ?_⟩
    rw [instrumentPragmaRegion, if_pos (by simp [hempty]), numberPragmaRegion, if_pos (by simp [metRegion, hempty])]
    exact hl
  · have hregion : ∀ met : MetBlock α, metRegion PR met = ⟨PR.pragmaRegionID, PR.groupID, PR.F, [met]⟩ := by
      intro met
      rw [metRegion, if_neg (by simpa using hempty)]
    obtain ⟨css, hcounters⟩ := exists_met_counters
      (fun s c => exists_asked_emitCounter opts m PR isIndirect c s) (m.counters opts isIndirect PR) s
    refine ⟨css, fun h => absurd h hempty, fun code hcode hmem fs l hl => ?_⟩
    rw [instrumentPragmaRegion, if_neg (by simpa using hempty), hregion, hcode.numberPragmaRegion_eq _ rfl]
    have hcounted := hcounters code hcode hmem [⟨fs, css⟩]
      { l with pass := { l.pass with regionCounterEventTotal := 0 } } ⟨hl.clones_eq, hl.total_eq, hl.log_eq⟩
    have htimed := hcounted.insertTimerEvents m PR isIndirect
    dsimp only
    split
    · exact ⟨htimed.clones_eq, htimed.total_eq, htimed.log_eq⟩
    · exact htimed

/-- A pending clone. -/
theorem exists_asked_instrumentClone (key : α) (s : IRState α) :
    ∃ bs : List (MetBlock α), ∀ code : ModuleCode α (MetBlock α), code.Reads m.cloneName →
      (∀ b ∈ bs, ∀ f ∈ b.names, f ∈ code.functions) → code.cloneBlocks key = bs → ∀ l, NumberedAs s l →
        NumberedAs (instrumentClone opts m s key) (Pass.instrumentClone opts code l key) := by
  obtain ⟨css, hnil, hregion⟩ := exists_asked_instrumentPragmaRegion opts m true (clonePR m key s)
    { s with prList := s.prList ++ [clonePR m key s] }
  refine ⟨(metRegion (clonePR m key s) ⟨[], css⟩).bbList, fun code hcode hmem hblocks l hl => ?_⟩
  have hPR : Pass.clonePR code key { l.pass with indirectFunctionCounterOffset := l.pass.regionCounterEventMax } =
      metRegion (clonePR m key s) ⟨[], css⟩ := by
    have hmap : s.cloneFunctionMap = l.pass.cloneFunctionMap := congrArg CloneMembers.cloneFunctionMap hl.clones_eq
    simp only [Pass.clonePR, hblocks, hcode.cloneName_eq, ← hmap]
    rfl
  have hcounted := hregion code hcode (mem_of_names_metRegion hnil hmem) []
    { l with pass := { l.pass with indirectFunctionCounterOffset := l.pass.regionCounterEventMax } }
    ⟨hl.clones_eq, hl.total_eq, hl.log_eq⟩
  unfold instrumentClone Pass.instrumentClone
  dsimp only at hcounted ⊢
  rw [hPR]
  generalize instrumentPragmaRegion opts m true _ (clonePR m key s) = s₁ at hcounted ⊢
  generalize numberPragmaRegion opts code _ true _ = a at hcounted ⊢
  have herased : IRState.cloneMembers { s₁ with pendingFunctionClones := s₁.pendingFunctionClones.erase key } =
      ⟨a.cloneFunctionMap, a.clonedFunctionNames, a.pendingFunctionClones.erase key⟩ := by
    have hclones := hcounted.clones_eq
    simp only [IRState.cloneMembers, ModuleState.cloneMembers, CloneMembers.mk.injEq] at hclones ⊢
    exact ⟨hclones.1, hclones.2.1, by rw [hclones.2.2]⟩
  -- the counts are not kept here
  split
  · split
    · exact ⟨herased, hcounted.total_eq, hcounted.log_eq⟩
    · exact ⟨herased, hcounted.total_eq, hcounted.log_eq⟩
  · exact ⟨herased, hcounted.total_eq, hcounted.log_eq⟩

/-- The steps of `runOnModule`. -/
def numberingPass (opts : PassOptions) (m : IRModule α) : NumberingPass α (α × Nat) (IRState α) where
  regionCalls s PR := PR.bbList.foldl (processBlock opts m PR.pragmaRegionID) s
  region := instrumentPragmaRegion opts m false
  pending := IRState.pendingFunctionClones
  clone := instrumentClone opts m

theorem numberedBy (opts : PassOptions) (m : IRModule α) :
    (numberingPass opts m).NumberedBy opts m.cloneName NumberedAs where
  pending_eq hl := congrArg CloneMembers.pendingFunctionClones hl.clones_eq
  regionCalls s PR := exists_asked_regionCalls opts m PR s
  region := by
    intro s PR
    obtain ⟨css, -, hcss⟩ := exists_asked_instrumentPragmaRegion opts m false PR s
    exact ⟨css, hcss⟩
  clone s key := exists_asked_instrumentClone opts m key s

/-- The clones made, the records and their regions are those of a run of the numbering. -/
theorem exists_moduleCode (opts : PassOptions) (m : IRModule α) {fuel : Nat} {s : IRState α}
    (hrun : runOnModule opts m fuel = some s) :
    ∃ code : ModuleCode α (MetBlock α), code.cloneName = m.cloneName ∧
      code.prList.map (fun PR => (PR.pragmaRegionID, PR.groupID, PR.F)) =
        m.prList.map (fun PR => (PR.pragmaRegionID, PR.groupID, PR.F)) ∧
      ∃ r, Pass.runOnModule opts code = some r ∧
        s.pragmaRegionLog = r.log.map (fun p => (p.pragmaRegionID, p.isIndirect)) ∧ r.roiCount = m.prList.length := by
  obtain ⟨code, hname, hheader, l, hl, hresult⟩ :=
    (numberedBy opts m).exists_moduleCode m.prList_id (s := m.initial) ⟨rfl, rfl, rfl⟩ hrun
  exact ⟨code, hname, hheader, _, hresult, hl.log_eq, rfl⟩

end

end Clones

end ZRay.Pass
