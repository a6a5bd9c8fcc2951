import ZRay.Pass.CounterIds

/-!
# The numbering of a pass

The numbering knows the code only by the functions that are called: those that the blocks of a region name before
anything is instrumented, and, counter by counter, those that the recorded blocks name (`MetBlock`).  So a pass that
changes code numbers like `runOnModule`, when each of its steps does for some such calls (`NumberedBy`): it ends as
`runOnModule` does on a module made of the calls that it met (`NumberedBy.exists_moduleCode`).
-/

namespace ZRay.Pass

variable {α β γ σ : Type*}

/-! ### Asking for clones -/

/-- The members that keep track of clones. -/
structure CloneMembers (α : Type*) where
  cloneFunctionMap : List (α × Nat)
  clonedFunctionNames : List α
  pendingFunctionClones : List α

def ModuleState.cloneMembers (s : ModuleState α) : CloneMembers α :=
  ⟨s.cloneFunctionMap, s.clonedFunctionNames, s.pendingFunctionClones⟩

def ModuleState.withClones (s : ModuleState α) (c : CloneMembers α) : ModuleState α :=
  { s with
    cloneFunctionMap := c.cloneFunctionMap
    clonedFunctionNames := c.clonedFunctionNames
    pendingFunctionClones := c.pendingFunctionClones }

section

variable [DecidableEq α]

/-- A call of `f` is processed for the region `r`. -/
def CloneMembers.ask (opts : PassOptions) (cloneName : α → α) (r : Nat) (c : CloneMembers α) (f : α) :
    CloneMembers α :=
  if opts.applyFunctionCloning ∧ f ∉ c.cloneFunctionMap.map Prod.fst ∧ f ∉ c.clonedFunctionNames then
    { cloneFunctionMap := c.cloneFunctionMap ++ [(f, r)]
      clonedFunctionNames := c.clonedFunctionNames ++ [cloneName f]
      pendingFunctionClones := c.pendingFunctionClones ++ [f] }
  else c

theorem CloneMembers.ask_of_cloning {opts : PassOptions} (hopt : opts.applyFunctionCloning = true)
    (cloneName : α → α) (r : Nat) (c : CloneMembers α) (f : α) :
    c.ask opts cloneName r f =
      if f ∈ c.cloneFunctionMap.map Prod.fst then c
      else if f ∈ c.clonedFunctionNames then c
      else
        { cloneFunctionMap := c.cloneFunctionMap ++ [(f, r)]
          clonedFunctionNames := c.clonedFunctionNames ++ [cloneName f]
          pendingFunctionClones := c.pendingFunctionClones ++ [f] } := by
  unfold ask
  by_cases hkey : f ∈ c.cloneFunctionMap.map Prod.fst
  · rw [if_neg (fun h => h.2.1 hkey), if_pos hkey]
  · rw [if_neg hkey]
    by_cases hname : f ∈ c.clonedFunctionNames
    · rw [if_neg (fun h => h.2.2 hname), if_pos hname]
    · rw [if_pos ⟨hopt, hkey, hname⟩, if_neg hname]

theorem CloneMembers.mem_foldl_ask {opts : PassOptions} {cloneName : α → α} {r : Nat} (fs : List α)
    (c : CloneMembers α) :
    ∀ e ∈ (fs.foldl (CloneMembers.ask opts cloneName r) c).cloneFunctionMap, e ∈ c.cloneFunctionMap ∨ e.2 = r := by
  induction fs generalizing c with
  | nil => exact fun e he => .inl he
  | cons f fs ih =>
    intro e he
    rcases ih _ e he with hmem | hr
    · unfold ask at hmem
      split at hmem
      · rcases List.mem_append.mp hmem with hold | hnew
        · exact .inl hold
        · rw [List.mem_singleton.mp hnew]
          exact .inr rfl
      · exact .inl hmem
    · exact .inr hr

/-- The tables only grow. -/
theorem CloneMembers.subset_foldl_ask (opts : PassOptions) (cloneName : α → α) (r : Nat) (fs : List α)
    (c : CloneMembers α) :
    let c' := fs.foldl (CloneMembers.ask opts cloneName r) c
    c.cloneFunctionMap.map Prod.fst ⊆ c'.cloneFunctionMap.map Prod.fst ∧
      c.pendingFunctionClones ⊆ c'.pendingFunctionClones := by
  induction fs generalizing c with
  | nil => exact ⟨fun _ h => h, fun _ h => h⟩
  | cons f fs ih =>
    obtain ⟨hkeys, hpending⟩ := ih (c.ask opts cloneName r f)
    have hfirst : c.cloneFunctionMap.map Prod.fst ⊆ (c.ask opts cloneName r f).cloneFunctionMap.map Prod.fst ∧
        c.pendingFunctionClones ⊆ (c.ask opts cloneName r f).pendingFunctionClones := by
      unfold ask
      split
      · constructor
        · rw [List.map_append]
          exact List.subset_append_left _ _
        · exact List.subset_append_left _ _
      · exact ⟨fun _ h => h, fun _ h => h⟩
    exact ⟨fun _ h => hkeys (hfirst.1 h), fun _ h => hpending (hfirst.2 h)⟩

theorem processCallInst_eq (opts : PassOptions) (m : ModuleCode α β) (r : Nat) (s : ModuleState α) (f : α) :
    processCallInst opts m r s f = s.withClones (s.cloneMembers.ask opts m.cloneName r f) := by
  unfold processCallInst
  by_cases hopt : opts.applyFunctionCloning = true
  · rw [if_pos hopt, CloneMembers.ask_of_cloning hopt]
    unfold processFunctionClone
    show _ = s.withClones
      (if f ∈ s.cloneFunctionMap.map Prod.fst then _ else if f ∈ s.clonedFunctionNames then _ else _)
    split
    · rfl
    · split <;> rfl
  · rw [if_neg hopt, CloneMembers.ask, if_neg (fun h => hopt h.1)]
    rfl

/-- Calls change the members that keep track of clones only. -/
theorem foldl_processCallInst (opts : PassOptions) (m : ModuleCode α β) (r : Nat) (fs : List α) (s : ModuleState α) :
    fs.foldl (processCallInst opts m r) s =
      s.withClones (fs.foldl (CloneMembers.ask opts m.cloneName r) s.cloneMembers) := by
  induction fs generalizing s with
  | nil => rfl
  | cons f fs ih =>
    rw [List.foldl_cons, List.foldl_cons, ih, processCallInst_eq]
    rfl

end

/-! ### The calls that are met -/

/-- The functions that the calls of a region name before it is instrumented, and those that the calls name that each
counter of the region or clone records. -/
structure MetBlock (α : Type*) where
  calls : List α
  counters : List (List α)

/-- The functions that are called. -/
def MetBlock.names (b : MetBlock α) : List α := b.calls ++ b.counters.flatten

/-- A counter that records one block with these calls. -/
def metCounter (fs : List α) : Counter (MetBlock α) := .postDomSet [⟨fs, []⟩]

/-- The region, with one block for the calls that are met. -/
def metRegion (PR : PragmaRegion α γ) (met : MetBlock α) : PragmaRegion α (MetBlock α) where
  pragmaRegionID := PR.pragmaRegionID
  groupID := PR.groupID
  F := PR.F
  bbList := if PR.bbList.isEmpty then [] else [met]

theorem mem_of_names_metRegion {PR : PragmaRegion α γ} {css : List (List α)} (hnil : PR.bbList = [] → css = [])
    {functions : List α} (hmem : ∀ b ∈ (metRegion PR ⟨[], css⟩).bbList, ∀ f ∈ b.names, f ∈ functions) :
    ∀ f ∈ css.flatten, f ∈ functions := by
  by_cases hempty : PR.bbList = []
  · simp [hnil hempty]
  · have hone : (metRegion PR ⟨[], css⟩).bbList = [⟨[], css⟩] := if_neg (by simpa using hempty)
    rw [hone] at hmem
    exact fun f hf => hmem ⟨[], css⟩ (by simp) f (List.mem_append_right _ hf)

/-- The module's calls and counters are those that its blocks say. -/
structure ModuleCode.Reads (m : ModuleCode α (MetBlock α)) (cloneName : α → α) : Prop where
  cloneName_eq : m.cloneName = cloneName
  calls_eq : ∀ b : MetBlock α, (∀ f ∈ b.calls, f ∈ m.functions) → m.calls b = b.calls
  counters_eq : ∀ PR, m.counters PR = PR.bbList.flatMap fun b => b.counters.map metCounter

section

variable [DecidableEq α] {opts : PassOptions} {cloneName : α → α} {m : ModuleCode α (MetBlock α)}

theorem ModuleCode.Reads.processCalls_eq (h : m.Reads cloneName) (opts : PassOptions) {b : MetBlock α}
    (hb : ∀ f ∈ b.calls, f ∈ m.functions) (r : Nat) (s : ModuleState α) :
    processCalls opts m r [b] s =
      s.withClones (b.calls.foldl (CloneMembers.ask opts cloneName r) s.cloneMembers) := by
  rw [processCalls, List.flatMap_singleton, h.calls_eq b hb, foldl_processCallInst, h.cloneName_eq]

/-- The counters of a region with one block. -/
theorem ModuleCode.Reads.numberPragmaRegion_eq (h : m.Reads cloneName) (PR : PragmaRegion α (MetBlock α))
    {met : MetBlock α} (hPR : PR.bbList = [met]) (isIndirect : Bool) (s : ModuleState α) :
    numberPragmaRegion opts m PR isIndirect s =
      let s := met.counters.foldl (fun s fs => emitCounter opts m PR isIndirect s (metCounter fs))
        { s with regionCounterEventTotal := 0 }
      if !isIndirect && s.regionCounterEventMax < s.regionCounterEventTotal then
        { s with regionCounterEventMax := s.regionCounterEventTotal }
      else s := by
  rw [numberPragmaRegion, h.counters_eq, hPR, List.flatMap_singleton, List.foldl_map]
  rfl

end

section

variable [DecidableEq α]

theorem ModuleCode.Reads.emitCounter_eq {opts : PassOptions} {cloneName : α → α} {m : ModuleCode α (MetBlock α)}
    (h : m.Reads cloneName) {fs : List α} (hfs : ∀ f ∈ fs, f ∈ m.functions) (PR : PragmaRegion α (MetBlock α))
    (isIndirect : Bool) (s : ModuleState α) :
    emitCounter opts m PR isIndirect s (metCounter fs) =
      { s.withClones (fs.foldl (CloneMembers.ask opts cloneName PR.pragmaRegionID) s.cloneMembers) with
        pragmaRegionLog := s.pragmaRegionLog ++ [newProfile PR isIndirect s]
        globalCounterEventTotal := s.globalCounterEventTotal + 1
        regionCounterEventTotal := s.regionCounterEventTotal + 1
        indirectFunctionCounterOffset :=
          if isIndirect then s.indirectFunctionCounterOffset + 1 else s.indirectFunctionCounterOffset } := by
  have hcalls := h.processCalls_eq opts (b := ⟨fs, []⟩) hfs PR.pragmaRegionID s
  have hblocks : (metCounter fs).blocks = [⟨fs, []⟩] := rfl
  simp only [emitCounter, hblocks, hcalls]
  rfl

end

/-! ### Passes that number -/

/-- The steps of a pass on the module: the calls of a region, a region, and a pending clone. -/
structure NumberingPass (α γ σ : Type*) where
  regionCalls : σ → PragmaRegion α γ → σ
  region : σ → PragmaRegion α γ → σ
  pending : σ → List α
  clone : σ → α → σ

/-- The regions' calls, the regions, and the clones in rounds, at most `fuel` of them. -/
def NumberingPass.run (p : NumberingPass α γ σ) (opts : PassOptions) (prs : List (PragmaRegion α γ)) (fuel : Nat)
    (s : σ) : Option σ :=
  let s := prs.foldl p.region (prs.foldl p.regionCalls s)
  if opts.applyFunctionCloning then (⟨p.pending, p.clone⟩ : Worklist σ α).drain fuel s else some s

variable [DecidableEq α]

/-- Every step of the pass numbers as `runOnModule` does for the calls that the step meets.  `R` is what a state of
the pass and a state of the numbering have in common. -/
structure NumberingPass.NumberedBy (p : NumberingPass α γ σ) (opts : PassOptions) (cloneName : α → α)
    (R : σ → CloneLoop α → Prop) : Prop where
  pending_eq : ∀ {s l}, R s l → p.pending s = l.pass.pendingFunctionClones
  regionCalls : ∀ s PR, ∃ fs : List α, (PR.bbList = [] → fs = []) ∧ ∀ l, R s l →
    R (p.regionCalls s PR) { l with
      pass := l.pass.withClones (fs.foldl (CloneMembers.ask opts cloneName PR.pragmaRegionID) l.pass.cloneMembers) }
  region : ∀ s PR, ∃ css : List (List α), ∀ m : ModuleCode α (MetBlock α), m.Reads cloneName →
    (∀ f ∈ css.flatten, f ∈ m.functions) → ∀ fs l, R s l →
      R (p.region s PR) { l with pass := numberPragmaRegion opts m (metRegion PR ⟨fs, css⟩) false l.pass }
  clone : ∀ s key, ∃ bs : List (MetBlock α), ∀ m : ModuleCode α (MetBlock α), m.Reads cloneName →
    (∀ b ∈ bs, ∀ f ∈ b.names, f ∈ m.functions) → m.cloneBlocks key = bs → ∀ l, R s l →
      R (p.clone s key) (instrumentClone opts m l key)

/-- The counters of a region or clone, when each numbers as `emitCounter` does. -/
theorem exists_met_counters {κ : Type*} {R : σ → CloneLoop α → Prop} {opts : PassOptions} {cloneName : α → α}
    {PR : PragmaRegion α γ} {isIndirect : Bool} {step : σ → κ → σ}
    (hstep : ∀ s c, ∃ fs : List α, ∀ m : ModuleCode α (MetBlock α), m.Reads cloneName → (∀ f ∈ fs, f ∈ m.functions) →
      ∀ bbList l, R s l → R (step s c) { l with
        pass := emitCounter opts m ⟨PR.pragmaRegionID, PR.groupID, PR.F, bbList⟩ isIndirect l.pass (metCounter fs) })
    (counters : List κ) (s : σ) :
    ∃ css : List (List α), ∀ m : ModuleCode α (MetBlock α), m.Reads cloneName → (∀ f ∈ css.flatten, f ∈ m.functions) →
      ∀ bbList l, R s l → R (counters.foldl step s) { l with
        pass := css.foldl (fun a fs => emitCounter opts m ⟨PR.pragmaRegionID, PR.groupID, PR.F, bbList⟩ isIndirect a
          (metCounter fs)) l.pass } := by
  induction counters generalizing s with
  | nil => exact ⟨[], fun _ _ _ _ _ hl => hl⟩
  | cons c counters ih =>
    obtain ⟨fs, hfirst⟩ := hstep s c
    obtain ⟨css, hrest⟩ := ih (step s c)
    refine ⟨fs :: css, fun m hm hmem bbList l hl => ?_⟩
    simp only [List.flatten_cons, List.mem_append] at hmem
    exact hrest m hm (fun f hf => hmem f (.inr hf)) bbList _ (hfirst m hm (fun f hf => hmem f (.inl hf)) bbList l hl)

/-- The module is made of the calls that were met in the regions `prs` and in some clones. -/
structure ModuleCode.MadeOf (m : ModuleCode α (MetBlock α)) (cloneName : α → α) (prs : List (PragmaRegion α γ))
    (mets : List (MetBlock α)) (clones : List (α × List (MetBlock α))) : Prop where
  reads : m.Reads cloneName
  prList_eq : m.prList = List.zipWith metRegion prs mets
  regions_mem : ∀ b ∈ mets, ∀ f ∈ b.names, f ∈ m.functions
  clones_eq : ∀ e ∈ clones, m.cloneBlocks e.1 = e.2
  clones_mem : ∀ e ∈ clones, ∀ b ∈ e.2, ∀ f ∈ b.names, f ∈ m.functions

omit [DecidableEq α] in
/-- The regions keep what does not depend on their blocks. -/
theorem map_zipWith_metRegion {δ : Type*} {g : PragmaRegion α γ → δ} {g' : PragmaRegion α (MetBlock α) → δ}
    (hg : ∀ PR b, g' (metRegion PR b) = g PR) (prs : List (PragmaRegion α γ)) {mets : List (MetBlock α)}
    (hlen : mets.length = prs.length) : (List.zipWith metRegion prs mets).map g' = prs.map g := by
  induction prs generalizing mets with
  | nil => rfl
  | cons PR prs ih =>
    cases mets with
    | nil => simp at hlen
    | cons b mets =>
      rw [List.zipWith_cons_cons, List.map_cons, List.map_cons, hg, ih (by simpa using hlen)]

omit [DecidableEq α] in
theorem metModule_prList_id {prs : List (PragmaRegion α γ)}
    (hids : prs.map PragmaRegion.pragmaRegionID = List.range prs.length) {mets : List (MetBlock α)}
    (hlen : mets.length = prs.length) : (List.zipWith metRegion prs mets).map PragmaRegion.pragmaRegionID =
      List.range (List.zipWith metRegion prs mets).length := by
  rw [map_zipWith_metRegion (fun _ _ => rfl) prs hlen, hids, List.length_zipWith, hlen, Nat.min_self]

theorem metModule_calls_mem (functions : List α) (b : MetBlock α) :
    ∀ f ∈ b.calls.filter (· ∈ functions), f ∈ functions := by
  intro f hf
  simpa using (List.mem_filter.mp hf).2

/-- All functions that are called. -/
def metNames (mets : List (MetBlock α)) (clones : List (α × List (MetBlock α))) : List α :=
  mets.flatMap MetBlock.names ++ clones.flatMap fun e => e.2.flatMap MetBlock.names

/-- The module made of these calls. -/
def metModule (cloneName : α → α) (prs : List (PragmaRegion α γ))
    (hids : prs.map PragmaRegion.pragmaRegionID = List.range prs.length) (mets : List (MetBlock α))
    (hlen : mets.length = prs.length) (clones : List (α × List (MetBlock α))) : ModuleCode α (MetBlock α) where
  prList := List.zipWith metRegion prs mets
  prList_id := metModule_prList_id hids hlen
  calls b := b.calls.filter (· ∈ metNames mets clones)
  functions := metNames mets clones
  calls_mem := metModule_calls_mem _
  cloneName := cloneName
  cloneBlocks f := (clones.lookup f).getD []
  counters PR := PR.bbList.flatMap fun b => b.counters.map metCounter

omit [DecidableEq α] in
theorem ModuleCode.MadeOf.of_append {m : ModuleCode α (MetBlock α)} {cloneName : α → α}
    {prs : List (PragmaRegion α γ)} {mets : List (MetBlock α)} {clones more : List (α × List (MetBlock α))}
    (h : m.MadeOf cloneName prs mets (clones ++ more)) : m.MadeOf cloneName prs mets clones where
  reads := h.reads
  prList_eq := h.prList_eq
  regions_mem := h.regions_mem
  clones_eq e he := h.clones_eq e (List.mem_append_left _ he)
  clones_mem e he := h.clones_mem e (List.mem_append_left _ he)

theorem madeOf_metModule (cloneName : α → α) {prs : List (PragmaRegion α γ)}
    (hids : prs.map PragmaRegion.pragmaRegionID = List.range prs.length) {mets : List (MetBlock α)}
    (hlen : mets.length = prs.length) {clones : List (α × List (MetBlock α))} (hnodup : (clones.map Prod.fst).Nodup) :
    (metModule cloneName prs hids mets hlen clones).MadeOf cloneName prs mets clones where
  reads :=
    { cloneName_eq := rfl
      calls_eq := fun _ hb => List.filter_eq_self.mpr fun f hf => decide_eq_true (hb f hf)
      counters_eq := fun _ => rfl }
  prList_eq := rfl
  regions_mem b hb f hf := List.mem_append_left _ (List.mem_flatMap.mpr ⟨b, hb, hf⟩)
  clones_eq := by
    intro e he
    show (clones.lookup e.1).getD [] = e.2
    suffices hlookup : clones.lookup e.1 = some e.2 by rw [hlookup, Option.getD_some]
    induction clones with
    | nil => exact absurd he List.not_mem_nil
    | cons e' clones ih =>
      rw [List.map_cons, List.nodup_cons] at hnodup
      rcases List.mem_cons.mp he with rfl | he
      · exact List.lookup_cons_self
      · have hne : ¬ e.1 = e'.1 := fun heq => hnodup.1 (heq ▸ List.mem_map_of_mem he)
        rw [List.lookup_cons, show (e.1 == e'.1) = false from beq_false_of_ne hne]
        exact ih hnodup.2 he
  clones_mem e he b hb f hf :=
    List.mem_append_right _ (List.mem_flatMap.mpr ⟨e, he, List.mem_flatMap.mpr ⟨b, hb, hf⟩⟩)

namespace NumberingPass.NumberedBy

variable {p : NumberingPass α γ σ} {opts : PassOptions} {cloneName : α → α} {R : σ → CloneLoop α → Prop}

/-- The calls of the regions. -/
private theorem exists_regionCalls (h : p.NumberedBy opts cloneName R) (prs : List (PragmaRegion α γ)) (s : σ) :
    ∃ fss : List (List α), fss.length = prs.length ∧ ∀ mets : List (MetBlock α), mets.map MetBlock.calls = fss →
      ∀ m : ModuleCode α (MetBlock α), m.Reads cloneName → (∀ b ∈ mets, ∀ f ∈ b.names, f ∈ m.functions) →
        ∀ l, R s l → R (prs.foldl p.regionCalls s) { l with
          pass := (List.zipWith metRegion prs mets).foldl
            (fun a PR => processCalls opts m PR.pragmaRegionID PR.bbList a) l.pass } := by
  induction prs generalizing s with
  | nil => exact ⟨[], rfl, fun _ _ _ _ _ _ hl => hl⟩
  | cons PR prs ih =>
    obtain ⟨fs, hnil, hstep⟩ := h.regionCalls s PR
    obtain ⟨fss, hlen, hrest⟩ := ih (p.regionCalls s PR)
    refine ⟨fs :: fss, by rw [List.length_cons, List.length_cons, hlen], ?_⟩
    intro mets hmets m hm hmem l hl
    obtain ⟨b, mets, rfl, rfl, htail⟩ := List.map_eq_cons_iff.mp hmets
    have hfirst : processCalls opts m PR.pragmaRegionID (metRegion PR b).bbList l.pass =
        l.pass.withClones
          (b.calls.foldl (CloneMembers.ask opts cloneName PR.pragmaRegionID) l.pass.cloneMembers) := by
      by_cases hempty : PR.bbList = []
      · rw [hnil hempty, metRegion, hempty]
        rfl
      · have hblocks : (metRegion PR b).bbList = [b] := if_neg (by simpa using hempty)
        rw [hblocks]
        exact hm.processCalls_eq opts (fun f hf => hmem b List.mem_cons_self f (List.mem_append_left _ hf)) _ _
    have hstep' := hstep l hl
    rw [← hfirst] at hstep'
    exact hrest mets htail m hm (fun b' hb' => hmem b' (List.mem_cons_of_mem b hb')) _ hstep'

/-- The regions. -/
private theorem exists_regions (h : p.NumberedBy opts cloneName R) (prs : List (PragmaRegion α γ)) (s : σ) :
    ∃ csss : List (List (List α)), csss.length = prs.length ∧ ∀ mets : List (MetBlock α),
      mets.map MetBlock.counters = csss →
      ∀ m : ModuleCode α (MetBlock α), m.Reads cloneName → (∀ b ∈ mets, ∀ f ∈ b.names, f ∈ m.functions) →
        ∀ l, R s l → R (prs.foldl p.region s) { l with
          pass := (List.zipWith metRegion prs mets).foldl (fun a PR => numberPragmaRegion opts m PR false a)
            l.pass } := by
  induction prs generalizing s with
  | nil => exact ⟨[], rfl, fun _ _ _ _ _ _ hl => hl⟩
  | cons PR prs ih =>
    obtain ⟨css, hstep⟩ := h.region s PR
    obtain ⟨csss, hlen, hrest⟩ := ih (p.region s PR)
    refine ⟨css :: csss, by rw [List.length_cons, List.length_cons, hlen], ?_⟩
    intro mets hmets m hm hmem l hl
    obtain ⟨b, mets, rfl, rfl, htail⟩ := List.map_eq_cons_iff.mp hmets
    have hstep' := hstep m hm (fun f hf => hmem b List.mem_cons_self f (List.mem_append_right _ hf)) b.calls l hl
    exact hrest mets htail m hm (fun b' hb' => hmem b' (List.mem_cons_of_mem b hb')) _ hstep'

/-- `L m` is where `runOnModule` is on the module `m`, when the pass is in `s` and has met the calls of `clones`. -/
structure Follows (opts : PassOptions) (cloneName : α → α) (R : σ → CloneLoop α → Prop)
    (prs : List (PragmaRegion α γ)) (mets : List (MetBlock α)) (clones : List (α × List (MetBlock α))) (s : σ)
    (L : ModuleCode α (MetBlock α) → CloneLoop α) : Prop where
  nodup : (clones.map Prod.fst).Nodup
  related : ∀ m : ModuleCode α (MetBlock α), m.MadeOf cloneName prs mets clones → R s (L m)
  table : ∀ m : ModuleCode α (MetBlock α), m.MadeOf cloneName prs mets clones →
    CloneTable m (clones.map Prod.fst) (L m).pass

variable {prs : List (PragmaRegion α γ)} {mets : List (MetBlock α)} {clones : List (α × List (MetBlock α))} {s : σ}
  {L : ModuleCode α (MetBlock α) → CloneLoop α}

/-- One pending clone. -/
private theorem exists_clone (h : p.NumberedBy opts cloneName R)
    (hids : prs.map PragmaRegion.pragmaRegionID = List.range prs.length) (hlen : mets.length = prs.length)
    (hL : Follows opts cloneName R prs mets clones s L) {key : α} {rest : List α}
    (hpending : p.pending s = key :: rest) :
    ∃ bs found, Follows opts cloneName R prs mets (clones ++ [(key, bs)]) (p.clone s key)
        (fun m => instrumentClone opts m (L m) key) ∧ p.pending (p.clone s key) = rest ++ found := by
  obtain ⟨bs, hstep⟩ := h.clone s key
  have hhead : ∀ m : ModuleCode α (MetBlock α), m.MadeOf cloneName prs mets clones →
      (L m).pass.pendingFunctionClones = key :: rest := fun m hm =>
        (h.pending_eq (hL.related m hm)).symm.trans hpending
  have hnodup : ((clones ++ [(key, bs)]).map Prod.fst).Nodup := by
    have hmade := madeOf_metModule cloneName hids hlen hL.nodup
    have htable := hL.table _ hmade
    have hkeys := htable.keys_nodup
    rw [htable.keys_eq, hhead _ hmade, List.append_cons] at hkeys
    rw [List.map_append]
    exact (List.nodup_append.mp hkeys).1
  have hrelated : ∀ m : ModuleCode α (MetBlock α), m.MadeOf cloneName prs mets (clones ++ [(key, bs)]) →
      R (p.clone s key) (instrumentClone opts m (L m) key) := fun m hm =>
    hstep m hm.reads (hm.clones_mem (key, bs) (by simp)) (hm.clones_eq (key, bs) (by simp)) (L m)
      (hL.related m hm.of_append)
  have hvisit : ∀ m : ModuleCode α (MetBlock α), m.MadeOf cloneName prs mets (clones ++ [(key, bs)]) → _ :=
    fun m hm =>
    instrumentClone_pending opts m (hhead m hm.of_append) (hL.table m hm.of_append)
  -- what is pending afterwards can be read off any such module
  have hmade := madeOf_metModule cloneName hids hlen hnodup
  obtain ⟨⟨found, hfound⟩, -⟩ := hvisit _ hmade
  refine ⟨bs, found, ⟨hnodup, hrelated, fun m hm => ?_⟩, (h.pending_eq (hrelated _ hmade)).trans hfound⟩
  rw [List.map_append]
  exact (hvisit m hm).2

/-- One round over the pending clones. -/
private theorem exists_round (h : p.NumberedBy opts cloneName R)
    (hids : prs.map PragmaRegion.pragmaRegionID = List.range prs.length) (hlen : mets.length = prs.length)
    (hL : Follows opts cloneName R prs mets clones s L) {keys found : List α}
    (hpending : p.pending s = keys ++ found) :
    ∃ more, Follows opts cloneName R prs mets (clones ++ more) (keys.foldl p.clone s)
      (fun m => keys.foldl (instrumentClone opts m) (L m)) := by
  induction keys generalizing clones s L found with
  | nil => exact ⟨[], by rwa [List.append_nil]⟩
  | cons key keys ih =>
    rw [List.cons_append] at hpending
    obtain ⟨bs, found', hstep, hrest⟩ := exists_clone h hids hlen hL hpending
    rw [List.append_assoc] at hrest
    obtain ⟨more, hmore⟩ := ih hstep hrest
    exact ⟨(key, bs) :: more, by rwa [List.append_cons]⟩

/-- The rounds end alike. -/
private theorem exists_drain (h : p.NumberedBy opts cloneName R)
    (hids : prs.map PragmaRegion.pragmaRegionID = List.range prs.length) (hlen : mets.length = prs.length)
    (hL : Follows opts cloneName R prs mets clones s L) {fuel : Nat} {s' : σ}
    (hrun : (⟨p.pending, p.clone⟩ : Worklist σ α).drain fuel s = some s') :
    ∃ m : ModuleCode α (MetBlock α), m.MadeOf cloneName prs mets clones ∧
      ∃ l, (numberingWorklist opts m).drain fuel (L m) = some l ∧ R s' l := by
  induction fuel generalizing clones s L with
  | zero =>
    unfold Worklist.drain at hrun
    split at hrun
    · rename_i hempty
      have hmade := madeOf_metModule cloneName hids hlen hL.nodup
      have hrelated := hL.related _ hmade
      refine ⟨_, hmade, L _, ?_, Option.some.inj hrun ▸ hrelated⟩
      unfold Worklist.drain
      rw [if_pos]
      show ((L _).pass.pendingFunctionClones).isEmpty
      rwa [← h.pending_eq hrelated]
    · cases hrun
  | succ fuel ih =>
    unfold Worklist.drain at hrun
    split at hrun
    · rename_i hempty
      have hmade := madeOf_metModule cloneName hids hlen hL.nodup
      have hrelated := hL.related _ hmade
      refine ⟨_, hmade, L _, ?_, Option.some.inj hrun ▸ hrelated⟩
      unfold Worklist.drain
      rw [if_pos]
      show ((L _).pass.pendingFunctionClones).isEmpty
      rwa [← h.pending_eq hrelated]
    · rename_i hempty
      obtain ⟨more, hround⟩ := exists_round h hids hlen hL (List.append_nil (p.pending s)).symm
      obtain ⟨m, hm, l, hdrain, hl⟩ := ih hround hrun
      have hpending := h.pending_eq (hL.related m hm.of_append)
      refine ⟨m, hm.of_append, l, ?_, hl⟩
      unfold Worklist.drain
      rw [if_neg]
      · rw [hpending] at hdrain
        exact hdrain
      · show ¬ ((L m).pass.pendingFunctionClones).isEmpty
        rwa [← hpending]

/-- A pass that numbers like `runOnModule` ends as `runOnModule` does on the calls that it met. -/
theorem exists_moduleCode (h : p.NumberedBy opts cloneName R)
    (hids : prs.map PragmaRegion.pragmaRegionID = List.range prs.length) (hstart : R s ⟨{}, 0⟩) {fuel : Nat} {s' : σ}
    (hrun : p.run opts prs fuel s = some s') :
    ∃ m : ModuleCode α (MetBlock α), m.cloneName = cloneName ∧
      m.prList.map (fun PR => (PR.pragmaRegionID, PR.groupID, PR.F)) =
        prs.map (fun PR => (PR.pragmaRegionID, PR.groupID, PR.F)) ∧
      ∃ l, R s' l ∧ runOnModule opts m = some ⟨l.pass.pragmaRegionLog, prs.length,
        if l.pass.regionCounterEventMax < l.maxIndirect then l.maxIndirect else l.pass.regionCounterEventMax⟩ := by
  obtain ⟨fss, hfss, hcalls⟩ := h.exists_regionCalls prs s
  obtain ⟨csss, hcsss, hregions⟩ := h.exists_regions prs (prs.foldl p.regionCalls s)
  obtain ⟨mets, hmetCalls, hmetCounters⟩ : ∃ mets : List (MetBlock α),
      mets.map MetBlock.calls = fss ∧ mets.map MetBlock.counters = csss := by
    refine ⟨(fss.zip csss).map fun x => ⟨x.1, x.2⟩, ?_, ?_⟩
    · rw [List.map_map]
      exact List.map_fst_zip (by omega)
    · rw [List.map_map]
      exact List.map_snd_zip (by omega)
  have hlen : mets.length = prs.length := by rw [← hfss, ← hmetCalls, List.length_map]
  have hL : Follows opts cloneName R prs mets [] (prs.foldl p.region (prs.foldl p.regionCalls s))
      (fun m => ⟨regionsNumbered opts m, 0⟩) := by
    refine ⟨List.nodup_nil, fun m hm => ?_, fun m _ => (cloneLoopInv_regionsNumbered opts m).table⟩
    have hfirst := hcalls mets hmetCalls m hm.reads hm.regions_mem _ hstart
    have hsecond := hregions mets hmetCounters m hm.reads hm.regions_mem _ hfirst
    rw [← hm.prList_eq] at hsecond
    exact hsecond
  have hheaders : ∀ m : ModuleCode α (MetBlock α), m.MadeOf cloneName prs mets [] → m.cloneName = cloneName ∧
      m.prList.map (fun PR => (PR.pragmaRegionID, PR.groupID, PR.F)) =
        prs.map (fun PR => (PR.pragmaRegionID, PR.groupID, PR.F)) ∧ m.prList.length = prs.length := by
    intro m hm
    rw [hm.prList_eq]
    exact ⟨hm.reads.cloneName_eq, map_zipWith_metRegion (fun _ _ => rfl) prs hlen, by
      rw [List.length_zipWith, hlen, Nat.min_self]⟩
  unfold run at hrun
  by_cases hopt : opts.applyFunctionCloning = true
  · rw [if_pos hopt] at hrun
    obtain ⟨m, hm, l, hdrain, hl⟩ := exists_drain h hids hlen hL hrun
    obtain ⟨hname, hheader, hlength⟩ := hheaders m hm
    refine ⟨m, hname, hheader, l, hl, ?_⟩
    obtain ⟨l', -, hdrain', -⟩ := (sound_numberingWorklist opts m).drain m.functions.length
      (cloneLoopInv_regionsNumbered opts m) (Nat.le_add_right _ _)
    rw [runOnModule_eq, if_pos hopt, hdrain', Worklist.drain_unique hdrain' hdrain, ← hlength]
    rfl
  · rw [if_neg hopt] at hrun
    have hmade := madeOf_metModule cloneName hids hlen hL.nodup
    obtain ⟨hname, hheader, hlength⟩ := hheaders _ hmade
    refine ⟨_, hname, hheader, _, Option.some.inj hrun ▸ hL.related _ hmade, ?_⟩
    rw [runOnModule_eq, if_neg hopt, ← hlength]
    rfl

end NumberingPass.NumberedBy

end ZRay.Pass
