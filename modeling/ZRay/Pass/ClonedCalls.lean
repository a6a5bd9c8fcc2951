import ZRay.Labelling
import ZRay.Pass.Clones

/-!
# The calls of a cloned module

What the pass does to calls and tags.  Every body of the module now is that of a function or of its clone, and
each call in it is the original call or the redirected one (`ClonesMade`).  Processing a call leaves it
redirected, whichever of the two it was (`progress_processCallInst`), so a block that was processed once is
finished for good.  `Progress` is what a part of the pass does: the blocks it may change, the blocks it tags,
and the clones it asks for, each for a region.
-/

namespace ZRay.Pass.Clones

variable {α : Type*}

/-! ### What becomes of a call -/

section

variable [DecidableEq α]

/-- The function that a call of the original module makes the pass clone: the defined callee, or the microtask of a
fork call. -/
def cloneTarget (opts : PassOptions) (m : IRModule α) (callInst : CallInst α) : Option α :=
  match callInst.calledFunction with
  | none => none
  | some f =>
    if m.isIntrinsic f then none
    else if m.size f = 0 then
      if opts.applyFunctionCloning ∧ f = m.kmpcForkCall then callInst.ompName.filter (· ∈ m.functions) else none
    else if f = m.onThreadExit then none
    else if opts.applyFunctionCloning then some f
    else none

/-- The call with `newF` in place of the function it makes the pass clone. -/
def redirect (m : IRModule α) (newF : α) (callInst : CallInst α) : CallInst α :=
  match callInst.calledFunction with
  | none => callInst
  | some f =>
    if m.size f = 0 then
      if callInst.isConstantExpr then { callInst with ompName := some newF } else callInst
    else { callInst with calledFunction := some newF }

/-- The call as it is once it has been processed. -/
def redirected (opts : PassOptions) (m : IRModule α) (callInst : CallInst α) : CallInst α :=
  match cloneTarget opts m callInst with
  | none => callInst
  | some f => redirect m (m.cloneName f) callInst

/-- The functions that the calls of a block of the original module make the pass clone. -/
def callTargets (opts : PassOptions) (m : IRModule α) (x : α × Nat) : List α :=
  (m.code x).calls.filterMap (cloneTarget opts m)

/-- These functions, asked for by the region. -/
def callAsks (opts : PassOptions) (m : IRModule α) (pragmaRegionID : Nat) (x : α × Nat) : List (α × Nat) :=
  (callTargets opts m x).map (·, pragmaRegionID)

omit [DecidableEq α] in
theorem mem_functions_of_size_ne_zero (m : IRModule α) {f : α} (h : m.size f ≠ 0) : f ∈ m.functions :=
  m.mem_functions f (Nat.pos_of_ne_zero h)

/-- The two kinds of calls that ask for a clone: the fork of a microtask, and the call of a defined function. -/
theorem cloneTarget_cases {opts : PassOptions} {m : IRModule α} {c : CallInst α} {f : α}
    (h : cloneTarget opts m c = some f) :
    opts.applyFunctionCloning = true ∧
      ∃ callee, c.calledFunction = some callee ∧
        (m.size callee = 0 ∧ c.ompName = some f ∧ f ∈ m.functions ∨ m.size callee ≠ 0 ∧ f = callee) := by
  unfold cloneTarget at h
  split at h
  · simp at h
  · rename_i callee hcallee
    split at h
    · simp at h
    · split at h
      · rename_i hsize
        split at h
        · rename_i hfork
          rw [Option.filter_eq_some_iff] at h
          exact ⟨hfork.1, callee, hcallee, .inl ⟨hsize, h.1, by simpa using h.2⟩⟩
        · simp at h
      · rename_i hsize
        split at h
        · simp at h
        · split at h
          · rename_i hopt
            exact ⟨hopt, callee, hcallee, .inr ⟨hsize, (Option.some.inj h).symm⟩⟩
          · simp at h

theorem cloneTarget_mem {opts : PassOptions} {m : IRModule α} {c : CallInst α} {f : α}
    (h : cloneTarget opts m c = some f) : f ∈ m.functions := by
  obtain ⟨-, callee, -, ⟨-, -, hf⟩ | ⟨hsize, rfl⟩⟩ := cloneTarget_cases h
  · exact hf
  · exact mem_functions_of_size_ne_zero m hsize

/-- A direct call: its callee is the function cloned. -/
theorem cloneTarget_of_body {opts : PassOptions} {m : IRModule α} {c : CallInst α} {f : α}
    (hopt : opts.applyFunctionCloning = true) (hf : c.calledFunction = some f) (hbody : m.size f ≠ 0)
    (hexit : f ≠ m.onThreadExit) : cloneTarget opts m c = some f := by
  have hintrinsic : m.isIntrinsic f = false := by
    by_contra h
    exact hbody (m.size_intrinsic f (by simpa using h))
  simp [cloneTarget, hf, hintrinsic, hbody, hexit, hopt]

/-! ### The invariant -/

/-- `g` is the function `f` of the module or its clone. -/
def IsCopy (m : IRModule α) (s : IRState α) (f g : α) : Prop :=
  f ∈ m.functions ∧ (g = f ∨ f ∈ s.cloned ∧ g = m.cloneName f)

/-- The call `c` of the module now, which was `c₀`: not processed yet, or processed. -/
def CallKept (opts : PassOptions) (m : IRModule α) (s : IRState α) (c₀ c : Option (CallInst α)) : Prop :=
  c = c₀ ∨ c = c₀.map (redirected opts m) ∧ ∀ f, c₀.bind (cloneTarget opts m) = some f → f ∈ s.cloned

/-- Every clone has its entries, and every body is the original one with some calls processed. -/
structure ClonesMade (opts : PassOptions) (m : IRModule α) (s : IRState α) : Prop where
  cloned_mem : ∀ f ∈ s.cloned, f ∈ m.functions
  cloned_nodup : s.cloned.Nodup
  names_eq : s.clonedFunctionNames = s.cloned.map m.cloneName
  size_eq : ∀ f g, IsCopy m s f g → s.size g = m.size f
  calls_kept : ∀ f g, IsCopy m s f g → ∀ j i : Nat,
    CallKept opts m s (m.code (f, j)).calls[i]? (s.code (g, j)).calls[i]?

/-- All calls of the block `x`, a block of `f` or of its clone, have been processed. -/
def Finished (opts : PassOptions) (m : IRModule α) (s : IRState α) (f : α) (x : α × Nat) : Prop :=
  (s.code x).calls = (m.code (f, x.2)).calls.map (redirected opts m) ∧
    ∀ g ∈ callTargets opts m (f, x.2), g ∈ s.cloned

/-- From `s` to `s'` calls in `blocks` were processed, functions asked for (`asks`, with the region that asks),
and the blocks `tagged` given a tag each; nothing else happened to calls and tags, nor to the entry and exit
calls of other functions. -/
structure Progress (opts : PassOptions) (m : IRModule α) (blocks tagged asks : List (α × Nat)) (s s' : IRState α) :
    Prop where
  made : ClonesMade opts m s'
  map_eq : s'.cloneFunctionMap = addLabels s.cloneFunctionMap asks
  found : ∃ new, s'.cloneFunctionMap = s.cloneFunctionMap ++ new ∧
    s'.pendingFunctionClones = s.pendingFunctionClones ++ new.map Prod.fst
  prList_eq : s'.prList = s.prList
  calls_eq : ∀ f g, IsCopy m s f g → ∀ j, (g, j) ∉ blocks → (s'.code (g, j)).calls = (s.code (g, j)).calls
  finished : ∀ f g, IsCopy m s f g → ∀ j, Finished opts m s f (g, j) → Finished opts m s' f (g, j)
  events_eq : ∀ f g, IsCopy m s f g → (∀ x ∈ blocks, x.1 ≠ g) → ∀ j, (s'.code (g, j)).events = (s.code (g, j)).events
  tags_eq : ∀ f g, IsCopy m s f g → ∀ j,
    (s'.code (g, j)).bbTags.length = (s.code (g, j)).bbTags.length + tagged.count (g, j)
  tags_new : ∀ f ∈ s'.cloned, f ∉ s.cloned → (∀ i, (f, i) ∉ tagged ∧ (m.cloneName f, i) ∉ tagged) → ∀ j,
    (s'.code (m.cloneName f, j)).bbTags.length = (s.code (f, j)).bbTags.length

omit [DecidableEq α] in
theorem IsCopy.mono {m : IRModule α} {s s' : IRState α} (h : ∀ f ∈ s.cloned, f ∈ s'.cloned) {f g : α}
    (hcopy : IsCopy m s f g) : IsCopy m s' f g :=
  ⟨hcopy.1, hcopy.2.imp_right fun hclone => ⟨h f hclone.1, hclone.2⟩⟩

omit [DecidableEq α] in
/-- The name of a clone not made yet is no function and no clone. -/
theorem IsCopy.ne_cloneName {m : IRModule α} {s : IRState α} {f g f' : α} (hcopy : IsCopy m s f g)
    (hf' : f' ∈ m.functions) (hnew : f' ∉ s.cloned) : g ≠ m.cloneName f' := by
  rintro rfl
  obtain ⟨hf, hsame | ⟨hcloned, hname⟩⟩ := hcopy
  · exact m.cloneName_notMem f' hf' (hsame ▸ hf)
  · exact hnew (m.cloneName_inj f' hf' f hf hname ▸ hcloned)

omit [DecidableEq α] in
/-- A function is a copy of one function only. -/
theorem IsCopy.unique {m : IRModule α} {s : IRState α} {f f' g : α} (h : IsCopy m s f g) (h' : IsCopy m s f' g) :
    f = f' := by
  obtain ⟨hf, hsame | ⟨hcloned, hname⟩⟩ := h
  · obtain ⟨hf', hsame' | ⟨-, hname'⟩⟩ := h'
    · exact hsame.symm.trans hsame'
    · exact absurd (hname' ▸ hsame ▸ hf) (m.cloneName_notMem f' hf')
  · obtain ⟨hf', hsame' | ⟨-, hname'⟩⟩ := h'
    · exact absurd (hname ▸ hsame' ▸ hf') (m.cloneName_notMem f hf)
    · exact m.cloneName_inj f hf f' hf' (hname.symm.trans hname')

omit [DecidableEq α] in
theorem IsCopy.function {m : IRModule α} {s : IRState α} {f : α} (hf : f ∈ m.functions) : IsCopy m s f f :=
  ⟨hf, .inl rfl⟩

namespace Progress

variable {opts : PassOptions} {m : IRModule α} {blocks blocks' tagged tagged' asks asks' : List (α × Nat)}
  {s s' s'' : IRState α}

theorem mem_cloned (h : Progress opts m blocks tagged asks s s') (f : α) :
    f ∈ s'.cloned ↔ f ∈ s.cloned ∨ f ∈ asks.map Prod.fst := by
  rw [IRState.cloned, h.map_eq, mem_keys_addLabels]
  rfl

theorem cloned_subset (h : Progress opts m blocks tagged asks s s') : ∀ f ∈ s.cloned, f ∈ s'.cloned :=
  fun f hf => (h.mem_cloned f).mpr (.inl hf)

theorem isCopy (h : Progress opts m blocks tagged asks s s') {f g : α} (hcopy : IsCopy m s f g) :
    IsCopy m s' f g :=
  hcopy.mono h.cloned_subset

theorem refl (hmade : ClonesMade opts m s) : Progress opts m [] [] [] s s where
  made := hmade
  map_eq := rfl
  found := ⟨[], by simp⟩
  prList_eq := rfl
  calls_eq := fun _ _ _ _ _ => rfl
  finished := fun _ _ _ _ hfin => hfin
  events_eq := fun _ _ _ _ _ => rfl
  tags_eq := by simp
  tags_new := fun f hf hnew => absurd hf hnew

theorem trans (h : Progress opts m blocks tagged asks s s') (h' : Progress opts m blocks' tagged' asks' s' s'') :
    Progress opts m (blocks ++ blocks') (tagged ++ tagged') (asks ++ asks') s s'' where
  made := h'.made
  map_eq := by rw [h'.map_eq, h.map_eq, addLabels_append]
  found := by
    obtain ⟨new, hmap, hpending⟩ := h.found
    obtain ⟨new', hmap', hpending'⟩ := h'.found
    refine ⟨new ++ new', ?_, ?_⟩
    · rw [hmap', hmap, List.append_assoc]
    · rw [hpending', hpending, List.map_append, List.append_assoc]
  prList_eq := h'.prList_eq.trans h.prList_eq
  calls_eq := by
    intro f g hcopy j hj
    rw [List.mem_append, not_or] at hj
    exact (h'.calls_eq f g (h.isCopy hcopy) j hj.2).trans (h.calls_eq f g hcopy j hj.1)
  finished := fun f g hcopy j hfin => h'.finished f g (h.isCopy hcopy) j (h.finished f g hcopy j hfin)
  events_eq := by
    intro f g hcopy hother j
    have hrest := h'.events_eq f g (h.isCopy hcopy) (fun x hx => hother x (List.mem_append_right _ hx)) j
    exact hrest.trans (h.events_eq f g hcopy (fun x hx => hother x (List.mem_append_left _ hx)) j)
  tags_eq := by
    intro f g hcopy j
    rw [h'.tags_eq f g (h.isCopy hcopy) j, h.tags_eq f g hcopy j, List.count_append, Nat.add_assoc]
  tags_new := by
    intro f hf hnew hno j
    simp only [List.mem_append, not_or] at hno
    have hcopy : IsCopy m s f f := .function (h'.made.cloned_mem f hf)
    by_cases hf' : f ∈ s'.cloned
    · -- made in the first part
      have hclone : IsCopy m s' f (m.cloneName f) := ⟨hcopy.1, .inr ⟨hf', rfl⟩⟩
      rw [h'.tags_eq _ _ hclone j, h.tags_new f hf' hnew (fun i => ⟨(hno i).1.1, (hno i).2.1⟩) j,
        List.count_eq_zero_of_not_mem (hno j).2.2, Nat.add_zero]
    · rw [h'.tags_new f hf hf' (fun i => ⟨(hno i).1.2, (hno i).2.2⟩) j, h.tags_eq f f hcopy j,
        List.count_eq_zero_of_not_mem (hno j).1.1, Nat.add_zero]

theorem cloned_found (h : Progress opts m blocks tagged asks s s') :
    ∃ new, s'.cloned = s.cloned ++ new ∧ s'.pendingFunctionClones = s.pendingFunctionClones ++ new := by
  obtain ⟨new, hmap, hpending⟩ := h.found
  exact ⟨new.map Prod.fst, by rw [IRState.cloned, hmap, List.map_append]; rfl, hpending⟩

/-- More blocks may be allowed to change. -/
theorem weaken (h : Progress opts m blocks tagged asks s s') (hsub : ∀ x ∈ blocks, x ∈ blocks') :
    Progress opts m blocks' tagged asks s s' :=
  { h with
    calls_eq := fun f g hcopy j hj => h.calls_eq f g hcopy j fun hmem => hj (hsub _ hmem)
    events_eq := fun f g hcopy hother j => h.events_eq f g hcopy (fun x hx => hother x (hsub x hx)) j }

end Progress

end

/-! ### Making a clone -/

section

variable [DecidableEq α] {opts : PassOptions} {m : IRModule α} {s s' : IRState α}

theorem CallKept.mono {c₀ c : Option (CallInst α)} (h : ∀ f ∈ s.cloned, f ∈ s'.cloned) (hc : CallKept opts m s c₀ c) :
    CallKept opts m s' c₀ c :=
  hc.imp_right fun hdone => ⟨hdone.1, fun f hf => h f (hdone.2 f hf)⟩

theorem Finished.mono {f : α} {x y : α × Nat} (h : ∀ f ∈ s.cloned, f ∈ s'.cloned)
    (hcalls : (s'.code y).calls = (s.code x).calls) (hxy : y.2 = x.2) (hfin : Finished opts m s f x) :
    Finished opts m s' f y := by
  unfold Finished at hfin ⊢
  rw [hcalls, hxy]
  exact ⟨hfin.1, fun g hg => h g (hfin.2 g hg)⟩

/-- Stripping the events changes no call and no tag, and nothing in other functions. -/
theorem stripTimingEvents_eq (F : α) (s : IRState α) :
    ∃ code, stripTimingEvents F s = { s with code := code } ∧
      ∀ x, (code x).calls = (s.code x).calls ∧ (code x).bbTags = (s.code x).bbTags ∧
        (x.1 ≠ F → code x = s.code x) := by
  unfold stripTimingEvents
  split
  · refine ⟨_, rfl, fun x => ?_⟩
    by_cases hx : x.1 = F
    · simp [hx]
    · simp [hx]
  · exact ⟨s.code, rfl, fun x => ⟨rfl, rfl, fun _ => rfl⟩⟩

omit [DecidableEq α] in
theorem isCopy_append_iff {f : α} (hf : f ∈ m.functions) (hcloned : s'.cloned = s.cloned ++ [f]) {g h : α} :
    IsCopy m s' g h ↔ IsCopy m s g h ∨ g = f ∧ h = m.cloneName f := by
  unfold IsCopy
  rw [hcloned]
  constructor
  · rintro ⟨hg, hsame | ⟨hmem, hname⟩⟩
    · exact .inl ⟨hg, .inl hsame⟩
    · rcases List.mem_append.mp hmem with hold | hnew
      · exact .inl ⟨hg, .inr ⟨hold, hname⟩⟩
      · rw [List.mem_singleton] at hnew
        exact .inr ⟨hnew, hnew ▸ hname⟩
  · rintro (⟨hg, hsame | ⟨hmem, hname⟩⟩ | ⟨rfl, rfl⟩)
    · exact ⟨hg, .inl hsame⟩
    · exact ⟨hg, .inr ⟨List.mem_append_left _ hmem, hname⟩⟩
    · exact ⟨hf, .inr ⟨by simp, rfl⟩⟩

/-- `s'` is `s` with a clone of `f`, asked for by the region `r`. -/
structure CloneAdded (m : IRModule α) (f : α) (r : Nat) (s s' : IRState α) : Prop where
  map_eq : s'.cloneFunctionMap = s.cloneFunctionMap ++ [(f, r)]
  names_eq : s'.clonedFunctionNames = s.clonedFunctionNames ++ [m.cloneName f]
  pending_eq : s'.pendingFunctionClones = s.pendingFunctionClones ++ [f]
  prList_eq : s'.prList = s.prList
  size_eq : s'.size = Function.update s.size (m.cloneName f) (s.size f)
  code_eq : ∀ x, x.1 ≠ m.cloneName f → s'.code x = s.code x
  calls_eq : ∀ j, (s'.code (m.cloneName f, j)).calls = (s.code (f, j)).calls
  tags_eq : ∀ j, (s'.code (m.cloneName f, j)).bbTags = (s.code (f, j)).bbTags

theorem cloneAdded_processFunctionClone (m : IRModule α) {f : α} (r : Nat) {s : IRState α} (hnew : f ∉ s.cloned)
    (hname : f ∉ s.clonedFunctionNames) :
    (processFunctionClone m f r s).1 = m.cloneName f ∧ CloneAdded m f r s (processFunctionClone m f r s).2 := by
  obtain ⟨code, hstrip, hcode⟩ := stripTimingEvents_eq (m.cloneName f) (cloneFunction f (m.cloneName f) s)
  simp only [processFunctionClone, hnew, hname, if_false, hstrip]
  refine ⟨trivial, rfl, rfl, rfl, rfl, rfl, ?_, ?_, ?_⟩
  · intro x hx
    exact ((hcode x).2.2 hx).trans (by simp [cloneFunction, hx])
  · intro j
    exact (hcode _).1.trans (by simp [cloneFunction])
  · intro j
    exact (hcode _).2.1.trans (by simp [cloneFunction])

theorem CloneAdded.cloned_eq {f : α} {r : Nat} (h : CloneAdded m f r s s') : s'.cloned = s.cloned ++ [f] := by
  rw [IRState.cloned, h.map_eq, List.map_append]
  rfl

/-- Making a clone keeps the invariant: the copy has the calls of the original. -/
theorem CloneAdded.progress {f : α} {r : Nat} (h : CloneAdded m f r s s') (hmade : ClonesMade opts m s)
    (hf : f ∈ m.functions) (hnew : f ∉ s.cloned) : Progress opts m [] [] [(f, r)] s s' := by
  have hsub : ∀ g ∈ s.cloned, g ∈ s'.cloned := fun g hg => by
    rw [h.cloned_eq]
    exact List.mem_append_left _ hg
  have hcode : ∀ g k, IsCopy m s g k → ∀ j, s'.code (k, j) = s.code (k, j) :=
    fun g k hcopy j => h.code_eq (k, j) (hcopy.ne_cloneName hf hnew)
  have hself : IsCopy m s f f := .function hf
  refine ⟨⟨?_, ?_, ?_, ?_, ?_⟩, ?_, ⟨[(f, r)], h.map_eq, h.pending_eq⟩, h.prList_eq, ?_, ?_, ?_, ?_, ?_⟩
  · intro g hg
    rw [h.cloned_eq, List.mem_append, List.mem_singleton] at hg
    rcases hg with hg | rfl
    · exact hmade.cloned_mem g hg
    · exact hf
  · rw [h.cloned_eq]
    refine List.Nodup.append hmade.cloned_nodup (List.nodup_singleton f) ?_
    intro g hg hgf
    exact hnew (List.mem_singleton.mp hgf ▸ hg)
  · rw [h.names_eq, h.cloned_eq, hmade.names_eq, List.map_append, List.map_singleton]
  · intro g k hcopy
    rw [h.size_eq]
    rcases (isCopy_append_iff hf h.cloned_eq).mp hcopy with hold | ⟨rfl, rfl⟩
    · rw [Function.update_of_ne (hold.ne_cloneName hf hnew)]
      exact hmade.size_eq g k hold
    · rw [Function.update_self]
      exact hmade.size_eq g g hself
  · intro g k hcopy j i
    rcases (isCopy_append_iff hf h.cloned_eq).mp hcopy with hold | ⟨rfl, rfl⟩
    · rw [hcode g k hold j]
      exact (hmade.calls_kept g k hold j i).mono hsub
    · rw [h.calls_eq j]
      exact (hmade.calls_kept g g hself j i).mono hsub
  · rw [h.map_eq, addLabels_singleton_of_notMem r hnew]
  · intro g k hcopy j _
    rw [hcode g k hcopy j]
  · intro g k hcopy j hfin
    exact hfin.mono hsub (by rw [hcode g k hcopy j]) rfl
  · intro g k hcopy _ j
    rw [hcode g k hcopy j]
  · intro g k hcopy j
    rw [hcode g k hcopy j, List.count_nil, Nat.add_zero]
  · intro g hg hgnew _ j
    rw [h.cloned_eq, List.mem_append, List.mem_singleton] at hg
    obtain rfl := hg.resolve_left hgnew
    rw [h.tags_eq j]

/-- A function with a clone is not cloned again, nor is the clone. -/
theorem processFunctionClone_of_mem {f : α} (r : Nat) (hf : f ∈ s.cloned) :
    processFunctionClone m f r s = (m.cloneName f, s) := by
  simp [processFunctionClone, hf]

theorem processFunctionClone_cloneName (hmade : ClonesMade opts m s) {f : α} (r : Nat) (hf : f ∈ s.cloned) :
    processFunctionClone m (m.cloneName f) r s = (m.cloneName f, s) := by
  have hno : m.cloneName f ∉ s.cloned := fun h =>
    m.cloneName_notMem f (hmade.cloned_mem f hf) (hmade.cloned_mem _ h)
  have hname : m.cloneName f ∈ s.clonedFunctionNames := by
    rw [hmade.names_eq]
    exact List.mem_map_of_mem hf
  simp [processFunctionClone, hno, hname]

/-- A function of the module that is asked for has a clone afterwards. -/
theorem progress_processFunctionClone (hmade : ClonesMade opts m s) {f : α} (r : Nat) (hf : f ∈ m.functions) :
    (processFunctionClone m f r s).1 = m.cloneName f ∧
      Progress opts m [] [] [(f, r)] s (processFunctionClone m f r s).2 := by
  by_cases hcloned : f ∈ s.cloned
  · rw [processFunctionClone_of_mem r hcloned]
    exact ⟨rfl, { Progress.refl hmade with map_eq := (addLabels_singleton_of_mem r hcloned).symm }⟩
  · have hname : f ∉ s.clonedFunctionNames := by
      rw [hmade.names_eq]
      intro h
      obtain ⟨g, hg, hgf⟩ := List.mem_map.mp h
      exact m.cloneName_notMem g (hmade.cloned_mem g hg) (hgf ▸ hf)
    obtain ⟨hfst, hadded⟩ := cloneAdded_processFunctionClone m r hcloned hname
    exact ⟨hfst, hadded.progress hmade hf hcloned⟩

end

/-! ### Processing a call -/

section

variable [DecidableEq α] {opts : PassOptions} {m : IRModule α} {s s' : IRState α}

theorem ClonesMade.size_function (hmade : ClonesMade opts m s) {f : α} (hf : f ∈ m.functions) : s.size f = m.size f :=
  hmade.size_eq f f (.function hf)

theorem ClonesMade.size_clone (hmade : ClonesMade opts m s) {f : α} (hf : f ∈ s.cloned) :
    s.size (m.cloneName f) = m.size f :=
  hmade.size_eq f _ ⟨hmade.cloned_mem f hf, .inr ⟨hf, rfl⟩⟩

/-- A call of the original module that asks for no clone is left alone. -/
theorem processCallInst_of_none (hmade : ClonesMade opts m s) {c : CallInst α} (r : Nat)
    (hmem : ∀ f, c.calledFunction = some f → f ∈ m.functions) (htarget : cloneTarget opts m c = none) :
    processCallInst opts m r c s = (c, s) := by
  unfold processCallInst
  unfold cloneTarget at htarget
  cases hf : c.calledFunction with
  | none => rfl
  | some f =>
    have hsize := hmade.size_function (hmem f hf)
    simp only [hf] at htarget ⊢
    split
    · rfl
    · rename_i hintrinsic
      rw [if_neg hintrinsic] at htarget
      rw [hsize]
      split
      · rename_i hbody
        rw [if_pos hbody] at htarget
        split
        · rename_i hfork
          rw [if_pos hfork] at htarget
          cases homp : c.ompName with
          | none => rfl
          | some g =>
            rw [homp, Option.filter_eq_none_iff] at htarget
            have hg : g ∉ m.functions := by simpa using htarget g rfl
            have hnew : g ∉ s.cloned := fun h => hg (hmade.cloned_mem g h)
            by_cases hname : g ∈ s.clonedFunctionNames
            · -- the printed name is that of a clone
              simp only [getFunction, hg, hname, decide_false, decide_true, Bool.or_true, if_true,
                processFunctionClone, hnew, if_false, ← homp, ← hf, ite_self]
            · simp [getFunction, hg, hname]
        · rfl
      · rename_i hbody
        rw [if_neg hbody] at htarget
        split
        · rfl
        · rename_i hexit
          rw [if_neg hexit] at htarget
          split
          · rename_i hopt
            simp [hopt] at htarget
          · rfl

/-- A call of the original module that asks for the clone of `f`. -/
theorem processCallInst_of_some (hmade : ClonesMade opts m s) {c : CallInst α} (r : Nat)
    (hmem : ∀ f, c.calledFunction = some f → f ∈ m.functions) {f : α} (htarget : cloneTarget opts m c = some f) :
    processCallInst opts m r c s =
      (redirect m (processFunctionClone m f r s).1 c, (processFunctionClone m f r s).2) := by
  unfold processCallInst redirect
  unfold cloneTarget at htarget
  cases hcallee : c.calledFunction with
  | none => simp [hcallee] at htarget
  | some callee =>
    have hsize := hmade.size_function (hmem callee hcallee)
    simp only [hcallee] at htarget ⊢
    split at htarget
    · simp at htarget
    · rename_i hintrinsic
      rw [if_neg hintrinsic, hsize]
      split at htarget
      · rename_i hbody
        rw [if_pos hbody, if_pos hbody]
        split at htarget
        · rename_i hfork
          rw [if_pos hfork]
          rw [Option.filter_eq_some_iff] at htarget
          have hf : getFunction m f s = true := by simpa [getFunction] using Or.inl (by simpa using htarget.2)
          simp [htarget.1, hf]
        · simp at htarget
      · rename_i hbody
        rw [if_neg hbody, if_neg hbody]
        split at htarget
        · simp at htarget
        · rename_i hexit
          rw [if_neg hexit]
          split at htarget
          · rename_i hopt
            rw [if_pos hopt, Option.some.inj htarget]
          · simp at htarget

/-- A processed call is left alone. -/
theorem processCallInst_redirect (hmade : ClonesMade opts m s) {c : CallInst α} (r : Nat)
    (hmem : ∀ f, c.calledFunction = some f → f ∈ m.functions) {f : α} (htarget : cloneTarget opts m c = some f)
    (hf : f ∈ s.cloned) :
    processCallInst opts m r (redirect m (m.cloneName f) c) s = (redirect m (m.cloneName f) c, s) := by
  have hclone := processFunctionClone_cloneName hmade r hf
  cases hcallee : c.calledFunction with
  | none => simp [cloneTarget, hcallee] at htarget
  | some callee =>
    have hsize := hmade.size_function (hmem callee hcallee)
    by_cases hbody : m.size callee = 0
    · by_cases hexpr : c.isConstantExpr = true
      · -- a fork: the printed name is now that of the clone
        have hredirect : redirect m (m.cloneName f) c = { c with ompName := some (m.cloneName f) } := by
          simp [redirect, hcallee, hbody, hexpr]
        rw [hredirect]
        simp [processCallInst, hcallee, hsize, hbody, hexpr, hclone]
      · -- the operand is no constant expression and stays
        have hredirect : redirect m (m.cloneName f) c = c := by
          simp [redirect, hcallee, hbody, hexpr]
        have hagain := processCallInst_of_some hmade r hmem htarget
        rw [processFunctionClone_of_mem r hf, hredirect] at hagain
        rw [hredirect, hagain]
    · -- the callee is the clone
      have hredirect : redirect m (m.cloneName f) c = { c with calledFunction := some (m.cloneName f) } := by
        simp [redirect, hcallee, hbody]
      have hsizef : s.size (m.cloneName f) ≠ 0 := by
        obtain ⟨-, callee', hcallee', ⟨hbody', -⟩ | ⟨-, hf'⟩⟩ := cloneTarget_cases htarget
        · rw [hcallee, Option.some.injEq] at hcallee'
          exact absurd (hcallee' ▸ hbody') hbody
        · rw [hcallee, Option.some.injEq] at hcallee'
          rw [hmade.size_clone hf, hf', ← hcallee']
          exact hbody
      rw [hredirect]
      simp [processCallInst, hclone, hsizef]

/-- Processing a call of any body leaves it redirected, with a clone of the function it asks for. -/
theorem progress_processCallInst (hmade : ClonesMade opts m s) {c₀ c : CallInst α} (r : Nat)
    (hmem : ∀ f, c₀.calledFunction = some f → f ∈ m.functions) (hkept : CallKept opts m s (some c₀) (some c)) :
    (processCallInst opts m r c s).1 = redirected opts m c₀ ∧
      Progress opts m [] [] ((cloneTarget opts m c₀).toList.map (·, r)) s (processCallInst opts m r c s).2 := by
  cases htarget : cloneTarget opts m c₀ with
  | none =>
    have hredirected : redirected opts m c₀ = c₀ := by simp [redirected, htarget]
    have hc : c = c₀ := by
      rcases hkept with heq | ⟨heq, -⟩
      · exact Option.some.inj heq
      · rw [Option.map_some, hredirected] at heq
        exact Option.some.inj heq
    rw [hc, processCallInst_of_none hmade r hmem htarget, hredirected]
    exact ⟨rfl, .refl hmade⟩
  | some f =>
    have hredirected : redirected opts m c₀ = redirect m (m.cloneName f) c₀ := by simp [redirected, htarget]
    rw [hredirected]
    rcases hkept with heq | ⟨heq, hdone⟩
    · obtain rfl := Option.some.inj heq
      obtain ⟨hfst, hprogress⟩ := progress_processFunctionClone hmade r (cloneTarget_mem htarget)
      rw [processCallInst_of_some hmade r hmem htarget]
      exact ⟨by rw [hfst], hprogress⟩
    · have hf : f ∈ s.cloned := hdone f (by simpa using htarget)
      rw [Option.map_some, hredirected] at heq
      rw [Option.some.inj heq, processCallInst_redirect hmade r hmem htarget hf]
      exact ⟨rfl, { Progress.refl hmade with map_eq := (addLabels_singleton_of_mem r hf).symm }⟩

end

/-! ### Processing a block -/

section

variable [DecidableEq α] {opts : PassOptions} {m : IRModule α} {s s' : IRState α}

omit [DecidableEq α] in
theorem isCopy_congr (h : s'.cloned = s.cloned) {f g : α} : IsCopy m s' f g ↔ IsCopy m s f g := by
  unfold IsCopy
  rw [h]

/-- A call of a block is replaced by the redirected one. -/
theorem progress_setCall (hmade : ClonesMade opts m s) {f : α} {x : α × Nat} (hcopy : IsCopy m s f x.1) {i : Nat}
    {c₀ : CallInst α} (hc₀ : (m.code (f, x.2)).calls[i]? = some c₀) {c : CallInst α}
    (hc : (s.code x).calls[i]? = some c) (hdone : ∀ g, cloneTarget opts m c₀ = some g → g ∈ s.cloned) :
    Progress opts m [x] [] [] s
      (s.modifyBlock x fun b => { b with calls := b.calls.set i (redirected opts m c₀) }) := by
  have hlt : i < (s.code x).calls.length := (List.getElem?_eq_some_iff.mp hc).1
  refine ⟨⟨hmade.cloned_mem, hmade.cloned_nodup, hmade.names_eq, hmade.size_eq, ?_⟩, ?_, ?_, rfl, ?_, ?_, ?_, ?_,
    fun g hg hnew => absurd hg hnew⟩
  · intro g k hk j l
    by_cases hx : (k, j) = x
    · subst hx
      obtain rfl := hk.unique hcopy
      simp only [IRState.modifyBlock, Function.update_self, List.getElem?_set]
      by_cases hl : i = l
      · subst hl
        rw [if_pos rfl, if_pos hlt, hc₀]
        exact .inr ⟨rfl, fun g hg => hdone g (by simpa using hg)⟩
      · rw [if_neg hl]
        exact hmade.calls_kept g k hk j l
    · simp only [IRState.modifyBlock, Function.update_of_ne hx]
      exact hmade.calls_kept g k hk j l
  · rfl
  · exact ⟨[], by simp [IRState.modifyBlock]⟩
  · intro g k _ j hj
    rw [List.mem_singleton] at hj
    simp only [IRState.modifyBlock, Function.update_of_ne hj]
  · intro g k hk j hfin
    refine ⟨?_, hfin.2⟩
    by_cases hx : (k, j) = x
    · subst hx
      obtain rfl := hk.unique hcopy
      have hsame : (s.code (k, j)).calls[i]? = some (redirected opts m c₀) := by
        rw [hfin.1, List.getElem?_map, hc₀, Option.map_some]
      obtain ⟨hlt', hget⟩ := List.getElem?_eq_some_iff.mp hsame
      rw [← hfin.1]
      simp only [IRState.modifyBlock, Function.update_self]
      rw [← hget, List.set_getElem_self]
    · simp only [IRState.modifyBlock, Function.update_of_ne hx]
      exact hfin.1
  · intro g k _ hother j
    have hx : (k, j) ≠ x := fun heq => hother x (List.mem_singleton_self x) (by rw [← heq])
    simp only [IRState.modifyBlock, Function.update_of_ne hx]
  · intro g k _ j
    rw [List.count_nil, Nat.add_zero]
    by_cases hx : (k, j) = x
    · subst hx
      simp only [IRState.modifyBlock, Function.update_self]
    · simp only [IRState.modifyBlock, Function.update_of_ne hx]

end

section

variable [DecidableEq α] {opts : PassOptions} {m : IRModule α} {s s' : IRState α}

/-- One instruction: the call at `i` is redirected, the other calls of the block stay. -/
theorem progress_processInst (hmade : ClonesMade opts m s) {f : α} {x : α × Nat} (hcopy : IsCopy m s f x.1)
    (r i : Nat) :
    Progress opts m [x] [] (((m.code (f, x.2)).calls[i]?.bind (cloneTarget opts m)).toList.map (·, r)) s
        (processInst opts m r x s i) ∧
      ((processInst opts m r x s i).code x).calls[i]? =
        ((m.code (f, x.2)).calls[i]?).map (redirected opts m) ∧
      ∀ k, k ≠ i → ((processInst opts m r x s i).code x).calls[k]? = (s.code x).calls[k]? := by
  have hkept := hmade.calls_kept f x.1 hcopy x.2 i
  unfold processInst
  cases hc : (s.code x).calls[i]? with
  | none =>
    have hc₀ : (m.code (f, x.2)).calls[i]? = none := by
      rw [hc] at hkept
      rcases hkept with heq | ⟨heq, -⟩
      · exact heq.symm
      · exact Option.map_eq_none_iff.mp heq.symm
    rw [hc₀]
    exact ⟨(Progress.refl hmade).weaken fun y hy => absurd hy List.not_mem_nil, hc, fun k _ => rfl⟩
  | some c =>
    obtain ⟨c₀, hc₀⟩ : ∃ c₀, (m.code (f, x.2)).calls[i]? = some c₀ := by
      rw [hc] at hkept
      rcases hkept with heq | ⟨heq, -⟩
      · exact ⟨c, heq.symm⟩
      · obtain ⟨c₀, hc₀, -⟩ := Option.map_eq_some_iff.mp heq.symm
        exact ⟨c₀, hc₀⟩
    have hmem : ∀ g, c₀.calledFunction = some g → g ∈ m.functions :=
      m.calledFunction_mem (f, x.2) c₀ (List.mem_of_getElem? hc₀)
    rw [hc, hc₀] at hkept
    obtain ⟨hfst, hprogress⟩ := progress_processCallInst hmade r hmem hkept
    dsimp only
    rw [hfst, hc₀]
    generalize (processCallInst opts m r c s).2 = s₁ at hprogress ⊢
    have hcalls : (s₁.code x).calls = (s.code x).calls := hprogress.calls_eq f x.1 hcopy x.2 (by simp)
    have hset := progress_setCall hprogress.made (hprogress.isCopy hcopy) hc₀ (hcalls ▸ hc)
      fun g hg => (hprogress.mem_cloned g).mpr (.inr (by simp [hg]))
    refine ⟨?_, ?_, fun k hk => ?_⟩
    · have htrans := hprogress.trans hset
      rwa [List.append_nil, List.nil_append, List.append_nil] at htrans
    · have hlt : i < (s₁.code x).calls.length := hcalls ▸ (List.getElem?_eq_some_iff.mp hc).1
      simp only [IRState.modifyBlock, Function.update_self, Option.map_some]
      exact List.getElem?_set_self hlt
    · simp only [IRState.modifyBlock, Function.update_self, ← hcalls]
      exact List.getElem?_set_ne (Ne.symm hk)

/-- The first `n` instructions. -/
theorem progress_processInsts (hmade : ClonesMade opts m s) {f : α} {x : α × Nat} (hcopy : IsCopy m s f x.1)
    (r n : Nat) :
    Progress opts m (List.replicate n x) []
        ((((m.code (f, x.2)).calls.take n).filterMap (cloneTarget opts m)).map (·, r)) s
        ((List.range n).foldl (processInst opts m r x) s) ∧
      ∀ k < n, (((List.range n).foldl (processInst opts m r x) s).code x).calls[k]? =
        ((m.code (f, x.2)).calls[k]?).map (redirected opts m) := by
  induction n with
  | zero => exact ⟨by simpa using Progress.refl hmade, by simp⟩
  | succ n ih =>
    obtain ⟨hprogress, hcalls⟩ := ih
    rw [List.range_succ, List.foldl_append, List.foldl_cons, List.foldl_nil]
    generalize (List.range n).foldl (processInst opts m r x) s = s₁ at hprogress hcalls ⊢
    obtain ⟨hlast, hself, hother⟩ := progress_processInst hprogress.made (hprogress.isCopy hcopy) r n
    constructor
    · have htargets : ((m.code (f, x.2)).calls.take (n + 1)).filterMap (cloneTarget opts m) =
          ((m.code (f, x.2)).calls.take n).filterMap (cloneTarget opts m) ++
            ((m.code (f, x.2)).calls[n]?.bind (cloneTarget opts m)).toList := by
        rw [List.take_add_one, List.filterMap_append]
        cases (m.code (f, x.2)).calls[n]? with
        | none => rfl
        | some c => cases hc : cloneTarget opts m c <;> simp [hc]
      rw [htargets, List.map_append, List.replicate_succ']
      exact hprogress.trans hlast
    · intro k hk
      by_cases hkn : k = n
      · rw [hkn]
        exact hself
      · rw [hother k hkn]
        exact hcalls k (by omega)

/-- A block is processed: all its calls are redirected, and the functions they ask for have clones. -/
theorem progress_processBlock (hmade : ClonesMade opts m s) {f : α} {x : α × Nat} (hcopy : IsCopy m s f x.1)
    (r : Nat) :
    Progress opts m [x] [] (callAsks opts m r (f, x.2)) s (processBlock opts m r s x) ∧
      Finished opts m (processBlock opts m r s x) f x := by
  have hlength : (s.code x).calls.length = (m.code (f, x.2)).calls.length := by
    refine Nat.le_antisymm ?_ ?_
    · by_contra hlt
      have hkept := hmade.calls_kept f x.1 hcopy x.2 (m.code (f, x.2)).calls.length
      rw [List.getElem?_eq_none (le_refl _)] at hkept
      have hnone : (s.code x).calls[(m.code (f, x.2)).calls.length]? = none := hkept.elim id fun h => h.1
      exact hlt (List.getElem?_eq_none_iff.mp hnone)
    · by_contra hlt
      have hkept := hmade.calls_kept f x.1 hcopy x.2 (s.code x).calls.length
      rw [List.getElem?_eq_none (le_refl _)] at hkept
      have hnone : (m.code (f, x.2)).calls[(s.code x).calls.length]? = none := by
        rcases hkept with heq | ⟨heq, -⟩
        · exact heq.symm
        · exact Option.map_eq_none_iff.mp heq.symm
      exact hlt (List.getElem?_eq_none_iff.mp hnone)
  obtain ⟨hprogress, hcalls⟩ := progress_processInsts hmade hcopy r (s.code x).calls.length
  rw [hlength, List.take_length] at hprogress
  rw [hlength] at hcalls
  unfold processBlock
  rw [hlength]
  generalize (List.range (m.code (f, x.2)).calls.length).foldl (processInst opts m r x) s = s₁ at hprogress hcalls ⊢
  refine ⟨hprogress.weaken fun y hy => List.mem_singleton.mpr (List.eq_of_mem_replicate hy), ?_, fun g hg => ?_⟩
  · refine List.ext_getElem? fun k => ?_
    rw [List.getElem?_map]
    by_cases hk : k < (m.code (f, x.2)).calls.length
    · exact hcalls k hk
    · have hkept := hprogress.made.calls_kept f x.1 (hprogress.isCopy hcopy) x.2 k
      rw [List.getElem?_eq_none (Nat.le_of_not_lt hk)] at hkept ⊢
      exact hkept.elim id fun h => h.1
  · exact (hprogress.mem_cloned g).mpr (.inr (by simpa [callTargets] using hg))

end

/-! ### Instrumenting a region or a clone -/

section

variable [DecidableEq α] {opts : PassOptions} {m : IRModule α} {s s' : IRState α}

/-- A change of the module that leaves the calls and the clones alone. -/
theorem progress_of_calls_eq {blocks tagged : List (α × Nat)} (hmade : ClonesMade opts m s)
    (hmap : s'.cloneFunctionMap = s.cloneFunctionMap)
    (hnames : s'.clonedFunctionNames = s.clonedFunctionNames)
    (hpending : s'.pendingFunctionClones = s.pendingFunctionClones) (hprList : s'.prList = s.prList)
    (hsize : s'.size = s.size) (hcalls : ∀ x, (s'.code x).calls = (s.code x).calls)
    (hevents : ∀ y, (∀ x ∈ blocks, x.1 ≠ y.1) → (s'.code y).events = (s.code y).events)
    (htags : ∀ x, (s'.code x).bbTags.length = (s.code x).bbTags.length + tagged.count x) :
    Progress opts m blocks tagged [] s s' where
  made := by
    have hcloned : s'.cloned = s.cloned := congrArg (List.map Prod.fst) hmap
    refine ⟨hcloned ▸ hmade.cloned_mem, hcloned ▸ hmade.cloned_nodup, by rw [hnames, hcloned, hmade.names_eq], ?_, ?_⟩
    · intro f g hcopy
      rw [hsize]
      exact hmade.size_eq f g ((isCopy_congr hcloned).mp hcopy)
    · intro f g hcopy j i
      rw [hcalls]
      exact (hmade.calls_kept f g ((isCopy_congr hcloned).mp hcopy) j i).mono (by simp [hcloned])
  map_eq := hmap
  found := ⟨[], by simp [hmap], by simp [hpending]⟩
  prList_eq := hprList
  calls_eq := fun f g _ j _ => hcalls (g, j)
  finished := fun f g _ j hfin => hfin.mono (by simp [IRState.cloned, hmap]) (hcalls (g, j)) rfl
  events_eq := fun f g _ hother j => hevents (g, j) hother
  tags_eq := fun f g _ j => htags (g, j)
  tags_new := fun f hf hnew => absurd (by simpa [IRState.cloned, hmap] using hf) hnew

theorem progress_recordTagBlock (hmade : ClonesMade opts m s) {f : α} {x : α × Nat} (hcopy : IsCopy m s f x.1)
    (r : Nat) :
    Progress opts m [x] [x] (callAsks opts m r (f, x.2)) s (recordTagBlock opts m r s x) ∧
      Finished opts m (recordTagBlock opts m r s x) f x := by
  obtain ⟨hprogress, hfinished⟩ := progress_processBlock hmade hcopy r
  unfold recordTagBlock
  generalize processBlock opts m r s x = s₁ at hprogress hfinished ⊢
  have htag : Progress opts m [] [x] [] s₁ (insertBBTag x s₁) := by
    refine progress_of_calls_eq hprogress.made rfl rfl rfl rfl rfl (fun y => ?_) (fun y _ => ?_) fun y => ?_
    · by_cases hy : y = x
      · subst hy
        simp [insertBBTag, IRState.modifyBlock]
      · simp [insertBBTag, IRState.modifyBlock, Function.update_of_ne hy]
    · by_cases hy : y = x
      · subst hy
        simp [insertBBTag, IRState.modifyBlock, Block.events]
      · simp [insertBBTag, IRState.modifyBlock, Function.update_of_ne hy]
    · by_cases hy : y = x
      · subst hy
        simp [insertBBTag, IRState.modifyBlock]
      · simp [insertBBTag, IRState.modifyBlock, Function.update_of_ne hy, Ne.symm hy]
  refine ⟨?_, htag.finished f x.1 (hprogress.isCopy hcopy) x.2 hfinished⟩
  have htrans := hprogress.trans htag
  rwa [List.append_nil, List.append_nil, List.nil_append] at htrans

/-- Blocks of one function or clone, one after the other. -/
theorem progress_foldl {step : IRState α → α × Nat → IRState α} (tag : α × Nat → List (α × Nat)) {r : Nat} {f : α}
    (hstep : ∀ s x, ClonesMade opts m s → IsCopy m s f x.1 →
      Progress opts m [x] (tag x) (callAsks opts m r (f, x.2)) s (step s x) ∧ Finished opts m (step s x) f x)
    (hmade : ClonesMade opts m s) (blocks : List (α × Nat)) (hcopy : ∀ x ∈ blocks, IsCopy m s f x.1) :
    Progress opts m blocks (blocks.flatMap tag) (blocks.flatMap fun x => callAsks opts m r (f, x.2)) s
        (blocks.foldl step s) ∧
      ∀ x ∈ blocks, Finished opts m (blocks.foldl step s) f x := by
  induction blocks generalizing s with
  | nil => exact ⟨.refl hmade, by simp⟩
  | cons x rest ih =>
    obtain ⟨hfirst, hfinished⟩ := hstep s x hmade (hcopy x (by simp))
    have hcopy' : ∀ y ∈ rest, IsCopy m (step s x) f y.1 := fun y hy =>
      hfirst.isCopy (hcopy y (List.mem_cons_of_mem x hy))
    obtain ⟨hrest, hall⟩ := ih hfirst.made hcopy'
    refine ⟨hfirst.trans hrest, fun y hy => ?_⟩
    rcases List.mem_cons.mp hy with rfl | hy
    · exact hrest.finished f y.1 (hfirst.isCopy (hcopy y (by simp))) y.2 hfinished
    · exact hall y hy

theorem progress_emitCounter (hmade : ClonesMade opts m s) (PR : PragmaRegion α (α × Nat)) (isIndirect : Bool) {f : α}
    (c : Counter (α × Nat)) (hcopy : ∀ x ∈ c.blocks, IsCopy m s f x.1) :
    Progress opts m c.blocks c.blocks (c.blocks.flatMap fun x => callAsks opts m PR.pragmaRegionID (f, x.2)) s
        (emitCounter opts m PR isIndirect s c) ∧
      ∀ x ∈ c.blocks, Finished opts m (emitCounter opts m PR isIndirect s c) f x := by
  obtain ⟨hblocks, hfinished⟩ := progress_foldl (fun x => [x])
    (fun s x hs hx => progress_recordTagBlock hs hx PR.pragmaRegionID) hmade c.blocks hcopy
  unfold emitCounter
  dsimp only
  generalize c.blocks.foldl (recordTagBlock opts m PR.pragmaRegionID) s = s₁ at hblocks hfinished ⊢
  have hrecord : Progress opts m [] [] [] s₁
      { s₁ with
        globalCounterEventTotal := s₁.globalCounterEventTotal + 1
        pragmaRegionLog := s₁.pragmaRegionLog ++ [(PR.pragmaRegionID, isIndirect)] } :=
    progress_of_calls_eq hblocks.made rfl rfl rfl rfl rfl (fun x => rfl) (fun x _ => rfl) fun x => by simp
  refine ⟨?_, fun x hx => hrecord.finished f x.1 (hblocks.isCopy (hcopy x hx)) x.2 (hfinished x hx)⟩
  have htrans := hblocks.trans hrecord
  rwa [List.append_nil, List.append_nil, List.append_nil, List.flatMap_singleton'] at htrans

theorem progress_emitCounters (hmade : ClonesMade opts m s) (PR : PragmaRegion α (α × Nat))
    (isIndirect : Bool) {f : α} (counters : List (Counter (α × Nat)))
    (hcopy : ∀ x ∈ counters.flatMap Counter.blocks, IsCopy m s f x.1) :
    Progress opts m (counters.flatMap Counter.blocks) (counters.flatMap Counter.blocks)
        ((counters.flatMap Counter.blocks).flatMap fun x => callAsks opts m PR.pragmaRegionID (f, x.2)) s
        (counters.foldl (emitCounter opts m PR isIndirect) s) ∧
      ∀ x ∈ counters.flatMap Counter.blocks,
        Finished opts m (counters.foldl (emitCounter opts m PR isIndirect) s) f x := by
  induction counters generalizing s with
  | nil => exact ⟨.refl hmade, by simp⟩
  | cons c rest ih =>
    simp only [List.flatMap_cons, List.mem_append] at hcopy ⊢
    obtain ⟨hfirst, hfinished⟩ := progress_emitCounter hmade PR isIndirect c fun x hx => hcopy x (.inl hx)
    obtain ⟨hrest, hall⟩ := ih hfirst.made fun x hx => hfirst.isCopy (hcopy x (.inr hx))
    refine ⟨?_, ?_⟩
    · rw [List.flatMap_append]
      exact hfirst.trans hrest
    · rintro x (hx | hx)
      · exact hrest.finished f x.1 (hfirst.isCopy (hcopy x (.inl hx))) x.2 (hfinished x hx)
      · exact hall x hx

/-- The entry and exit calls go to blocks of the region's function. -/
theorem progress_insertTimerEvents (hmade : ClonesMade opts m s) (PR : PragmaRegion α (α × Nat)) (isIndirect : Bool)
    (hF : ∀ x ∈ PR.bbList, x.1 = PR.F) {y : α × Nat} (hy : y ∈ PR.bbList) :
    Progress opts m [y] [] [] s (insertTimerEvents m PR isIndirect s) := by
  have hmodify : ∀ (s : IRState α) (x : α × Nat), x.1 = PR.F → ClonesMade opts m s → Progress opts m [y] [] [] s
      (s.modifyBlock x fun b => { b with startEvents := PR.pragmaRegionID :: b.startEvents }) := by
    intro s x hx hs
    refine progress_of_calls_eq hs rfl rfl rfl rfl rfl (fun z => ?_) (fun z hz => ?_) fun z => ?_
    · by_cases hzx : z = x
      · subst hzx
        simp [IRState.modifyBlock]
      · simp [IRState.modifyBlock, Function.update_of_ne hzx]
    · have hzx : z ≠ x := by
        rintro rfl
        exact hz y (List.mem_singleton_self y) ((hF y hy).trans hx.symm)
      simp [IRState.modifyBlock, Function.update_of_ne hzx]
    · by_cases hzx : z = x
      · subst hzx
        simp [IRState.modifyBlock]
      · simp [IRState.modifyBlock, Function.update_of_ne hzx]
  have hrefl : Progress opts m [y] [] [] s s := (Progress.refl hmade).weaken fun x hx => absurd hx List.not_mem_nil
  unfold insertTimerEvents
  split
  · split
    · exact hrefl
    · rename_i x hbegin
      exact hmodify _ _ (hF x (mem_of_regionBeginBlock hbegin)) hmade
  · split
    · have hends : Progress opts m [y] [] [] s
          { s with
            code := fun x =>
              if x.1 = PR.F ∧ (s.code x).isReturn then
                { s.code x with endEvents := (s.code x).endEvents ++ [PR.pragmaRegionID] }
              else s.code x } := by
        refine progress_of_calls_eq hmade rfl rfl rfl rfl rfl (fun x => ?_) (fun x hx => ?_) fun x => ?_
        · dsimp only
          split <;> rfl
        · have hne : x.1 ≠ PR.F := fun heq => hx y (List.mem_singleton_self y) ((hF y hy).trans heq.symm)
          simp [hne]
        · dsimp only
          split <;> rfl
      have htrans := hends.trans (hmodify _ (PR.F, 0) rfl hends.made)
      exact htrans.weaken fun x hx => by simpa using hx
    · exact hrefl

/-- The clone of a microtask: its entry block enters the region first, and every return leaves it last. -/
theorem events_insertTimerEvents (PR : PragmaRegion α (α × Nat)) (homp : m.startsWithOmp PR.F = true)
    (s : IRState α) :
    ((insertTimerEvents m PR true s).code (PR.F, 0)).startEvents.head? = some PR.pragmaRegionID ∧
      ∀ j, ((insertTimerEvents m PR true s).code (PR.F, j)).isReturn = true →
        ((insertTimerEvents m PR true s).code (PR.F, j)).endEvents.getLast? = some PR.pragmaRegionID := by
  simp only [insertTimerEvents, homp, Bool.not_true, Bool.false_eq_true, if_false, if_true, IRState.modifyBlock]
  refine ⟨by simp, fun j => ?_⟩
  by_cases hj : j = 0
  · subst hj
    simp only [Function.update_self, true_and]
    split
    · simp
    · rename_i hreturn
      exact fun h => absurd h hreturn
  · have hne : ((PR.F, j) : α × Nat) ≠ (PR.F, 0) := by simpa using hj
    simp only [Function.update_of_ne hne, true_and]
    split
    · simp
    · rename_i hreturn
      exact fun h => absurd h hreturn

/-- Blocks are compared as pairs or by decidable equality. -/
private theorem count_pair (x : α × Nat) (l : List (α × Nat)) :
    @List.count _ instBEqOfDecidableEq x l = l.count x := by
  rw [lawful_beq_subsingleton (instBEqOfDecidableEq : BEq (α × Nat)) instBEqProd]

theorem recorded_eq_count (x : α × Nat) (counters : List (Counter (α × Nat))) :
    recorded x counters = (counters.flatMap Counter.blocks).count x :=
  count_pair x _

omit [DecidableEq α] in
theorem analysisOf_wellFormed (m : IRModule α) (isIndirect : Bool) (PR : PragmaRegion α (α × Nat)) :
    LoopsWellFormed (m.analysisOf isIndirect PR).loopInfo := by
  unfold IRModule.analysisOf
  split
  · exact m.cloneLoops_wellFormed PR.F
  · exact m.loops_wellFormed PR

/-- The counters of a region end up in the module, whatever its loops. -/
theorem counters_eq (opts : PassOptions) (m : IRModule α) (isIndirect : Bool) {PR : PragmaRegion α (α × Nat)}
    {counters : List (Counter (α × Nat))}
    (h : InstrumentPragmaRegion opts (m.analysisOf isIndirect PR) PR.bbList = some counters) :
    m.counters opts isIndirect PR = counters := by
  rw [IRModule.counters, h, Option.getD_some]

/-- The counters of a region record each block that gets a counter once, and no other. -/
theorem count_counters (opts : PassOptions) (m : IRModule α) (isIndirect : Bool) (PR : PragmaRegion α (α × Nat))
    (hnodup : PR.bbList.Nodup) (x : α × Nat) :
    (Counted opts (m.analysisOf isIndirect PR) PR.bbList x →
        ((m.counters opts isIndirect PR).flatMap Counter.blocks).count x = 1) ∧
      (¬ Counted opts (m.analysisOf isIndirect PR) PR.bbList x →
        ((m.counters opts isIndirect PR).flatMap Counter.blocks).count x = 0) := by
  obtain ⟨counters, hcounters, hrecorded⟩ :=
    recorded_eq opts _ (analysisOf_wellFormed m isIndirect PR) PR.bbList hnodup
  rw [counters_eq opts m isIndirect hcounters, ← recorded_eq_count]
  exact hrecorded x

/-- The counters of a region record blocks of its list only. -/
theorem mem_bbList_of_counters {isIndirect : Bool} {PR : PragmaRegion α (α × Nat)} {x : α × Nat}
    (hx : x ∈ (m.counters opts isIndirect PR).flatMap Counter.blocks) : x ∈ PR.bbList := by
  obtain ⟨counters, hcounters, hle⟩ := recorded_le_count opts _ (analysisOf_wellFormed m isIndirect PR) PR.bbList
  rw [counters_eq opts m isIndirect hcounters] at hx
  have hpos : 0 < recorded x counters := by
    rw [recorded_eq_count]
    exact List.count_pos_iff.mpr hx
  have hlisted := Nat.lt_of_lt_of_le hpos (hle x)
  rw [count_pair] at hlisted
  exact List.count_pos_iff.mp hlisted

/-- `InstrumentPragmaRegion` on a region of a function, or on the body of its clone. -/
theorem progress_instrumentPragmaRegion (hmade : ClonesMade opts m s) (PR : PragmaRegion α (α × Nat))
    (isIndirect : Bool) (hF : ∀ x ∈ PR.bbList, x.1 = PR.F) {f : α} (hcopy : ∀ x ∈ PR.bbList, IsCopy m s f x.1) :
    Progress opts m PR.bbList ((m.counters opts isIndirect PR).flatMap Counter.blocks)
        (((m.counters opts isIndirect PR).flatMap Counter.blocks).flatMap
          fun x => callAsks opts m PR.pragmaRegionID (f, x.2)) s
        (instrumentPragmaRegion opts m isIndirect s PR) ∧
      ∀ x ∈ (m.counters opts isIndirect PR).flatMap Counter.blocks,
        Finished opts m (instrumentPragmaRegion opts m isIndirect s PR) f x := by
  unfold instrumentPragmaRegion
  by_cases hnil : PR.bbList = []
  · have hcounters : m.counters opts isIndirect PR = [] := by simp [IRModule.counters, InstrumentPragmaRegion, hnil]
    rw [hcounters, hnil]
    exact ⟨.refl hmade, by simp⟩
  · rw [if_neg (by simpa using hnil)]
    have hcopy' : ∀ x ∈ (m.counters opts isIndirect PR).flatMap Counter.blocks, IsCopy m s f x.1 := fun x hx =>
      hcopy x (mem_bbList_of_counters hx)
    obtain ⟨hcounters, hfinished⟩ := progress_emitCounters hmade PR isIndirect (m.counters opts isIndirect PR) hcopy'
    obtain ⟨y, hy⟩ := List.exists_mem_of_ne_nil _ hnil
    have htimers := progress_insertTimerEvents hcounters.made PR isIndirect hF hy
    refine ⟨?_, fun x hx => htimers.finished f x.1 (hcounters.isCopy (hcopy' x hx)) x.2 (hfinished x hx)⟩
    have htrans := hcounters.trans htimers
    simp only [List.append_nil] at htrans
    refine htrans.weaken fun x hx => ?_
    rcases List.mem_append.mp hx with hx | hx
    · exact mem_bbList_of_counters hx
    · exact List.mem_singleton.mp hx ▸ hy

end

end ZRay.Pass.Clones
