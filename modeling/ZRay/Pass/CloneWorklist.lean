import ZRay.Pass.ClonedCalls

/-!
# The worklist of clones

The three phases of `runOnModule`.  The calls of the region blocks ask for the first clones; instrumenting the regions
asks for none (`progress_regions`); instrumenting a clone asks for the functions its recorded blocks call
(`CloneLoop.visit`).  Each function has one clone and there are finitely many, so the worklist empties.
-/

namespace ZRay.Pass.Clones

variable {α : Type*}

/-! ### The three phases -/

section

variable [DecidableEq α] {opts : PassOptions} {m : IRModule α} {s s' : IRState α}

/-- The blocks of all regions. -/
def IRModule.regionBlocks (m : IRModule α) : List (α × Nat) := m.prList.flatMap PragmaRegion.bbList

/-- The functions that the calls of the region blocks ask for. -/
def IRModule.regionTargets (opts : PassOptions) (m : IRModule α) : List α :=
  m.regionBlocks.flatMap (callTargets opts m)

/-- These functions with the regions, in the order in which the regions ask. -/
def IRModule.regionAsks (opts : PassOptions) (m : IRModule α) : List (α × Nat) :=
  m.prList.flatMap fun PR => PR.bbList.flatMap (callAsks opts m PR.pragmaRegionID)

/-- The blocks that the counters of the regions record, each as often as they do. -/
def IRModule.regionTags (opts : PassOptions) (m : IRModule α) : List (α × Nat) :=
  m.prList.flatMap fun PR => (m.counters opts false PR).flatMap Counter.blocks

omit [DecidableEq α] in
theorem fst_mem_functions_of_regionBlocks {x : α × Nat} (hx : x ∈ m.regionBlocks) : x.1 ∈ m.functions := by
  obtain ⟨PR, hPR, hxPR⟩ := List.mem_flatMap.mp hx
  rw [(m.prList_blocks PR hPR).2 x hxPR]
  exact (m.prList_blocks PR hPR).1

theorem clonesMade_initial (opts : PassOptions) (m : IRModule α) : ClonesMade opts m m.initial := by
  have hnone : ∀ f, f ∉ m.initial.cloned := fun f => List.not_mem_nil
  refine ⟨fun f hf => absurd hf (hnone f), List.nodup_nil, rfl, ?_, ?_⟩
  · rintro f g ⟨-, rfl | ⟨hf, -⟩⟩
    · rfl
    · exact absurd hf (hnone f)
  · rintro f g ⟨-, rfl | ⟨hf, -⟩⟩ j i
    · exact .inl rfl
    · exact absurd hf (hnone f)

/-- When every function asked for has a clone, none is made. -/
theorem Progress.cloned_eq {blocks tagged asks : List (α × Nat)} (h : Progress opts m blocks tagged asks s s')
    (hsub : ∀ ask ∈ asks, ask.1 ∈ s.cloned) :
    s'.cloneFunctionMap = s.cloneFunctionMap ∧ s'.pendingFunctionClones = s.pendingFunctionClones := by
  have hsame : s'.cloneFunctionMap = s.cloneFunctionMap := h.map_eq.trans (addLabels_eq_self hsub)
  obtain ⟨new, hmap, hpending⟩ := h.found
  have hnil : new = [] := by
    rw [hsame] at hmap
    exact List.self_eq_append_right.mp hmap
  exact ⟨hsame, by simpa [hnil] using hpending⟩

/-- The first loop: the calls of the region blocks. -/
theorem progress_regionCalls (prs : List (PragmaRegion α (α × Nat)))
    (hprs : ∀ PR ∈ prs, PR.F ∈ m.functions ∧ ∀ x ∈ PR.bbList, x.1 = PR.F) (hmade : ClonesMade opts m s) :
    Progress opts m (prs.flatMap PragmaRegion.bbList) []
        (prs.flatMap fun PR => PR.bbList.flatMap (callAsks opts m PR.pragmaRegionID)) s
        (prs.foldl (fun s PR => PR.bbList.foldl (processBlock opts m PR.pragmaRegionID) s) s) ∧
      ∀ x ∈ prs.flatMap PragmaRegion.bbList,
        Finished opts m (prs.foldl (fun s PR => PR.bbList.foldl (processBlock opts m PR.pragmaRegionID) s) s)
          x.1 x := by
  induction prs generalizing s with
  | nil => exact ⟨.refl hmade, by simp⟩
  | cons PR rest ih =>
    obtain ⟨hF, hblocks⟩ := hprs PR (by simp)
    have hcopy : ∀ x ∈ PR.bbList, IsCopy m s PR.F x.1 := fun x hx => ⟨hF, .inl (hblocks x hx)⟩
    obtain ⟨hfirst, hfinished⟩ := progress_foldl (fun _ => [])
      (fun s x hs hx => progress_processBlock hs hx PR.pragmaRegionID) hmade PR.bbList hcopy
    have hasks : (PR.bbList.flatMap fun x => callAsks opts m PR.pragmaRegionID (PR.F, x.2)) =
        PR.bbList.flatMap (callAsks opts m PR.pragmaRegionID) := by
      refine List.flatMap_congr fun x hx => ?_
      rw [← hblocks x hx]
    have hnotag : (PR.bbList.flatMap fun _ => ([] : List (α × Nat))) = [] := by simp
    rw [hasks, hnotag] at hfirst
    obtain ⟨hrest, hall⟩ := ih (fun PR' hPR' => hprs PR' (List.mem_cons_of_mem PR hPR')) hfirst.made
    rw [List.flatMap_cons, List.flatMap_cons, List.foldl_cons]
    refine ⟨hfirst.trans hrest, fun x hx => ?_⟩
    rcases List.mem_append.mp hx with hx | hx
    · have hxF := hblocks x hx
      refine hrest.finished x.1 x.1 (.function (hxF ▸ hF)) x.2 ?_
      rw [hxF]
      exact hxF ▸ hfinished x hx
    · exact hall x hx

/-- The second loop: the regions are instrumented.  All their calls are processed, so no clone is made. -/
theorem progress_regions (prs : List (PragmaRegion α (α × Nat)))
    (hprs : ∀ PR ∈ prs, PR.F ∈ m.functions ∧ ∀ x ∈ PR.bbList, x.1 = PR.F) (hmade : ClonesMade opts m s)
    (htargets : ∀ x ∈ prs.flatMap PragmaRegion.bbList, ∀ f ∈ callTargets opts m x, f ∈ s.cloned) :
    ∃ asks, (∀ ask ∈ asks, ask.1 ∈ s.cloned) ∧
      Progress opts m (prs.flatMap PragmaRegion.bbList)
        (prs.flatMap fun PR => (m.counters opts false PR).flatMap Counter.blocks) asks s
        (prs.foldl (instrumentPragmaRegion opts m false) s) := by
  induction prs generalizing s with
  | nil => exact ⟨[], by simp, .refl hmade⟩
  | cons PR rest ih =>
    obtain ⟨hF, hblocks⟩ := hprs PR (by simp)
    obtain ⟨hfirst, -⟩ := progress_instrumentPragmaRegion (f := PR.F) hmade PR false hblocks
      fun x hx => ⟨hF, .inl (hblocks x hx)⟩
    rw [List.flatMap_cons] at htargets
    have hsub : ∀ ask ∈ ((m.counters opts false PR).flatMap Counter.blocks).flatMap
        fun x => callAsks opts m PR.pragmaRegionID (PR.F, x.2), ask.1 ∈ s.cloned := by
      intro ask hask
      obtain ⟨x, hx, haskx⟩ := List.mem_flatMap.mp hask
      obtain ⟨f, hf, rfl⟩ := List.mem_map.mp haskx
      have hmem := mem_bbList_of_counters hx
      rw [← hblocks x hmem] at hf
      exact htargets x (List.mem_append_left _ hmem) f hf
    obtain ⟨asks, hasks, hrest⟩ := ih (fun PR' hPR' => hprs PR' (List.mem_cons_of_mem PR hPR')) hfirst.made
      fun x hx f hf => hfirst.cloned_subset f (htargets x (List.mem_append_right _ hx) f hf)
    refine ⟨_, ?_, hfirst.trans hrest⟩
    have hcloned : (instrumentPragmaRegion opts m false s PR).cloned = s.cloned :=
      congrArg (List.map Prod.fst) (hfirst.cloned_eq hsub).1
    intro ask hask
    rcases List.mem_append.mp hask with hask | hask
    · exact hsub ask hask
    · exact hcloned ▸ hasks ask hask

/-- The module when the worklist loop starts: the functions that the region blocks ask for have clones, all pending;
the region blocks are finished and tagged. -/
structure RegionsDone (opts : PassOptions) (m : IRModule α) (s : IRState α) : Prop where
  made : ClonesMade opts m s
  map_eq : s.cloneFunctionMap = addLabels [] (m.regionAsks opts)
  pending_eq : s.pendingFunctionClones = s.cloned
  prList_eq : s.prList = m.prList
  finished : ∀ x ∈ m.regionBlocks, Finished opts m s x.1 x
  calls_eq : ∀ f ∈ m.functions, ∀ j, (f, j) ∉ m.regionBlocks → (s.code (f, j)).calls = (m.code (f, j)).calls
  tags_function : ∀ f ∈ m.functions, ∀ j, (s.code (f, j)).bbTags.length = (m.regionTags opts).count (f, j)
  tags_clone : ∀ f ∈ s.cloned, ∀ j, (s.code (m.cloneName f, j)).bbTags.length = 0

theorem map_fst_regionAsks : (m.regionAsks opts).map Prod.fst = m.regionTargets opts := by
  simp only [IRModule.regionAsks, IRModule.regionTargets, IRModule.regionBlocks, callAsks, List.map_flatMap,
    List.map_map, Function.comp_def, List.map_id', List.flatMap_assoc]

theorem RegionsDone.mem_cloned (h : RegionsDone opts m s) (f : α) : f ∈ s.cloned ↔ f ∈ m.regionTargets opts := by
  rw [IRState.cloned, h.map_eq, mem_keys_addLabels, map_fst_regionAsks]
  simp

theorem regionsDone (opts : PassOptions) (m : IRModule α) :
    RegionsDone opts m
      (m.prList.foldl (instrumentPragmaRegion opts m false) (processRegionCalls opts m m.initial)) := by
  obtain ⟨hcalls, hfinished⟩ := progress_regionCalls m.prList m.prList_blocks (clonesMade_initial opts m)
  change Progress opts m m.regionBlocks [] (m.regionAsks opts) m.initial (processRegionCalls opts m m.initial)
    at hcalls
  change ∀ x ∈ m.regionBlocks, Finished opts m (processRegionCalls opts m m.initial) x.1 x at hfinished
  generalize processRegionCalls opts m m.initial = s₁ at hcalls hfinished ⊢
  obtain ⟨asks, hsub, hregions⟩ := progress_regions m.prList m.prList_blocks hcalls.made
    fun x hx f hf => (hfinished x hx).2 f hf
  change Progress opts m m.regionBlocks (m.regionTags opts) asks s₁ _ at hregions
  generalize m.prList.foldl (instrumentPragmaRegion opts m false) s₁ = s₂ at hregions ⊢
  obtain ⟨hmap, hpending⟩ := hregions.cloned_eq hsub
  have hcloned : s₂.cloned = s₁.cloned := congrArg (List.map Prod.fst) hmap
  have hfun : ∀ x ∈ m.regionBlocks, x.1 ∈ m.functions := fun x hx => fst_mem_functions_of_regionBlocks hx
  refine ⟨hregions.made, hmap.trans hcalls.map_eq, ?_, hregions.prList_eq.trans hcalls.prList_eq, ?_, ?_, ?_, ?_⟩
  · obtain ⟨new, hnew, hnew'⟩ := hcalls.cloned_found
    rw [hpending, hcloned, hnew, hnew']
    rfl
  · exact fun x hx => hregions.finished x.1 x.1 (.function (hfun x hx)) x.2 (hfinished x hx)
  · intro f hf j hj
    rw [hregions.calls_eq f f (.function hf) j hj, hcalls.calls_eq f f (.function hf) j hj]
    rfl
  · intro f hf j
    have hnil : (m.initial.code (f, j)).bbTags = [] := m.bbTags_nil (f, j)
    rw [hregions.tags_eq f f (.function hf) j, hcalls.tags_eq f f (.function hf) j, List.count_nil, hnil]
    simp
  · intro f hf j
    have hf₁ : f ∈ s₁.cloned := hcloned ▸ hf
    have hclone : IsCopy m s₁ f (m.cloneName f) := ⟨hcalls.made.cloned_mem f hf₁, .inr ⟨hf₁, rfl⟩⟩
    have hnotag : (m.cloneName f, j) ∉ m.regionTags opts := by
      intro h
      obtain ⟨PR, hPR, hx⟩ := List.mem_flatMap.mp h
      have hmem : (m.cloneName f, j) ∈ m.regionBlocks :=
        List.mem_flatMap.mpr ⟨PR, hPR, mem_bbList_of_counters hx⟩
      exact m.cloneName_notMem f hclone.1 (hfun _ hmem)
    have hnil : (m.initial.code (f, j)).bbTags = [] := m.bbTags_nil (f, j)
    rw [hregions.tags_eq f _ hclone j, List.count_eq_zero_of_not_mem hnotag, Nat.add_zero,
      hcalls.tags_new f hf₁ List.not_mem_nil (by simp) j, hnil, List.length_nil]

end

/-! ### The worklist -/

section

variable [DecidableEq α] {opts : PassOptions} {m : IRModule α} {s s' : IRState α}

/-- The blocks that the counters of the clone of `f` record, each as often as they do. -/
def IRModule.cloneTags (opts : PassOptions) (m : IRModule α) (f : α) : List (α × Nat) :=
  (m.counters opts true ⟨0, 0, m.cloneName f, m.orderBasicBlocks (m.cloneName f)⟩).flatMap Counter.blocks

theorem flatMap_counters_clonePR (f : α) (s : IRState α) :
    (m.counters opts true (clonePR m f s)).flatMap Counter.blocks = m.cloneTags opts f := rfl

/-- The functions that the recorded blocks of the clone of `f` ask for. -/
def IRModule.cloneTargets (opts : PassOptions) (m : IRModule α) (f : α) : List α :=
  (m.cloneTags opts f).flatMap fun x => callTargets opts m (f, x.2)

theorem fst_of_mem_cloneTags {f : α} {x : α × Nat} (hx : x ∈ m.cloneTags opts f) : x.1 = m.cloneName f :=
  m.orderBasicBlocks_fst _ x (mem_bbList_of_counters hx)

/-- Block `j` of the clone of `f` gets a counter when the clone is instrumented. -/
def IRModule.CloneCounts (opts : PassOptions) (m : IRModule α) (f : α) (j : Nat) : Prop :=
  Counted opts (m.cloneAnalysis (m.cloneName f)) (m.orderBasicBlocks (m.cloneName f)) (m.cloneName f, j)

theorem count_cloneTags (opts : PassOptions) (m : IRModule α) (f : α) (j : Nat) :
    (m.CloneCounts opts f j → (m.cloneTags opts f).count (m.cloneName f, j) = 1) ∧
      (¬ m.CloneCounts opts f j → (m.cloneTags opts f).count (m.cloneName f, j) = 0) :=
  count_counters opts m true ⟨0, 0, m.cloneName f, m.orderBasicBlocks (m.cloneName f)⟩
    (m.orderBasicBlocks_nodup _) (m.cloneName f, j)

theorem mem_cloneTags_iff (f : α) (j : Nat) : (m.cloneName f, j) ∈ m.cloneTags opts f ↔ m.CloneCounts opts f j := by
  obtain ⟨hone, hzero⟩ := count_cloneTags opts m f j
  rw [← List.count_pos_iff]
  by_cases h : m.CloneCounts opts f j
  · rw [hone h]
    exact iff_of_true Nat.one_pos h
  · rw [hzero h]
    exact iff_of_false (Nat.lt_irrefl 0) h

theorem mem_cloneTargets_iff {f g : α} :
    g ∈ m.cloneTargets opts f ↔ ∃ j, m.CloneCounts opts f j ∧ g ∈ callTargets opts m (f, j) := by
  unfold IRModule.cloneTargets
  rw [List.mem_flatMap]
  constructor
  · rintro ⟨x, hx, hg⟩
    refine ⟨x.2, (mem_cloneTags_iff f x.2).mp ?_, hg⟩
    rwa [← fst_of_mem_cloneTags hx]
  · rintro ⟨j, hj, hg⟩
    exact ⟨(m.cloneName f, j), (mem_cloneTags_iff f j).mpr hj, hg⟩

/-- The functions that the region blocks ask for, and those that the counted blocks of a clone ask for. -/
inductive Reached (opts : PassOptions) (m : IRModule α) : α → Prop
  | region {f : α} : f ∈ m.regionTargets opts → Reached opts m f
  | clone {f g : α} {j : Nat} : Reached opts m f → m.CloneCounts opts f j → g ∈ callTargets opts m (f, j) →
      Reached opts m g

/-- The clone of the microtask `f` enters the region `r` at its entry block and leaves it at every return. -/
def MicrotaskEvents (m : IRModule α) (s : IRState α) (f : α) (r : Nat) : Prop :=
  (s.code (m.cloneName f, 0)).startEvents.head? = some r ∧
    ∀ j, (s.code (m.cloneName f, j)).isReturn = true → (s.code (m.cloneName f, j)).endEvents.getLast? = some r

omit [DecidableEq α] in
theorem MicrotaskEvents.congr {f : α} {r : Nat} (h : MicrotaskEvents m s f r)
    (heq : ∀ j, (s'.code (m.cloneName f, j)).events = (s.code (m.cloneName f, j)).events) :
    MicrotaskEvents m s' f r := by
  simp only [Block.events, Prod.mk.injEq] at heq
  refine ⟨(heq 0).1 ▸ h.1, fun j hj => ?_⟩
  rw [(heq j).2.1]
  exact h.2 j ((heq j).2.2 ▸ hj)

/-- The module after the clones of the functions `done` were instrumented. -/
structure CloneLoop (opts : PassOptions) (m : IRModule α) (done : List α) (s : IRState α) : Prop where
  made : ClonesMade opts m s
  cloned_eq : s.cloned = done ++ s.pendingFunctionClones
  map_eq : ∀ fuel, spread (m.cloneTargets opts) fuel done.length s.cloneFunctionMap =
    spread (m.cloneTargets opts) (fuel + done.length) 0 (addLabels [] (m.regionAsks opts))
  prList_eq : s.prList = m.prList ++ done.map fun f => clonePR m f s
  regionTargets_cloned : ∀ f ∈ m.regionTargets opts, f ∈ s.cloned
  reached : ∀ f ∈ s.cloned, Reached opts m f
  regions_finished : ∀ x ∈ m.regionBlocks, Finished opts m s x.1 x
  clones_finished : ∀ f ∈ done, ∀ x ∈ m.cloneTags opts f, Finished opts m s f x
  calls_eq : ∀ f ∈ m.functions, ∀ j, (f, j) ∉ m.regionBlocks → (s.code (f, j)).calls = (m.code (f, j)).calls
  tags_function : ∀ f ∈ m.functions, ∀ j, (s.code (f, j)).bbTags.length = (m.regionTags opts).count (f, j)
  events : ∀ f ∈ done, m.startsWithOmp (m.cloneName f) = true → 0 < m.size f →
    MicrotaskEvents m s f (clonePR m f s).pragmaRegionID
  tags_clone : ∀ f ∈ s.cloned, ∀ j, (s.code (m.cloneName f, j)).bbTags.length =
    (if f ∈ m.regionTargets opts then 0 else (m.regionTags opts).count (f, j)) +
      if f ∈ done then (m.cloneTags opts f).count (m.cloneName f, j) else 0

theorem RegionsDone.cloneLoop (h : RegionsDone opts m s) : CloneLoop opts m [] s where
  made := h.made
  cloned_eq := h.pending_eq.symm
  map_eq := fun fuel => by rw [h.map_eq, List.length_nil, Nat.add_zero]
  prList_eq := by simpa using h.prList_eq
  regionTargets_cloned := fun f hf => (h.mem_cloned f).mpr hf
  reached := fun f hf => .region ((h.mem_cloned f).mp hf)
  regions_finished := h.finished
  clones_finished := fun f hf => absurd hf List.not_mem_nil
  calls_eq := h.calls_eq
  tags_function := h.tags_function
  events := fun f hf => absurd hf List.not_mem_nil
  tags_clone := by
    intro f hf j
    rw [h.tags_clone f hf j, if_pos ((h.mem_cloned f).mp hf), if_neg List.not_mem_nil]

/-- The first region that asked for a clone stays. -/
theorem clonePR_eq (h : ∃ new, s'.cloneFunctionMap = s.cloneFunctionMap ++ new) {f : α} (hf : f ∈ s.cloned) :
    clonePR m f s' = clonePR m f s := by
  obtain ⟨new, hmap⟩ := h
  obtain ⟨r, hr⟩ := exists_lookup_eq_some hf
  simp [clonePR, hmap, List.lookup_append, hr]

/-- An entry of the map has the region of its clone. -/
theorem getElem?_cloneFunctionMap (hnodup : s.cloned.Nodup) {i : Nat} {key : α} (hkey : s.cloned[i]? = some key) :
    s.cloneFunctionMap[i]? = some (key, (clonePR m key s).pragmaRegionID) := by
  rw [IRState.cloned, List.getElem?_map, Option.map_eq_some_iff] at hkey
  obtain ⟨entry, hentry, rfl⟩ := hkey
  rw [hentry, clonePR, lookup_of_mem hnodup (List.mem_of_getElem? hentry)]
  rfl

/-- `s'` is `s` with the clone of `key` instrumented: its recorded blocks are processed and tagged, no other body
changes, and the functions its calls ask for have clones. -/
structure CloneInstrumented (opts : PassOptions) (m : IRModule α) (key : α) (s s' : IRState α) : Prop where
  made : ClonesMade opts m s'
  map_eq : s'.cloneFunctionMap =
    addLabels s.cloneFunctionMap ((m.cloneTargets opts key).map (·, (clonePR m key s).pragmaRegionID))
  found : ∃ new, s'.cloneFunctionMap = s.cloneFunctionMap ++ new ∧
    s'.pendingFunctionClones = (s.pendingFunctionClones ++ new.map Prod.fst).erase key
  prList_eq : s'.prList = s.prList ++ [clonePR m key s]
  calls_eq : ∀ f g, IsCopy m s f g → g ≠ m.cloneName key → ∀ j, (s'.code (g, j)).calls = (s.code (g, j)).calls
  finished : ∀ f g, IsCopy m s f g → ∀ j, Finished opts m s f (g, j) → Finished opts m s' f (g, j)
  clone_finished : ∀ x ∈ m.cloneTags opts key, Finished opts m s' key x
  tags_eq : ∀ f g, IsCopy m s f g → ∀ j,
    (s'.code (g, j)).bbTags.length = (s.code (g, j)).bbTags.length + (m.cloneTags opts key).count (g, j)
  tags_new : ∀ f ∈ s'.cloned, f ∉ s.cloned → ∀ j,
    (s'.code (m.cloneName f, j)).bbTags.length = (s.code (f, j)).bbTags.length
  events_eq : ∀ f g, IsCopy m s f g → g ≠ m.cloneName key → ∀ j, (s'.code (g, j)).events = (s.code (g, j)).events
  clone_events : m.startsWithOmp (m.cloneName key) = true → 0 < m.size key →
    MicrotaskEvents m s' key (clonePR m key s).pragmaRegionID

theorem CloneInstrumented.mem_cloned {key : α} (h : CloneInstrumented opts m key s s') (f : α) :
    f ∈ s'.cloned ↔ f ∈ s.cloned ∨ f ∈ m.cloneTargets opts key := by
  rw [IRState.cloned, h.map_eq, mem_keys_addLabels]
  simp [IRState.cloned]

theorem cloneInstrumented (hmade : ClonesMade opts m s) {key : α} (hkey : key ∈ s.cloned) :
    CloneInstrumented opts m key s (instrumentClone opts m s key) := by
  have hkeyfun : key ∈ m.functions := hmade.cloned_mem key hkey
  let s₀ := { s with prList := s.prList ++ [clonePR m key s] }
  have hmade₀ : ClonesMade opts m s₀ :=
    ⟨hmade.cloned_mem, hmade.cloned_nodup, hmade.names_eq, hmade.size_eq, hmade.calls_kept⟩
  have hcopy : ∀ x ∈ (clonePR m key s).bbList, IsCopy m s₀ key x.1 := fun x hx =>
    ⟨hkeyfun, .inr ⟨hkey, m.orderBasicBlocks_fst _ x hx⟩⟩
  obtain ⟨hprogress, hfinished⟩ :=
    progress_instrumentPragmaRegion hmade₀ (clonePR m key s) true
      (m.orderBasicBlocks_fst _) hcopy
  rw [flatMap_counters_clonePR] at hprogress hfinished
  have hevents : m.startsWithOmp (m.cloneName key) = true → 0 < m.size key →
      MicrotaskEvents m (instrumentPragmaRegion opts m true s₀ (clonePR m key s)) key
        (clonePR m key s).pragmaRegionID := by
    intro homp hsize
    have hbody : (clonePR m key s).bbList ≠ [] := List.ne_nil_of_mem (m.orderBasicBlocks_entry key hkeyfun hsize)
    rw [instrumentPragmaRegion, if_neg (by simpa using hbody)]
    exact events_insertTimerEvents (clonePR m key s) homp _
  change CloneInstrumented opts m key s
    { instrumentPragmaRegion opts m true s₀ (clonePR m key s) with
      pendingFunctionClones :=
        (instrumentPragmaRegion opts m true s₀ (clonePR m key s)).pendingFunctionClones.erase key }
  generalize instrumentPragmaRegion opts m true s₀ (clonePR m key s) = s₁ at hprogress hfinished hevents ⊢
  obtain ⟨new, hmap, hpending⟩ := hprogress.found
  refine ⟨⟨hprogress.made.cloned_mem, hprogress.made.cloned_nodup, hprogress.made.names_eq, hprogress.made.size_eq,
    hprogress.made.calls_kept⟩, ?_, ⟨new, hmap, by rw [hpending]⟩, hprogress.prList_eq, ?_, ?_, hfinished, ?_, ?_,
    ?_, hevents⟩
  · rw [IRModule.cloneTargets, List.map_flatMap]
    exact hprogress.map_eq
  · intro f g hfg hne j
    exact hprogress.calls_eq f g hfg j fun hmem => hne (m.orderBasicBlocks_fst _ _ hmem)
  · intro f g hfg j hfin
    exact hprogress.finished f g hfg j hfin
  · intro f g hfg j
    exact hprogress.tags_eq f g hfg j
  · intro f hf hold j
    have hffun : f ∈ m.functions := hprogress.made.cloned_mem f hf
    refine hprogress.tags_new f hf hold (fun i => ⟨fun hmem => ?_, fun hmem => ?_⟩) j
    · have hname : f = m.cloneName key := fst_of_mem_cloneTags hmem
      exact m.cloneName_notMem key hkeyfun (hname ▸ hffun)
    · have hname : m.cloneName f = m.cloneName key := fst_of_mem_cloneTags hmem
      exact hold (m.cloneName_inj f hffun key hkeyfun hname ▸ hkey)
  · intro f g hfg hne j
    refine hprogress.events_eq f g hfg (fun x hx heq => hne ?_) j
    exact heq.symm.trans (m.orderBasicBlocks_fst _ x hx)

/-- A body that is not the clone of `key` gets no tag. -/
theorem count_cloneTags_eq_zero {g key : α} (hne : g ≠ m.cloneName key) (j : Nat) :
    (m.cloneTags opts key).count (g, j) = 0 :=
  List.count_eq_zero_of_not_mem fun hmem => hne (fst_of_mem_cloneTags hmem)

theorem ClonesMade.cloneName_ne (h : ClonesMade opts m s) {f key : α} (hf : f ∈ s.cloned) (hkey : key ∈ s.cloned)
    (hne : f ≠ key) : m.cloneName f ≠ m.cloneName key :=
  fun heq => hne (m.cloneName_inj f (h.cloned_mem f hf) key (h.cloned_mem key hkey) heq)

theorem ClonesMade.ne_cloneName (h : ClonesMade opts m s) {f key : α} (hf : f ∈ m.functions) (hkey : key ∈ s.cloned) :
    f ≠ m.cloneName key :=
  fun heq => m.cloneName_notMem key (h.cloned_mem key hkey) (heq ▸ hf)

theorem ClonesMade.isCopy_clone (h : ClonesMade opts m s) {f : α} (hf : f ∈ s.cloned) :
    IsCopy m s f (m.cloneName f) :=
  ⟨h.cloned_mem f hf, .inr ⟨hf, rfl⟩⟩

namespace CloneLoop

variable {done rest : List α} {key : α}

theorem mem_cloned_of_done (h : CloneLoop opts m done s) {f : α} (hf : f ∈ done) : f ∈ s.cloned := by
  rw [h.cloned_eq]
  exact List.mem_append_left _ hf

theorem mem_cloned_of_pending (h : CloneLoop opts m done s) (hpending : s.pendingFunctionClones = key :: rest) :
    key ∈ s.cloned := by
  rw [h.cloned_eq, hpending]
  simp

/-- No clone is instrumented twice. -/
theorem notMem_done (h : CloneLoop opts m done s) (hpending : s.pendingFunctionClones = key :: rest) :
    key ∉ done := by
  have hnodup := h.made.cloned_nodup
  rw [h.cloned_eq, hpending, List.nodup_append'] at hnodup
  intro hdone
  exact hnodup.2.2 hdone (by simp)

/-- Spreading the labels from the next entry on starts with what its clone asks for. -/
theorem map_eq_next (h : CloneLoop opts m done s) (hpending : s.pendingFunctionClones = key :: rest)
    (hinst : CloneInstrumented opts m key s s') (fuel : Nat) :
    spread (m.cloneTargets opts) fuel (done ++ [key]).length s'.cloneFunctionMap =
      spread (m.cloneTargets opts) (fuel + (done ++ [key]).length) 0 (addLabels [] (m.regionAsks opts)) := by
  have hentry : s.cloneFunctionMap[done.length]? = some (key, (clonePR m key s).pragmaRegionID) :=
    getElem?_cloneFunctionMap h.made.cloned_nodup (by simp [h.cloned_eq, hpending])
  rw [hinst.map_eq, List.length_append, List.length_singleton, ← spread_of_some _ fuel hentry, h.map_eq (fuel + 1)]
  congr 1
  omega

/-- The clone just instrumented enters its region, and those before keep their events. -/
theorem events_next (h : CloneLoop opts m done s) (hpending : s.pendingFunctionClones = key :: rest)
    (hinst : CloneInstrumented opts m key s s') (hlookup : ∀ f ∈ s.cloned, clonePR m f s' = clonePR m f s) :
    ∀ f ∈ done ++ [key], m.startsWithOmp (m.cloneName f) = true → 0 < m.size f →
      MicrotaskEvents m s' f (clonePR m f s').pragmaRegionID := by
  have hkey := h.mem_cloned_of_pending hpending
  intro f hf homp hsize
  rcases List.mem_append.mp hf with hf | hf
  · have hfcloned := h.mem_cloned_of_done hf
    have hfkey : f ≠ key := fun heq => h.notMem_done hpending (heq ▸ hf)
    rw [hlookup f hfcloned]
    exact (h.events f hf homp hsize).congr
      (hinst.events_eq f _ (h.made.isCopy_clone hfcloned) (h.made.cloneName_ne hfcloned hkey hfkey))
  · rw [List.mem_singleton] at hf
    subst hf
    rw [hlookup f hkey]
    exact hinst.clone_events homp hsize

/-- The tags of a clone: a clone made for a region is a copy from before the tags of the regions, a later one from
after them, and its own come when it is instrumented. -/
theorem tags_clone_next (h : CloneLoop opts m done s) (hpending : s.pendingFunctionClones = key :: rest)
    (hinst : CloneInstrumented opts m key s s') :
    ∀ f ∈ s'.cloned, ∀ j, (s'.code (m.cloneName f, j)).bbTags.length =
      (if f ∈ m.regionTargets opts then 0 else (m.regionTags opts).count (f, j)) +
        if f ∈ done ++ [key] then (m.cloneTags opts f).count (m.cloneName f, j) else 0 := by
  have hkey := h.mem_cloned_of_pending hpending
  intro f hf j
  by_cases hold : f ∈ s.cloned
  · rw [hinst.tags_eq f _ (h.made.isCopy_clone hold) j, h.tags_clone f hold j]
    by_cases hfkey : f = key
    · subst hfkey
      rw [if_neg (h.notMem_done hpending), if_pos (List.mem_append_right _ (List.mem_singleton_self f)), Nat.add_zero]
    · rw [count_cloneTags_eq_zero (h.made.cloneName_ne hold hkey hfkey) j, Nat.add_zero]
      simp only [List.mem_append, List.mem_singleton, hfkey, or_false]
  · -- a new clone is a copy of the function as it is, with the tags of its regions
    have hffun : f ∈ m.functions := hinst.made.cloned_mem f hf
    have hfdone : f ∉ done ++ [key] := by
      intro hmem
      rcases List.mem_append.mp hmem with hmem | hmem
      · exact hold (h.mem_cloned_of_done hmem)
      · exact hold (List.mem_singleton.mp hmem ▸ hkey)
    rw [hinst.tags_new f hf hold j, h.tags_function f hffun j, if_neg hfdone,
      if_neg fun hmem => hold (h.regionTargets_cloned f hmem), Nat.add_zero]

/-- The front of the worklist is taken off, the functions found go to its end. -/
theorem visit (h : CloneLoop opts m done s) (hpending : s.pendingFunctionClones = key :: rest) :
    CloneLoop opts m (done ++ [key]) (instrumentClone opts m s key) ∧
      ∃ found, (instrumentClone opts m s key).pendingFunctionClones = rest ++ found := by
  have hkey := h.mem_cloned_of_pending hpending
  have hinst := cloneInstrumented h.made hkey
  generalize instrumentClone opts m s key = s' at hinst ⊢
  obtain ⟨new, hmap, hpending'⟩ := hinst.found
  have hcloned : s'.cloned = s.cloned ++ new.map Prod.fst := by
    rw [IRState.cloned, hmap, List.map_append]
    rfl
  have hrest : s'.pendingFunctionClones = rest ++ new.map Prod.fst := by
    rw [hpending', hpending, List.cons_append, List.erase_cons_head]
  have hlookup : ∀ f ∈ s.cloned, clonePR m f s' = clonePR m f s := fun f hf => clonePR_eq ⟨new, hmap⟩ hf
  refine ⟨⟨hinst.made, ?_, h.map_eq_next hpending hinst, ?_, ?_, ?_, ?_, ?_, ?_, ?_,
    h.events_next hpending hinst hlookup, h.tags_clone_next hpending hinst⟩, _, hrest⟩
  · -- `cloned_eq`
    rw [hrest, hcloned, h.cloned_eq, hpending, List.append_assoc, List.append_assoc]
    rfl
  · -- `prList_eq`
    have hdone : done.map (fun f => clonePR m f s') = done.map fun f => clonePR m f s :=
      List.map_congr_left fun f hf => hlookup f (h.mem_cloned_of_done hf)
    rw [hinst.prList_eq, h.prList_eq, List.map_append, List.map_singleton, hlookup key hkey, hdone, List.append_assoc]
  · -- `regionTargets_cloned`
    exact fun f hf => (hinst.mem_cloned f).mpr (.inl (h.regionTargets_cloned f hf))
  · -- `reached`
    intro f hf
    rcases (hinst.mem_cloned f).mp hf with hold | hfound
    · exact h.reached f hold
    · obtain ⟨j, hj, hfj⟩ := mem_cloneTargets_iff.mp hfound
      exact .clone (h.reached key hkey) hj hfj
  · -- `regions_finished`
    intro x hx
    exact hinst.finished x.1 x.1 (.function (fst_mem_functions_of_regionBlocks hx)) x.2 (h.regions_finished x hx)
  · -- `clones_finished`
    intro f hf x hx
    rcases List.mem_append.mp hf with hf | hf
    · have hfx : IsCopy m s f x.1 := by
        rw [fst_of_mem_cloneTags hx]
        exact h.made.isCopy_clone (h.mem_cloned_of_done hf)
      exact hinst.finished f x.1 hfx x.2 (h.clones_finished f hf x hx)
    · rw [List.mem_singleton] at hf
      subst hf
      exact hinst.clone_finished x hx
  · -- `calls_eq`
    intro f hf j hj
    rw [hinst.calls_eq f f (.function hf) (h.made.ne_cloneName hf hkey) j]
    exact h.calls_eq f hf j hj
  · -- `tags_function`
    intro f hf j
    rw [hinst.tags_eq f f (.function hf) j, count_cloneTags_eq_zero (h.made.ne_cloneName hf hkey) j, Nat.add_zero]
    exact h.tags_function f hf j

end CloneLoop

/-- The loop over the pending clones is a sound worklist on the functions of the module. -/
theorem sound_cloneWorklist (opts : PassOptions) (m : IRModule α) :
    (cloneWorklist opts m).Sound m.functions (CloneLoop opts m) where
  nodup := fun h => h.cloned_eq ▸ h.made.cloned_nodup
  mem := fun h f hf => h.made.cloned_mem f (h.cloned_eq ▸ hf)
  visit := fun h hpending => h.visit hpending

/-- The region that reaches a function first: the regions ask in order, and then each function asks for those its
clone calls, in the order in which they were found. -/
def IRModule.firstRegion (opts : PassOptions) (m : IRModule α) (f : α) : Nat :=
  ((spread (m.cloneTargets opts) m.functions.length 0 (addLabels [] (m.regionAsks opts))).lookup f).getD 0

/-- A function that region blocks ask for is reached first by the first region that does. -/
theorem firstRegion_of_regionTargets {f : α} (hf : f ∈ m.regionTargets opts) :
    m.firstRegion opts f = ((m.regionAsks opts).lookup f).getD 0 := by
  have hmem : f ∈ (addLabels [] (m.regionAsks opts)).map Prod.fst := by
    rw [mem_keys_addLabels, map_fst_regionAsks]
    exact .inr hf
  rw [IRModule.firstRegion, lookup_spread_of_mem _ _ _ hmem, lookup_addLabels, List.nil_append]

/-- `CloneFunctionMap` when no clone is pending: every clone belongs to the region that reached its function first. -/
theorem CloneLoop.pragmaRegionID_clonePR (h : CloneLoop opts m s.cloned s) (f : α) :
    (clonePR m f s).pragmaRegionID = m.firstRegion opts f := by
  have hle := (sound_cloneWorklist opts m).length_le h
  have hlength : s.cloned.length = s.cloneFunctionMap.length := List.length_map _
  have hmap := h.map_eq (m.functions.length - s.cloned.length)
  rw [spread_of_none _ _ (List.getElem?_eq_none (le_of_eq hlength.symm)), Nat.sub_add_cancel (by omega)] at hmap
  show (s.cloneFunctionMap.lookup f).getD 0 = _
  rw [hmap, IRModule.firstRegion]

/-- `runOnModule` ends, with every clone instrumented. -/
theorem exists_runOnModule (opts : PassOptions) (m : IRModule α) :
    ∃ s, (∀ extra, runOnModule opts m (m.functions.length + extra) = some s) ∧ s.pendingFunctionClones = [] ∧
      CloneLoop opts m s.cloned s := by
  have hstart := (regionsDone opts m).cloneLoop
  unfold runOnModule
  generalize m.prList.foldl (instrumentPragmaRegion opts m false) (processRegionCalls opts m m.initial) = s₂
    at hstart ⊢
  by_cases hopt : opts.applyFunctionCloning = true
  · obtain ⟨s, done, hrun, hempty, hloop⟩ :=
      (sound_cloneWorklist opts m).drain m.functions.length hstart (Nat.le_add_right _ _)
    change s.pendingFunctionClones = [] at hempty
    have hcloned : s.cloned = [] ++ done := by
      rw [hloop.cloned_eq, hempty, List.append_nil]
    refine ⟨s, fun extra => ?_, hempty, hcloned ▸ hloop⟩
    rw [if_pos hopt]
    exact Worklist.drain_add extra hrun
  · -- no call asks for a clone
    have hnone : s₂.cloned = [] := by
      refine List.eq_nil_iff_forall_not_mem.mpr fun f hf => ?_
      induction hstart.reached f hf with
      | region htarget =>
        obtain ⟨x, -, hx⟩ := List.mem_flatMap.mp htarget
        obtain ⟨c, -, hc⟩ := List.mem_filterMap.mp hx
        exact hopt (cloneTarget_cases hc).1
      | clone _ _ htarget _ =>
        obtain ⟨c, -, hc⟩ := List.mem_filterMap.mp htarget
        exact hopt (cloneTarget_cases hc).1
    have hempty : s₂.pendingFunctionClones = [] := by
      have hcloned := hstart.cloned_eq
      rw [hnone] at hcloned
      exact hcloned.symm
    refine ⟨s₂, fun extra => by simp [hopt], hempty, ?_⟩
    rw [hnone]
    exact hstart

/-! ### On exit -/

/-- Every block of the clone of a function is recorded. -/
def ClonesRecorded (opts : PassOptions) (m : IRModule α) : Prop :=
  ∀ f, Reached opts m f → ∀ i < m.size f, (m.cloneName f, i) ∈ m.cloneTags opts f

/-- A block of a region, or of a clone. -/
def InstrumentedBlock (m : IRModule α) (s : IRState α) (x : α × Nat) : Prop :=
  x ∈ m.regionBlocks ∨ x.1 ∈ s.clonedFunctionNames ∧ x.2 < s.size x.1

/-- The module when no clone is pending.  `CloneFunctionMap` has an entry for each `CloneFunction`, and `PRList` one
for each clone instrumented. -/
structure ClonesClosed (opts : PassOptions) (m : IRModule α) (s : IRState α) : Prop where
  pending_nil : s.pendingFunctionClones = []
  cloned_once : s.cloned.Nodup
  cloned_mem : ∀ f ∈ s.cloned, f ∈ m.functions
  instrumented_once : ∃ clonePRs, s.prList = m.prList ++ clonePRs ∧
    clonePRs.map PragmaRegion.F = s.clonedFunctionNames ∧ s.clonedFunctionNames.Nodup
  calls_closed : opts.applyFunctionCloning = true → ∀ x, InstrumentedBlock m s x → ∀ c ∈ (s.code x).calls, ∀ f,
    c.calledFunction = some f → s.size f ≠ 0 → f ≠ m.onThreadExit → f ∈ s.clonedFunctionNames
  outside_unchanged : ∀ f ∈ m.functions, ∀ j, (f, j) ∉ m.regionBlocks → (s.code (f, j)).calls = (m.code (f, j)).calls
  outside_originals : ∀ f ∈ m.functions, ∀ j, (f, j) ∉ m.regionBlocks → ∀ c ∈ (s.code (f, j)).calls, ∀ g,
    c.calledFunction = some g → g ∉ s.clonedFunctionNames

/-- A finished block calls no function with a body but clones. -/
theorem Finished.calls_closed (hopt : opts.applyFunctionCloning = true) (hmade : ClonesMade opts m s) {f : α}
    {x : α × Nat} (hfin : Finished opts m s f x) {c : CallInst α} (hc : c ∈ (s.code x).calls) {g : α}
    (hcallee : c.calledFunction = some g) (hbody : s.size g ≠ 0) (hexit : g ≠ m.onThreadExit) :
    g ∈ s.clonedFunctionNames := by
  rw [hfin.1] at hc
  obtain ⟨c₀, hc₀, rfl⟩ := List.mem_map.mp hc
  cases htarget : cloneTarget opts m c₀ with
  | none =>
    exfalso
    have hsame : redirected opts m c₀ = c₀ := by simp [redirected, htarget]
    rw [hsame] at hcallee
    have hg : g ∈ m.functions := m.calledFunction_mem _ c₀ hc₀ g hcallee
    rw [hmade.size_function hg] at hbody
    simp [cloneTarget_of_body hopt hcallee hbody hexit] at htarget
  | some h =>
    have hredirect : redirected opts m c₀ = redirect m (m.cloneName h) c₀ := by simp [redirected, htarget]
    rw [hredirect] at hcallee
    obtain ⟨-, callee, hcallee₀, ⟨hsize, -, -⟩ | ⟨hsize, rfl⟩⟩ := cloneTarget_cases htarget
    · -- a fork: the callee has no body
      exfalso
      have hg : g = callee := by
        unfold redirect at hcallee
        simp only [hcallee₀, hsize, if_true] at hcallee
        split at hcallee <;> simpa [hcallee₀] using hcallee.symm
      rw [hg, hmade.size_function (m.calledFunction_mem _ c₀ hc₀ callee hcallee₀)] at hbody
      exact hbody hsize
    · have hg : g = m.cloneName h := by
        simpa [redirect, hcallee₀, hsize] using hcallee.symm
      have hh : h ∈ s.cloned := hfin.2 h (List.mem_filterMap.mpr ⟨c₀, hc₀, htarget⟩)
      rw [hg, hmade.names_eq]
      exact List.mem_map_of_mem hh

theorem ClonesMade.names_nodup (hmade : ClonesMade opts m s) : s.clonedFunctionNames.Nodup := by
  rw [hmade.names_eq]
  refine hmade.cloned_nodup.map_on fun f hf g hg heq => ?_
  exact m.cloneName_inj f (hmade.cloned_mem f hf) g (hmade.cloned_mem g hg) heq

/-- For every module the loop over the pending clones ends, and leaves the module closed under calls: each function is
cloned at most once, each clone instrumented once, the region blocks and the clones call clones, and nothing else
does. -/
theorem clonesClosed_of_clonesRecorded (opts : PassOptions) (m : IRModule α) (hall : ClonesRecorded opts m) :
    ∃ s, (∀ extra, runOnModule opts m (m.functions.length + extra) = some s) ∧ ClonesClosed opts m s := by
  obtain ⟨s, hrun, hempty, hloop⟩ := exists_runOnModule opts m
  have hmade := hloop.made
  refine ⟨s, hrun, hempty, hmade.cloned_nodup, hmade.cloned_mem, ?_, ?_, hloop.calls_eq, ?_⟩
  · refine ⟨s.cloned.map fun f => clonePR m f s, hloop.prList_eq, ?_, hmade.names_nodup⟩
    rw [hmade.names_eq, List.map_map]
    rfl
  · rintro hopt x (hx | ⟨hx, hsize⟩) c hc g hcallee hbody hexit
    · exact (hloop.regions_finished x hx).calls_closed hopt hmade hc hcallee hbody hexit
    · rw [hmade.names_eq] at hx
      obtain ⟨f, hf, hname⟩ := List.mem_map.mp hx
      rw [← hname, hmade.size_clone hf] at hsize
      have hrecorded : x ∈ m.cloneTags opts f := by
        have hmem := hall f (hloop.reached f hf) x.2 hsize
        rwa [hname] at hmem
      exact (hloop.clones_finished f hf x hrecorded).calls_closed hopt hmade hc hcallee hbody hexit
  · intro f hf j hj c hc g hcallee hg
    rw [hloop.calls_eq f hf j hj] at hc
    rw [hmade.names_eq] at hg
    obtain ⟨h, hh, hname⟩ := List.mem_map.mp hg
    exact m.cloneName_notMem h (hmade.cloned_mem h hh) (hname ▸ m.calledFunction_mem _ c hc g hcallee)

theorem mem_functions_of_callTargets {x : α × Nat} {f : α} (hf : f ∈ callTargets opts m x) : f ∈ m.functions := by
  obtain ⟨c, -, hc⟩ := List.mem_filterMap.mp hf
  exact cloneTarget_mem hc

theorem Reached.mem_functions {f : α} (h : Reached opts m f) : f ∈ m.functions := by
  cases h with
  | region htarget =>
    obtain ⟨x, -, hx⟩ := List.mem_flatMap.mp htarget
    exact mem_functions_of_callTargets hx
  | clone _ _ htarget => exact mem_functions_of_callTargets htarget

end

/-- An analysis that finds no loop, and no block that dominates another. -/
def noAnalysis : FunctionAnalysis (Nat × Nat) where
  orderedCFG := []
  size := fun _ => 1
  detectPragma := fun _ => false
  trees := ⟨fun x y => x.2 = y.2, fun x y => x.2 = y.2⟩
  loopInfo := .nil
  backedgeTakenCount := fun _ => .couldNotCompute
  beforeSplit := fun _ => .couldNotCompute
  afterSplit := fun _ => .couldNotCompute

theorem noAnalysis_regions : ∀ _ : PragmaRegion Nat (Nat × Nat), LoopsWellFormed noAnalysis.loopInfo := by
  simp [LoopsWellFormed, noAnalysis]

theorem noAnalysis_clones : ∀ _ : Nat, LoopsWellFormed noAnalysis.loopInfo := by
  simp [LoopsWellFormed, noAnalysis]

/-- The blocks of a function of two blocks, in order. -/
def twoBlocks (f : Nat) : List (Nat × Nat) := [(f, 0), (f, 1)]

theorem twoBlocks_fst : ∀ f, ∀ x ∈ twoBlocks f, x.1 = f := by simp [twoBlocks]

theorem twoBlocks_nodup : ∀ f, (twoBlocks f).Nodup := by simp [twoBlocks]

theorem mem_three_of_lt {f : Nat} (h : f < 3) : f ∈ [0, 1, 2] := by
  simp only [List.mem_cons, List.not_mem_nil, or_false]
  omega

/-- Functions 0, 1 and 2 of two blocks each, with their calls; region 0 is the first block of function 0, region 1
that of function 2.  The clone of `f` is `f + 3`. -/
def threeFunctions (calls : Nat × Nat → List Nat) : IRModule Nat where
  functions := [0, 1, 2]
  size := fun f => if f < 3 then 2 else 0
  code := fun x => { calls := ((calls x).filter (· < 3)).map fun f => { calledFunction := some f } }
  bbTags_nil := fun _ => rfl
  mem_functions := by
    intro f hf
    by_cases hlt : f < 3
    · exact mem_three_of_lt hlt
    · simp [hlt] at hf
  calledFunction_mem := by
    intro x c hc f hf
    obtain ⟨g, hg, rfl⟩ := List.mem_map.mp hc
    have hlt : g < 3 := by simpa using (List.mem_filter.mp hg).2
    exact mem_three_of_lt (Option.some.inj hf ▸ hlt)
  isIntrinsic := fun _ => false
  size_intrinsic := by simp
  kmpcForkCall := 6
  onThreadExit := 7
  startsWithOmp := fun _ => false
  prList := [⟨0, 0, 0, [(0, 0)]⟩, ⟨1, 0, 2, [(2, 0)]⟩]
  prList_id := rfl
  prList_blocks := by simp
  prList_nodup := by simp
  cloneName := fun f => f + 3
  cloneName_notMem := by simp
  cloneName_inj := fun f _ g _ h => Nat.add_right_cancel h
  orderBasicBlocks := twoBlocks
  orderBasicBlocks_fst := twoBlocks_fst
  orderBasicBlocks_nodup := twoBlocks_nodup
  orderBasicBlocks_entry := by simp [twoBlocks]
  analysis := fun _ => noAnalysis
  cloneAnalysis := fun _ => noAnalysis
  loops_wellFormed := noAnalysis_regions
  cloneLoops_wellFormed := noAnalysis_clones

/-- The regions and the recorded blocks do not depend on the calls. -/
theorem threeFunctions_cloneTags (calls : Nat × Nat → List Nat) (f : Nat) :
    (threeFunctions calls).cloneTags {} f = [(f + 3, 0), (f + 3, 1)] := rfl

theorem threeFunctions_clonesRecorded (calls : Nat × Nat → List Nat) : ClonesRecorded {} (threeFunctions calls) := by
  intro f hf i hi
  have hmem : f ∈ [0, 1, 2] := hf.mem_functions
  have hlt : f < 3 := by
    simp only [List.mem_cons, List.not_mem_nil, or_false] at hmem
    omega
  have hi2 : i < 2 := by simpa [threeFunctions, hlt] using hi
  rw [threeFunctions_cloneTags]
  show (f + 3, i) ∈ [(f + 3, 0), (f + 3, 1)]
  simp only [List.mem_cons, Prod.mk.injEq, true_and, List.not_mem_nil, or_false]
  omega

/-- Functions 1 and 2 call each other and themselves. -/
theorem clonesClosed_of_mutual_recursion :
    ∃ s, (∀ extra, runOnModule {} (threeFunctions fun x => if x.1 = 0 then [1] else [1, 2]) (3 + extra) = some s) ∧
      ClonesClosed {} (threeFunctions fun x => if x.1 = 0 then [1] else [1, 2]) s :=
  clonesClosed_of_clonesRecorded {} (threeFunctions fun x => if x.1 = 0 then [1] else [1, 2])
    (threeFunctions_clonesRecorded _)

end ZRay.Pass.Clones
