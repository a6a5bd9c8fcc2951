import ZRay.Pass.CloneWorklist

/-!
# Blocks counted twice through clones

Every block that a counter records gets the counter's tag, and a clone is made with the tags its function has.  The
clones that the region blocks ask for are made before any counter is inserted, so their blocks have no tag until they
are instrumented themselves.  A clone that only another clone asks for is made after the regions were instrumented: a
function with a region brings the region's counters into it, and the clone's own counters come on top
(`length_bbTags_clone`).
-/

namespace ZRay.Pass.Clones

variable {α : Type*} [DecidableEq α] {opts : PassOptions} {m : IRModule α} {s : IRState α}

/-- Is the record of the tag read for the region?  Its own records are, and those of all clones. -/
def readFor (s : IRState α) (pragmaRegionID tag : Nat) : Bool :=
  match s.pragmaRegionLog[tag]? with
  | none => false
  | some (region, isIndirect) => isIndirect || region == pragmaRegionID

/-- No block of a clone is covered by two counters, and one execution of it under a region adds its instruction mix at
most once. -/
structure NoDoubleCounting (s : IRState α) : Prop where
  covered_once : ∀ g ∈ s.clonedFunctionNames, ∀ j < s.size g, (s.code (g, j)).bbTags.length ≤ 1
  mix_once : ∀ g ∈ s.clonedFunctionNames, ∀ j < s.size g, ∀ pragmaRegionID,
    (s.code (g, j)).bbTags.countP (readFor s pragmaRegionID) ≤ 1

/-- The block gets a counter of the region. -/
def IRModule.RegionCounts (opts : PassOptions) (m : IRModule α) (PR : PragmaRegion α (α × Nat)) (x : α × Nat) :
    Prop :=
  Counted opts (m.analysis PR) PR.bbList x

/-- A function that no region block asks for, but a clone does, has no block that gets counters of two regions, or of
a region and of the clone. -/
def LateClonesCountedOnce (opts : PassOptions) (m : IRModule α) : Prop :=
  ∀ f, Reached opts m f → f ∉ m.regionTargets opts → ∀ j < m.size f,
    (m.prList.Pairwise fun PR PR' => m.RegionCounts opts PR (f, j) → ¬ m.RegionCounts opts PR' (f, j)) ∧
      (m.CloneCounts opts f j → ∀ PR ∈ m.prList, ¬ m.RegionCounts opts PR (f, j))

omit [DecidableEq α] in
theorem noDoubleCounting_iff :
    NoDoubleCounting s ↔ ∀ g ∈ s.clonedFunctionNames, ∀ j < s.size g, (s.code (g, j)).bbTags.length ≤ 1 :=
  ⟨fun h => h.covered_once, fun h => ⟨h, fun g hg j hj _ => List.countP_le_length.trans (h g hg j hj)⟩⟩

/-- The regions that count a block, in terms of how often their counters record it. -/
theorem count_regionTags (opts : PassOptions) (prs : List (PragmaRegion α (α × Nat)))
    (hprs : ∀ PR ∈ prs, PR.bbList.Nodup) (x : α × Nat) :
    ((prs.flatMap fun PR => (m.counters opts false PR).flatMap Counter.blocks).count x = 0 ↔
        ∀ PR ∈ prs, ¬ m.RegionCounts opts PR x) ∧
      ((prs.flatMap fun PR => (m.counters opts false PR).flatMap Counter.blocks).count x ≤ 1 ↔
        prs.Pairwise fun PR PR' => m.RegionCounts opts PR x → ¬ m.RegionCounts opts PR' x) := by
  induction prs with
  | nil => simp
  | cons PR rest ih =>
    obtain ⟨hnone, hone⟩ := ih fun PR' hPR' => hprs PR' (List.mem_cons_of_mem PR hPR')
    obtain ⟨hcounts, hskips⟩ := count_counters opts m false PR (hprs PR List.mem_cons_self) x
    change m.RegionCounts opts PR x → _ at hcounts
    change ¬ m.RegionCounts opts PR x → _ at hskips
    rw [List.flatMap_cons, List.count_append, List.forall_mem_cons, List.pairwise_cons]
    by_cases h : m.RegionCounts opts PR x
    · rw [hcounts h]
      constructor
      · exact iff_of_false (by omega) fun hall => hall.1 h
      · constructor
        · intro hle
          have hzero := hnone.mp (by omega)
          exact ⟨fun PR' hPR' _ => hzero PR' hPR', hone.mp (by omega)⟩
        · rintro ⟨hfirst, -⟩
          have hzero := hnone.mpr fun PR' hPR' => hfirst PR' hPR' h
          omega
    · rw [hskips h, Nat.zero_add, hnone, hone]
      constructor
      · exact ⟨fun hall => ⟨h, hall⟩, fun hall => hall.2⟩
      · exact ⟨fun hall => ⟨fun _ _ hPR => absurd hPR h, hall⟩, fun hall => hall.2⟩

/-- The counters of a function's regions and of its clone record a block at most once when it gets no two of them. -/
theorem count_tags_le_one_iff (f : α) (j : Nat) :
    (m.regionTags opts).count (f, j) + (m.cloneTags opts f).count (m.cloneName f, j) ≤ 1 ↔
      (m.prList.Pairwise fun PR PR' => m.RegionCounts opts PR (f, j) → ¬ m.RegionCounts opts PR' (f, j)) ∧
        (m.CloneCounts opts f j → ∀ PR ∈ m.prList, ¬ m.RegionCounts opts PR (f, j)) := by
  obtain ⟨hnone, hone⟩ := count_regionTags opts m.prList m.prList_nodup (f, j)
  obtain ⟨hcounts, hskips⟩ := count_cloneTags opts m f j
  rw [← hnone, ← hone]
  show (m.regionTags opts).count (f, j) + _ ≤ 1 ↔
    (m.regionTags opts).count (f, j) ≤ 1 ∧ (_ → (m.regionTags opts).count (f, j) = 0)
  by_cases h : m.CloneCounts opts f j
  · rw [hcounts h]
    constructor
    · intro hle
      exact ⟨by omega, fun _ => by omega⟩
    · rintro ⟨-, hzero⟩
      have := hzero h
      omega
  · rw [hskips h, Nat.add_zero]
    exact ⟨fun hle => ⟨hle, fun hcount => absurd hcount h⟩, fun hle => hle.1⟩

/-- The counters of a clone record a block at most once. -/
theorem count_cloneTags_le_one (f : α) (j : Nat) : (m.cloneTags opts f).count (m.cloneName f, j) ≤ 1 := by
  obtain ⟨hcounts, hskips⟩ := count_cloneTags opts m f j
  by_cases h : m.CloneCounts opts f j
  · exact le_of_eq (hcounts h)
  · rw [hskips h]
    exact Nat.zero_le 1

/-- When no clone is pending, the functions with a clone are those that were reached. -/
theorem CloneLoop.mem_cloned_iff (h : CloneLoop opts m s.cloned s) {f : α} : f ∈ s.cloned ↔ Reached opts m f := by
  refine ⟨h.reached f, fun hf => ?_⟩
  induction hf with
  | region htarget => exact h.regionTargets_cloned _ htarget
  | @clone f g j _ hj hg ih => exact (h.clones_finished f ih _ ((mem_cloneTags_iff f j).mpr hj)).2 g hg

/-- The tags of a block of a clone: those of the function when the clone was made, and one for each counter of the
clone that records it. -/
theorem CloneLoop.length_bbTags_clone (h : CloneLoop opts m s.cloned s) {f : α} (hf : f ∈ s.cloned) (j : Nat) :
    (s.code (m.cloneName f, j)).bbTags.length =
      (if f ∈ m.regionTargets opts then 0 else (m.regionTags opts).count (f, j)) +
        (m.cloneTags opts f).count (m.cloneName f, j) := by
  rw [h.tags_clone f hf j, if_pos hf]

/-- For every module: no block of a clone is counted twice if and only if the functions that only clones ask for have
no block in two counters of their own regions and of the clone together. -/
theorem noDoubleCounting_iff_lateClonesCountedOnce (opts : PassOptions) (m : IRModule α) :
    ∃ s, (∀ extra, runOnModule opts m (m.functions.length + extra) = some s) ∧
      (NoDoubleCounting s ↔ LateClonesCountedOnce opts m) := by
  obtain ⟨s, hrun, -, hloop⟩ := exists_runOnModule opts m
  have hmade := hloop.made
  refine ⟨s, hrun, ?_⟩
  rw [noDoubleCounting_iff]
  constructor
  · intro honce f hf hlate j hj
    have hcloned : f ∈ s.cloned := hloop.mem_cloned_iff.mpr hf
    have hname : m.cloneName f ∈ s.clonedFunctionNames := by
      rw [hmade.names_eq]
      exact List.mem_map_of_mem hcloned
    have hle := honce (m.cloneName f) hname j (by rwa [hmade.size_clone hcloned])
    rw [hloop.length_bbTags_clone hcloned, if_neg hlate] at hle
    exact (count_tags_le_one_iff f j).mp hle
  · intro hlate g hg j hj
    rw [hmade.names_eq] at hg
    obtain ⟨f, hf, rfl⟩ := List.mem_map.mp hg
    rw [hmade.size_clone hf] at hj
    rw [hloop.length_bbTags_clone hf]
    by_cases hdirect : f ∈ m.regionTargets opts
    · rw [if_pos hdirect, Nat.zero_add]
      exact count_cloneTags_le_one f j
    · rw [if_neg hdirect]
      exact (count_tags_le_one_iff f j).mpr (hlate f (hloop.mem_cloned_iff.mp hf) hdirect j hj)

/-! ### In terms of the calls -/

/-- Every function with a block in a region that is reached through calls is asked for by a region block. -/
def RegionsAskedDirectly (opts : PassOptions) (m : IRModule α) : Prop :=
  ∀ f, Reached opts m f → (∃ j < m.size f, (f, j) ∈ m.regionBlocks) → f ∈ m.regionTargets opts

/-- When every block of every region and clone gets a counter, the condition is about calls only. -/
theorem lateClonesCountedOnce_iff_regionsAskedDirectly
    (hregions : ∀ PR ∈ m.prList, ∀ x ∈ PR.bbList, m.RegionCounts opts PR x) (hclones : ClonesRecorded opts m) :
    LateClonesCountedOnce opts m ↔ RegionsAskedDirectly opts m := by
  constructor
  · rintro honce f hf ⟨j, hj, hblock⟩
    by_contra hlate
    obtain ⟨PR, hPR, hx⟩ := List.mem_flatMap.mp hblock
    have hclone : m.CloneCounts opts f j := (mem_cloneTags_iff f j).mp (hclones f hf j hj)
    exact (honce f hf hlate j hj).2 hclone PR hPR (hregions PR hPR _ hx)
  · intro hdirect f hf hlate j hj
    have hnone : ∀ PR ∈ m.prList, ¬ m.RegionCounts opts PR (f, j) := fun PR hPR hcounts =>
      hlate (hdirect f hf ⟨j, hj, List.mem_flatMap.mpr ⟨PR, hPR, hcounts.1⟩⟩)
    exact ⟨List.pairwise_of_forall_mem_list fun PR hPR _ _ h => absurd h (hnone PR hPR), fun _ => hnone⟩

/-- Function 0 calls function 1 in its region, and function 1 calls function 2, whose own region is instrumented when
the clone of function 1 asks for its clone.  Its block is covered by two counters. -/
theorem not_noDoubleCounting_of_two_calls :
    ∃ s, runOnModule {} (threeFunctions fun x => if x.1 = 0 then [1] else if x.1 = 1 then [2] else []) 3 = some s ∧
      ¬ NoDoubleCounting s := by
  have hrun : (runOnModule {} (threeFunctions fun x => if x.1 = 0 then [1] else if x.1 = 1 then [2] else []) 3).map
      (fun s => (s.clonedFunctionNames, s.size 5, (s.code (5, 0)).bbTags)) = some ([4, 5], 2, [4, 1]) := by
    decide
  obtain ⟨s, hs, heq⟩ := Option.map_eq_some_iff.mp hrun
  simp only [Prod.mk.injEq] at heq
  obtain ⟨hnames, hsize, htags⟩ := heq
  refine ⟨s, hs, fun h => ?_⟩
  have hle := h.covered_once 5 (by simp [hnames]) 0 (by omega)
  simp [htags] at hle

end ZRay.Pass.Clones
