import ZRay.Pass.FullScan
import ZRay.Pass.OpenRegions

/-!
# What block sizes decide

`InstrumentPragmaRegion` compares offsets, which are sums of block sizes.  No block is empty, so the offsets are in
the order of the blocks and the comparisons come out the same whatever the sizes are: the begin block, the end block
and the counters of a region do not depend on the calls that were put into its blocks.
-/

namespace ZRay.Pass

variable {β : Type*} [DecidableEq β] {size size' : β → Nat} {fn : FunctionAnalysis β} {bbList : List β}

omit [DecidableEq β] in
/-- The function with blocks of other sizes. -/
def FunctionAnalysis.withSize (fn : FunctionAnalysis β) (size : β → Nat) : FunctionAnalysis β :=
  { fn with size := size }

/-- Offsets are in the order of the blocks. -/
theorem getBBOffset_le_iff (hsize : ∀ x, 0 < size x) {orderedCFG : List β} {x : β} (hx : x ∈ orderedCFG) (y : β) :
    getBBOffset size orderedCFG x ≤ getBBOffset size orderedCFG y ↔ orderedCFG.idxOf x ≤ orderedCFG.idxOf y := by
  have hplace := List.idxOf_lt_length_of_mem hx
  rw [getBBOffset, getBBOffset, sum_take_le_iff hsize (by omega)]
  omega

theorem regionBeginBlock_withSize (hsize : ∀ x, 0 < size x) (hsize' : ∀ x, 0 < size' x)
    (hmem : ∀ y ∈ bbList, y ∈ fn.orderedCFG) :
    regionBeginBlock (fn.withSize size) bbList = regionBeginBlock (fn.withSize size') bbList := by
  cases bbList with
  | nil => rfl
  | cons first rest =>
    have hsize : ∀ x, 0 < (fn.withSize size).size x := hsize
    have hsize' : ∀ x, 0 < (fn.withSize size').size x := hsize'
    obtain ⟨x, hx, hleast, hbegin, -⟩ := regionBounds_spec hsize (List.cons_ne_nil _ _) hmem
    obtain ⟨x', hx', hleast', hbegin', -⟩ := regionBounds_spec hsize' (List.cons_ne_nil _ _) hmem
    have hidx : fn.orderedCFG.idxOf x = fn.orderedCFG.idxOf x' := le_antisymm (hleast x' hx') (hleast' x hx)
    have heq := (List.idxOf_inj (hmem x hx)).mp hidx
    rw [regionBeginBlock, regionBeginBlock, hbegin, hbegin', heq]

/-- The end of the bounds loop by places in the list. -/
theorem foldl_visitEnd_withSize (hsize : ∀ x, 0 < size x) (hsize' : ∀ x, 0 < size' x) (first : β)
    {orderedCFG : List β} (hmem : ∀ y ∈ bbList, y ∈ orderedCFG) :
    (bbList.foldl (visitEnd size orderedCFG) (getBBOffset size orderedCFG first, none)).2 =
      (bbList.foldl (visitEnd size' orderedCFG) (getBBOffset size' orderedCFG first, none)).2 := by
  obtain ⟨hall, -, hend⟩ := foldl_visitEnd size orderedCFG bbList (getBBOffset size orderedCFG first, none)
  obtain ⟨hall', -, hend'⟩ := foldl_visitEnd size' orderedCFG bbList (getBBOffset size' orderedCFG first, none)
  generalize bbList.foldl (visitEnd size orderedCFG) _ = r at hall hend ⊢
  generalize bbList.foldl (visitEnd size' orderedCFG) _ = r' at hall' hend' ⊢
  have hle := fun x (hx : x ∈ orderedCFG) y => getBBOffset_le_iff hsize hx y
  have hle' := fun x (hx : x ∈ orderedCFG) y => getBBOffset_le_iff hsize' hx y
  rcases hend with rfl | ⟨z, hz, rfl, hlt⟩
  · rcases hend' with rfl | ⟨z', hz', rfl, hlt'⟩
    · rfl
    · have hback := (hle' _ (hmem z' hz') first).mpr ((hle _ (hmem z' hz') first).mp (hall z' hz'))
      dsimp only at hlt'
      omega
  · rcases hend' with rfl | ⟨z', hz', rfl, hlt'⟩
    · have hback := (hle _ (hmem z hz) first).mpr ((hle' _ (hmem z hz) first).mp (hall' z hz))
      dsimp only at hlt
      omega
    · have hidx := le_antisymm ((hle' _ (hmem z hz) z').mp (hall' z hz)) ((hle _ (hmem z' hz') z).mp (hall z' hz'))
      rw [(List.idxOf_inj (hmem z hz)).mp hidx]

theorem regionEndBlock_withSize (hsize : ∀ x, 0 < size x) (hsize' : ∀ x, 0 < size' x)
    (hmem : ∀ y ∈ bbList, y ∈ fn.orderedCFG) :
    regionEndBlock (fn.withSize size) bbList = regionEndBlock (fn.withSize size') bbList := by
  cases bbList with
  | nil => rfl
  | cons first rest =>
    have hend := foldl_visitEnd_withSize hsize hsize' first hmem
    have hbegin := regionBeginBlock_withSize hsize hsize' hmem
    unfold regionEndBlock
    dsimp only
    rw [hbegin]
    exact congrArg (fun b => Option.or b _) hend

theorem regionLoopTree_withSize (hsize : ∀ x, 0 < size x) (hsize' : ∀ x, 0 < size' x) (hne : bbList ≠ [])
    (hmem : ∀ y ∈ bbList, y ∈ fn.orderedCFG) (hheader : ∀ L ∈ fn.loopInfo.nodes, L.header ∈ fn.orderedCFG) :
    regionLoopTree (fn.withSize size) bbList = regionLoopTree (fn.withSize size') bbList := by
  refine createLoopTree_congr fun L hL => ?_
  rw [Bool.eq_iff_iff]
  have hsize : ∀ x, 0 < (fn.withSize size).size x := hsize
  have hsize' : ∀ x, 0 < (fn.withSize size').size x := hsize'
  have hnear := inBounds_regionBounds_iff hsize hne hmem (hheader L hL)
  have hnear' := inBounds_regionBounds_iff hsize' hne hmem (hheader L hL)
  exact hnear.trans hnear'.symm

theorem instrumentDynamicLoops_withSize (opts : PassOptions) (size : β → Nat) (tree : Forest (LoopData β))
    (s : RegionState β) :
    instrumentDynamicLoops opts (fn.withSize size) tree s = instrumentDynamicLoops opts fn tree s := by
  induction tree generalizing s with
  | nil => rfl
  | node d ch sib ihch ihsib =>
    unfold instrumentDynamicLoops
    dsimp only
    rw [ihch, ihsib]
    rfl

/-- The counters of a region do not depend on the sizes of the blocks. -/
theorem instrumentPragmaRegion_withSize (opts : PassOptions) (hsize : ∀ x, 0 < size x) (hsize' : ∀ x, 0 < size' x)
    (hmem : ∀ y ∈ bbList, y ∈ fn.orderedCFG) (hheader : ∀ L ∈ fn.loopInfo.nodes, L.header ∈ fn.orderedCFG) :
    InstrumentPragmaRegion opts (fn.withSize size) bbList =
      InstrumentPragmaRegion opts (fn.withSize size') bbList := by
  unfold InstrumentPragmaRegion
  by_cases hempty : bbList.isEmpty
  · rw [if_pos hempty, if_pos hempty]
  · have hne : bbList ≠ [] := fun h => hempty (by simp [h])
    rw [if_neg hempty, if_neg hempty, regionLoopTree_withSize hsize hsize' hne hmem hheader]
    simp only [instrumentLoops, instrumentDynamicLoops_withSize]
    rfl

end ZRay.Pass
