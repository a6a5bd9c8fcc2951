import ZRay.ControlFlow.Walk
import ZRay.Pass.Instrument

/-!
# The bounds of a region

`regionBounds` finds the block of a region that starts first in the ordered block list.  With the order
`orderBasicBlocks` makes, where a block follows its dominators, that is the block which dominates the others
(`beginBlock_eq_of_dominates`).  Offsets grow along the list, so the bounds can be read as places in it.
-/

namespace ZRay.Pass

open FlowGraph

variable {β : Type*} [DecidableEq β]

/-- What `orderBasicBlocks` lists: every reachable block, behind the blocks that dominate it;
and no block is empty. -/
structure OrdersBlocks (g : FlowGraph β) (fn : FunctionAnalysis β) : Prop where
  mem : ∀ x, g.Reachable x → x ∈ fn.orderedCFG
  dominator_first : ∀ a x, g.Reachable x → g.Dominates a x → fn.orderedCFG.idxOf a ≤ fn.orderedCFG.idxOf x
  size_pos : ∀ x, 0 < fn.size x

/-- A list that is itself a run through all reachable blocks is such an order. -/
theorem OrdersBlocks.of_walk {g : FlowGraph β} {fn : FunctionAnalysis β} {z : β}
    (hwalk : g.Walk g.entry fn.orderedCFG z)
    (hclosed : ∀ x ∈ fn.orderedCFG, ∀ y ∈ g.succs x, y ∈ fn.orderedCFG) (hsize : ∀ x, 0 < fn.size x) :
    OrdersBlocks g fn := by
  have hmem : ∀ x, g.Reachable x → x ∈ fn.orderedCFG := by
    rintro x ⟨w, hw⟩
    exact hw.mem_of_closed hclosed hwalk.source_mem
  refine ⟨hmem, fun a x hx hdom => ?_, hsize⟩
  obtain ⟨u, v, heq, hnot, hu, -⟩ := hwalk.exists_first (hmem x hx)
  have hplace : fn.orderedCFG.idxOf x = u.length := by
    rw [heq, List.idxOf_append_of_notMem hnot, List.idxOf_cons_self, Nat.add_zero]
  rcases List.mem_append.mp (hdom _ hu) with ha | ha
  · have hlt := List.idxOf_lt_length_of_mem ha
    rw [hplace, heq, List.idxOf_append_of_mem ha]
    omega
  · rw [List.mem_singleton.mp ha]

/-- The offset of the start of a block. -/
def getBBStart (size : β → Nat) (orderedCFG : List β) (bb : β) : Nat := getBBOffset size orderedCFG bb - size bb

section

variable (size : β → Nat) {orderedCFG : List β}

omit [DecidableEq β] in
theorem sum_take_succ {n : Nat} (hn : n < orderedCFG.length) :
    ((orderedCFG.take (n + 1)).map size).sum = ((orderedCFG.take n).map size).sum + size orderedCFG[n] := by
  rw [List.take_succ_eq_append_getElem hn, List.map_append, List.sum_append]
  simp

omit [DecidableEq β] in
theorem sum_take_le {m n : Nat} (h : m ≤ n) :
    ((orderedCFG.take m).map size).sum ≤ ((orderedCFG.take n).map size).sum := by
  rw [show n = m + (n - m) by omega, List.take_add, List.map_append, List.sum_append]
  exact Nat.le_add_right _ _

variable {size} in
omit [DecidableEq β] in
theorem sum_take_le_iff (hsize : ∀ x, 0 < size x) {m n : Nat} (hm : m ≤ orderedCFG.length) :
    ((orderedCFG.take m).map size).sum ≤ ((orderedCFG.take n).map size).sum ↔ m ≤ n := by
  refine ⟨fun hle => ?_, sum_take_le size⟩
  by_contra hlt
  have hn : n < orderedCFG.length := by omega
  have hsucc := sum_take_succ size hn
  have hgrow : ((orderedCFG.take (n + 1)).map size).sum ≤ ((orderedCFG.take m).map size).sum :=
    sum_take_le size (by omega)
  have hpos := hsize orderedCFG[n]
  omega

/-- The start of a listed block is its place: the sizes of the blocks before it. -/
theorem getBBStart_eq {bb : β} (hbb : bb ∈ orderedCFG) :
    getBBStart size orderedCFG bb = ((orderedCFG.take (orderedCFG.idxOf bb)).map size).sum := by
  have hlt := List.idxOf_lt_length_of_mem hbb
  have hsum := sum_take_succ size hlt
  rw [List.getElem_idxOf hlt] at hsum
  unfold getBBStart getBBOffset
  omega

theorem getBBStart_lt {bb : β} (hsize : ∀ x, 0 < size x) (hbb : bb ∈ orderedCFG) :
    getBBStart size orderedCFG bb < getBBOffset size orderedCFG bb := by
  have hlt := List.idxOf_lt_length_of_mem hbb
  have hsum := sum_take_succ size hlt
  have hpos := hsize bb
  rw [List.getElem_idxOf hlt] at hsum
  unfold getBBStart getBBOffset
  omega

variable (orderedCFG)

theorem visit_e (r : RegionBounds β) (bb : β) :
    (r.visit size orderedCFG bb).e = max r.e (getBBOffset size orderedCFG bb) := by
  by_cases he : r.e < getBBOffset size orderedCFG bb
  · by_cases hb : getBBOffset size orderedCFG bb - size bb < r.b
    · simp [RegionBounds.visit, he, hb]
      omega
    · simp [RegionBounds.visit, he, hb]
      omega
  · by_cases hb : getBBOffset size orderedCFG bb - size bb < r.b
    · simp [RegionBounds.visit, he, hb]
      omega
    · simp [RegionBounds.visit, he, hb]
      omega

theorem visit_b (r : RegionBounds β) (bb : β) :
    ((r.visit size orderedCFG bb).b = r.b ∧ (r.visit size orderedCFG bb).beginBlock = r.beginBlock ∧
        r.b ≤ getBBStart size orderedCFG bb) ∨
      ((r.visit size orderedCFG bb).b = getBBStart size orderedCFG bb ∧
        (r.visit size orderedCFG bb).beginBlock = some bb ∧ getBBStart size orderedCFG bb < r.b) := by
  unfold getBBStart
  by_cases hb : getBBOffset size orderedCFG bb - size bb < r.b
  · right
    by_cases he : r.e < getBBOffset size orderedCFG bb
    · simp [RegionBounds.visit, he, hb]
    · simp [RegionBounds.visit, he, hb]
  · left
    by_cases he : r.e < getBBOffset size orderedCFG bb
    · simp [RegionBounds.visit, he, hb]
      omega
    · simp [RegionBounds.visit, he, hb]
      omega

/-- The bounds loop: it keeps the first block with the least start, and the greatest end. -/
theorem foldl_visit (npd : List β) (r : RegionBounds β) :
    let r' := npd.foldl (RegionBounds.visit size orderedCFG) r
    (r'.b = r.b ∧ r'.beginBlock = r.beginBlock ∧ (∀ y ∈ npd, r.b ≤ getBBStart size orderedCFG y) ∨
      ∃ x ∈ npd, r'.beginBlock = some x ∧ r'.b = getBBStart size orderedCFG x ∧ r'.b < r.b ∧
        ∀ y ∈ npd, r'.b ≤ getBBStart size orderedCFG y) ∧
    r.e ≤ r'.e ∧ (∀ y ∈ npd, getBBOffset size orderedCFG y ≤ r'.e) ∧
    (r'.e = r.e ∨ ∃ x ∈ npd, r'.e = getBBOffset size orderedCFG x) := by
  induction npd generalizing r with
  | nil => simp
  | cons a npd ih =>
    obtain ⟨hb, hre, hall, he⟩ := ih (r.visit size orderedCFG a)
    rw [List.foldl_cons]
    generalize npd.foldl (RegionBounds.visit size orderedCFG) (r.visit size orderedCFG a) = r' at *
    have hve := visit_e size orderedCFG r a
    have hvb := visit_b size orderedCFG r a
    refine ⟨?_, by omega, fun y hy => ?_, ?_⟩
    · rcases hvb with ⟨hb1, hb2, hle⟩ | ⟨hb1, hb2, hlt⟩
      · rcases hb with ⟨h1, h2, h3⟩ | ⟨x, hx, h1, h2, h3, h4⟩
        · refine .inl ⟨h1.trans hb1, h2.trans hb2, fun y hy => ?_⟩
          rcases List.mem_cons.mp hy with rfl | hy
          · exact hle
          · exact hb1 ▸ h3 y hy
        · refine .inr ⟨x, List.mem_cons_of_mem a hx, h1, h2, by omega, fun y hy => ?_⟩
          rcases List.mem_cons.mp hy with rfl | hy
          · omega
          · exact h4 y hy
      · rcases hb with ⟨h1, h2, h3⟩ | ⟨x, hx, h1, h2, h3, h4⟩
        · refine .inr ⟨a, List.mem_cons_self, h2.trans hb2, h1.trans hb1, by omega, fun y hy => ?_⟩
          rcases List.mem_cons.mp hy with rfl | hy
          · omega
          · exact h1 ▸ h3 y hy
        · refine .inr ⟨x, List.mem_cons_of_mem a hx, h1, h2, by omega, fun y hy => ?_⟩
          rcases List.mem_cons.mp hy with rfl | hy
          · omega
          · exact h4 y hy
    · rcases List.mem_cons.mp hy with rfl | hy
      · omega
      · exact hall y hy
    · rcases he with he | ⟨x, hx, he⟩
      · rcases Nat.le_total (getBBOffset size orderedCFG a) r.e with hle | hle
        · exact .inl (by omega)
        · exact .inr ⟨a, List.mem_cons_self, by omega⟩
      · exact .inr ⟨x, List.mem_cons_of_mem a hx, he⟩

end

/-- The bounds as places in the list: the first block of the region, or the one before it when the first has a begin
marker and two blocks before it; and the place behind the last block. -/
theorem regionBounds_spec {fn : FunctionAnalysis β} (hsize : ∀ x, 0 < fn.size x) {bbList : List β} (hne : bbList ≠ [])
    (hmem : ∀ y ∈ bbList, y ∈ fn.orderedCFG) :
    ∃ x ∈ bbList, (∀ y ∈ bbList, fn.orderedCFG.idxOf x ≤ fn.orderedCFG.idxOf y) ∧
      (regionBounds fn.size fn.detectPragma fn.orderedCFG bbList).beginBlock = some x ∧
      (regionBounds fn.size fn.detectPragma fn.orderedCFG bbList).b = ((fn.orderedCFG.take
        (if fn.detectPragma x = true ∧ 2 ≤ fn.orderedCFG.idxOf x then fn.orderedCFG.idxOf x - 1
          else fn.orderedCFG.idxOf x)).map fn.size).sum ∧
      ∃ z ∈ bbList, (∀ y ∈ bbList, fn.orderedCFG.idxOf y ≤ fn.orderedCFG.idxOf z) ∧
        (regionBounds fn.size fn.detectPragma fn.orderedCFG bbList).e =
          ((fn.orderedCFG.take (fn.orderedCFG.idxOf z + 1)).map fn.size).sum := by
  cases bbList with
  | nil => exact absurd rfl hne
  | cons first rest =>
    have hplace : ∀ y ∈ first :: rest, fn.orderedCFG.idxOf y < fn.orderedCFG.length :=
      fun y hy => List.idxOf_lt_length_of_mem (hmem y hy)
    obtain ⟨hb, -, hend, he⟩ := foldl_visit fn.size fn.orderedCFG (first :: rest)
      ⟨getBBOffset fn.size fn.orderedCFG first, getBBOffset fn.size fn.orderedCFG first, none⟩
    unfold regionBounds
    dsimp only
    generalize (first :: rest).foldl (RegionBounds.visit fn.size fn.orderedCFG)
      ⟨getBBOffset fn.size fn.orderedCFG first, getBBOffset fn.size fn.orderedCFG first, none⟩ = r at hb hend he ⊢
    -- the last block of the region
    obtain ⟨z, hz, hre⟩ : ∃ z ∈ first :: rest, r.e = getBBOffset fn.size fn.orderedCFG z :=
      he.elim (fun he => ⟨first, List.mem_cons_self, he⟩) fun he => he
    have hlast : ∀ y ∈ first :: rest, fn.orderedCFG.idxOf y ≤ fn.orderedCFG.idxOf z := by
      intro y hy
      have hle := hend y hy
      have hplacey := hplace y hy
      rw [hre, getBBOffset, getBBOffset, sum_take_le_iff hsize (by omega)] at hle
      omega
    rcases hb with ⟨-, -, hall⟩ | ⟨x, hx, hbegin, hstart, -, hall⟩
    · have hfirst := hall first List.mem_cons_self
      have hlt := getBBStart_lt fn.size hsize (hmem first List.mem_cons_self)
      dsimp only at hfirst
      omega
    · rw [getBBStart_eq fn.size (hmem x hx)] at hstart
      have hplacex := hplace x hx
      refine ⟨x, hx, fun y hy => ?_, ?_⟩
      · have hle := hall y hy
        rwa [hstart, getBBStart_eq fn.size (hmem y hy), sum_take_le_iff hsize (by omega)] at hle
      · rw [hbegin]
        dsimp only
        -- the place before the first block is an earlier one from the third block on
        have hprev : getPreviousBBOffset fn.size fn.orderedCFG x < r.b ↔ 2 ≤ fn.orderedCFG.idxOf x := by
          rw [← not_le, hstart, getPreviousBBOffset, sum_take_le_iff hsize (by omega)]
          omega
        by_cases hpragma : fn.detectPragma x = true
        · by_cases hthird : 2 ≤ fn.orderedCFG.idxOf x
          · rw [if_pos hpragma, if_pos (hprev.mpr hthird), if_pos ⟨hpragma, hthird⟩]
            refine ⟨rfl, ?_, z, hz, hlast, hre⟩
            rw [getPreviousBBOffset, show fn.orderedCFG.idxOf x - 2 + 1 = fn.orderedCFG.idxOf x - 1 by omega]
          · rw [if_pos hpragma, if_neg (fun h => hthird (hprev.mp h)), if_neg (fun h => hthird h.2)]
            exact ⟨hbegin, hstart, z, hz, hlast, hre⟩
        · rw [if_neg hpragma, if_neg (fun h => hpragma h.1)]
          exact ⟨hbegin, hstart, z, hz, hlast, hre⟩

/-- The block `beginBlock` that gets the entry call of a region. -/
def regionBeginBlock (fn : FunctionAnalysis β) (bbList : List β) : Option β :=
  (regionBounds fn.size fn.detectPragma fn.orderedCFG bbList).beginBlock

/-- The begin block is a block of the region. -/
theorem mem_of_regionBeginBlock {fn : FunctionAnalysis β} {bbList : List β} {x : β}
    (h : regionBeginBlock fn bbList = some x) : x ∈ bbList := by
  have hvisit : ∀ (l : List β) (r : RegionBounds β), (∀ y, r.beginBlock = some y → y ∈ bbList) →
      (∀ y ∈ l, y ∈ bbList) → ∀ y, (l.foldl (RegionBounds.visit fn.size fn.orderedCFG) r).beginBlock = some y →
        y ∈ bbList := by
    intro l
    induction l with
    | nil => exact fun r hr _ => hr
    | cons b bs ih =>
      intro r hr hl
      refine ih _ (fun y hy => ?_) fun y hy => hl y (List.mem_cons_of_mem b hy)
      have hstep : (RegionBounds.visit fn.size fn.orderedCFG r b).beginBlock = r.beginBlock ∨
          (RegionBounds.visit fn.size fn.orderedCFG r b).beginBlock = some b := by
        unfold RegionBounds.visit
        dsimp only
        split <;> split <;> simp
      rcases hstep with hsame | hb
      · exact hr y (hsame ▸ hy)
      · rw [hb, Option.some.injEq] at hy
        exact hl y (hy ▸ List.mem_cons_self)
  unfold regionBeginBlock regionBounds at h
  cases bbList with
  | nil => simp at h
  | cons first rest =>
    have hmem := hvisit (first :: rest)
      ⟨getBBOffset fn.size fn.orderedCFG first, getBBOffset fn.size fn.orderedCFG first, none⟩ (by simp) fun y hy =>
        hy
    dsimp only at h
    generalize List.foldl (RegionBounds.visit fn.size fn.orderedCFG) _ (first :: rest) = r at h hmem
    refine hmem x ?_
    -- widening the bounds keeps the block
    split at h
    · exact h
    · split at h
      · split at h
        · exact h
        · exact h
      · exact h

/-- The block of a region that dominates the others is its begin block. -/
theorem beginBlock_eq_of_dominates {g : FlowGraph β} {fn : FunctionAnalysis β} (horder : OrdersBlocks g fn)
    {bbList : List β} {x : β} (hx : x ∈ bbList) (hreach : ∀ y ∈ bbList, g.Reachable y)
    (hdom : ∀ y ∈ bbList, g.Dominates x y) : regionBeginBlock fn bbList = some x := by
  have hmem : ∀ y ∈ bbList, y ∈ fn.orderedCFG := fun y hy => horder.mem y (hreach y hy)
  obtain ⟨y, hy, hleast, hbegin, -⟩ := regionBounds_spec horder.size_pos (List.ne_nil_of_mem hx) hmem
  -- no other block is listed as early
  have hidx : fn.orderedCFG.idxOf x = fn.orderedCFG.idxOf y :=
    le_antisymm (horder.dominator_first x y (hreach y hy) (hdom y hy)) (hleast x hx)
  rw [regionBeginBlock, hbegin, (List.idxOf_inj (hmem x hx)).mp hidx]

/-! ### Loops near a region -/

/-- A block near a region: it is listed no earlier than the first block of the region, or is the block right before it
when the first block has a begin marker and two blocks before it; and it is listed no later than right behind a block
of the region. -/
def NearRegion (fn : FunctionAnalysis β) (bbList : List β) (h : β) : Prop :=
  (∃ x ∈ bbList, (∀ y ∈ bbList, fn.orderedCFG.idxOf x ≤ fn.orderedCFG.idxOf y) ∧
    (fn.orderedCFG.idxOf x ≤ fn.orderedCFG.idxOf h ∨ (fn.detectPragma x = true ∧ 2 ≤ fn.orderedCFG.idxOf x ∧
      fn.orderedCFG.idxOf x = fn.orderedCFG.idxOf h + 1))) ∧
  ∃ y ∈ bbList, fn.orderedCFG.idxOf h ≤ fn.orderedCFG.idxOf y + 1

instance (fn : FunctionAnalysis β) (bbList : List β) (h : β) : Decidable (NearRegion fn bbList h) :=
  inferInstanceAs (Decidable (_ ∧ _))

/-- A loop header lies in the bounds of a region exactly when it is near the region. -/
theorem inBounds_regionBounds_iff {fn : FunctionAnalysis β} (hsize : ∀ x, 0 < fn.size x) {bbList : List β}
    (hne : bbList ≠ []) (hmem : ∀ y ∈ bbList, y ∈ fn.orderedCFG) {h : β} (hh : h ∈ fn.orderedCFG) :
    inBounds (regionBounds fn.size fn.detectPragma fn.orderedCFG bbList).b
        (regionBounds fn.size fn.detectPragma fn.orderedCFG bbList).e
        (getBBOffset fn.size fn.orderedCFG h - fn.size h) = true ↔ NearRegion fn bbList h := by
  obtain ⟨x, hx, hleast, -, hb, z, hz, hlast, he⟩ := regionBounds_spec hsize hne hmem
  have hplacex := List.idxOf_lt_length_of_mem (hmem x hx)
  have hplaceh := List.idxOf_lt_length_of_mem hh
  have hstart := getBBStart_eq fn.size hh
  rw [getBBStart] at hstart
  rw [inBounds, Bool.and_eq_true, decide_eq_true_eq, decide_eq_true_eq, hstart, hb, he,
    sum_take_le_iff hsize (by split <;> omega), sum_take_le_iff hsize (by omega)]
  refine and_congr ⟨fun hle => ⟨x, hx, hleast, ?_⟩, ?_⟩ ⟨fun hle => ⟨z, hz, hle⟩, ?_⟩
  · split at hle
    · rename_i hpragma
      rcases Nat.lt_or_ge (fn.orderedCFG.idxOf h) (fn.orderedCFG.idxOf x) with hlt | hge
      · exact .inr ⟨hpragma.1, hpragma.2, by omega⟩
      · exact .inl hge
    · exact .inl hle
  · rintro ⟨y, hy, hleasty, hplace⟩
    have hidx : fn.orderedCFG.idxOf y = fn.orderedCFG.idxOf x := le_antisymm (hleasty x hx) (hleast y hy)
    obtain rfl := (List.idxOf_inj (hmem y hy)).mp hidx
    rcases hplace with hle | ⟨hpragma, hthird, heq⟩
    · split <;> omega
    · rw [if_pos ⟨hpragma, hthird⟩]
      omega
  · rintro ⟨y, hy, hle⟩
    exact le_trans hle (Nat.succ_le_succ (hlast y hy))

end ZRay.Pass
