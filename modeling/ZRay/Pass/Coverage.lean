import ZRay.Pass.ScaleFactorSets

/-!
# Every block of a region gets one counter

Blocks move from the region's list to counters, and the proof follows one block `x`: the number of times the counters
record it plus its occurrences in the list.  Scale-factor sets and post-dominator sets keep the sum
(`held_instrumentSFLoopSets`).  A dynamic loop keeps it unless scalar evolution loses the trip count when the edge is
split: then the loop's blocks, already erased from the region's list, are looked up there a second time and are lost
(`held_instrumentDynamicLoop_cases`).  So a block is recorded once, or not at all when it is directly in such a loop
(`recorded_eq`).
-/

namespace ZRay.Pass

variable {β : Type*} [DecidableEq β]

/-- How often the counters record the block `x`. -/
def recorded (x : β) (counters : List (Counter β)) : Nat := (counters.flatMap Counter.blocks).count x

@[simp] theorem recorded_nil (x : β) : recorded x ([] : List (Counter β)) = 0 := rfl

@[simp] theorem recorded_append (x : β) (c c' : List (Counter β)) :
    recorded x (c ++ c') = recorded x c + recorded x c' := by
  simp [recorded]

@[simp] theorem recorded_cons (x : β) (c : Counter β) (cs : List (Counter β)) :
    recorded x (c :: cs) = c.blocks.count x + recorded x cs := by
  simp [recorded]

@[simp] theorem recorded_instrumentPostDomSet (opts : PassOptions) (trees : DominatorTrees β) (x : β) (npd : List β) :
    recorded x (instrumentPostDomSet opts trees npd) = npd.count x :=
  (flatMap_blocks_instrumentPostDomSet_perm npd).count_eq x

/-! ### Taking a loop's blocks -/

theorem count_takeLoopBlocks (inPD : β → Bool) (uniqueBB pool : List β) (x : β) :
    (takeLoopBlocks inPD uniqueBB pool).pd.count x + (takeLoopBlocks inPD uniqueBB pool).npd.count x +
      (takeLoopBlocks inPD uniqueBB pool).pragmaBlocks.count x = pool.count x := by
  induction uniqueBB generalizing pool with
  | nil => simp [takeLoopBlocks]
  | cons b bs ih =>
    unfold takeLoopBlocks
    by_cases hb : b ∈ pool
    · have hpool : pool.count x = (pool.erase b).count x + if b = x then 1 else 0 := by
        rw [(List.perm_cons_erase hb).count_eq, List.count_cons]
        simp
      have hrec := ih (pool.erase b)
      by_cases hin : inPD b = true
      · simp only [hb, hin, if_true, List.count_cons, beq_iff_eq]
        omega
      · simp only [hb, hin, if_true, Bool.false_eq_true, if_false, List.count_cons, beq_iff_eq]
        omega
    · simp only [hb, if_false]
      exact ih pool

/-- The first list gets the blocks of the loop that pass the test and are still in the region's list. -/
theorem mem_pd_takeLoopBlocks (inPD : β → Bool) {uniqueBB : List β} (pool : List β) (hnodup : uniqueBB.Nodup)
    {x : β} :
    x ∈ (takeLoopBlocks inPD uniqueBB pool).pd ↔ x ∈ uniqueBB ∧ x ∈ pool ∧ inPD x = true := by
  induction uniqueBB generalizing pool with
  | nil => simp [takeLoopBlocks]
  | cons b bs ih =>
    obtain ⟨hb, hbs⟩ := List.nodup_cons.mp hnodup
    unfold takeLoopBlocks
    by_cases hmem : b ∈ pool
    · have hrec := ih (pool.erase b) hbs
      by_cases hx : x = b
      · subst hx
        have hrest : x ∉ (takeLoopBlocks inPD bs (pool.erase x)).pd := fun h => hb (hrec.mp h).1
        by_cases hin : inPD x = true
        · simp [hmem, hin]
        · simp [hmem, hin, hrest]
      · have herase : x ∈ pool.erase b ↔ x ∈ pool := List.mem_erase_of_ne hx
        rw [herase] at hrec
        by_cases hin : inPD b = true
        · simp [hmem, hin, hrec, hx]
        · simp [hmem, hin, hrec, hx]
    · have hrec := ih pool hbs
      simp only [hmem, if_false, hrec, List.mem_cons]
      constructor
      · rintro ⟨h1, h2⟩
        exact ⟨.inr h1, h2⟩
      · rintro ⟨rfl | h1, h2⟩
        · exact absurd h2.1 hmem
        · exact ⟨h1, h2⟩

/-- A block that is not in the loop goes to neither list. -/
theorem count_lists_takeLoopBlocks (inPD : β → Bool) {uniqueBB : List β} (pool : List β) {x : β} (hx : x ∉ uniqueBB) :
    (takeLoopBlocks inPD uniqueBB pool).pd.count x = 0 ∧ (takeLoopBlocks inPD uniqueBB pool).npd.count x = 0 := by
  induction uniqueBB generalizing pool with
  | nil => simp [takeLoopBlocks]
  | cons b bs ih =>
    have hbx : b ≠ x := fun h => hx (h ▸ List.mem_cons_self)
    have hxbs : x ∉ bs := fun h => hx (List.mem_cons_of_mem b h)
    unfold takeLoopBlocks
    split
    · obtain ⟨hpd, hnpd⟩ := ih (pool.erase b) hxbs
      split
      · exact ⟨by rw [List.count_cons_of_ne hbx, hpd], hnpd⟩
      · exact ⟨hpd, by rw [List.count_cons_of_ne hbx, hnpd]⟩
    · exact ih pool hxbs

/-- Only blocks of the loop leave the region's list. -/
theorem count_pragmaBlocks_takeLoopBlocks (inPD : β → Bool) {uniqueBB : List β} (pool : List β) {x : β}
    (hx : x ∉ uniqueBB) : (takeLoopBlocks inPD uniqueBB pool).pragmaBlocks.count x = pool.count x := by
  have hcount := count_takeLoopBlocks inPD uniqueBB pool x
  obtain ⟨hpd, hnpd⟩ := count_lists_takeLoopBlocks inPD pool hx
  omega

/-- A block of the loop is taken out of the region's list. -/
theorem count_pragmaBlocks_takeLoopBlocks_of_mem (inPD : β → Bool) {uniqueBB pool : List β}
    {x : β} (hx : x ∈ uniqueBB) (hle : pool.count x ≤ 1) :
      (takeLoopBlocks inPD uniqueBB pool).pragmaBlocks.count x = 0 := by
  induction uniqueBB generalizing pool with
  | nil => exact absurd hx List.not_mem_nil
  | cons b bs ih =>
    unfold takeLoopBlocks
    by_cases hb : b = x
    · subst hb
      by_cases hmem : b ∈ pool
      · have herase : (pool.erase b).count b = 0 := by
          rw [List.count_erase_self]
          omega
        have hcount := count_takeLoopBlocks inPD bs (pool.erase b) b
        rw [if_pos hmem]
        split <;> (dsimp only; omega)
      · have hcount := count_takeLoopBlocks inPD bs pool b
        rw [List.count_eq_zero_of_not_mem hmem] at hcount
        rw [if_neg hmem]
        omega
    · have hxbs : x ∈ bs := (List.mem_cons.mp hx).resolve_left (Ne.symm hb)
      split
      · have herase : (pool.erase b).count x ≤ 1 := by rwa [List.count_erase_of_ne (Ne.symm hb)]
        split <;> exact ih hxbs herase
      · exact ih hxbs hle

/-- With no block accepted, the first list is empty. -/
theorem pd_takeLoopBlocks_false (uniqueBB pool : List β) :
    (takeLoopBlocks (fun _ => false) uniqueBB pool).pd = [] := by
  induction uniqueBB generalizing pool with
  | nil => rfl
  | cons b bs ih =>
    unfold takeLoopBlocks
    split
    · exact ih (pool.erase b)
    · exact ih pool

/-! ### Scale-factor sets -/

/-- The block `x` in the hands of `instrumentSFLoopSet`: in a counter, in the lists of the set, or in the region's
list. -/
def SetState.held (x : β) (s : SetState β) : Nat :=
  recorded x s.counters + (s.headerPDBlocks.flatMap Prod.fst).count x + s.pragmaBlocks.count x

theorem held_takeLoop (opts : PassOptions) (trees : DominatorTrees β) (d : LoopData β) (sf : Nat) (s : SetState β)
    (x : β) : (s.takeLoop opts trees d sf).held x = s.held x := by
  have hcount := count_takeLoopBlocks (fun b => trees.postDominates b d.loop.header) (getUniqueLoopBB d)
    s.pragmaBlocks x
  simp only [SetState.held, SetState.takeLoop, recorded_append, recorded_instrumentPostDomSet, List.flatMap_append,
    List.flatMap_cons, List.flatMap_nil, List.append_nil, List.count_append]
  omega

theorem held_instrumentSFLoopSet (opts : PassOptions) (trees : DominatorTrees β) (j : Nat)
    (parent : Option (LoopData β)) (sf : Nat) (t : Forest (LoopData β)) (s : SetState β) (x : β) :
    (instrumentSFLoopSet opts trees j parent sf t s).2.held x = s.held x := by
  induction t generalizing parent sf s with
  | nil => rfl
  | node d ch sib ihc ihs =>
    unfold instrumentSFLoopSet
    split
    · exact ihs parent sf s
    · split
      · exact ihs parent sf { s with loopSFSet := s.loopSFSet + 1 }
      · dsimp only
        rw [ihs, ihc, held_takeLoop]

/-- A block directly in no loop with a trip count stays in the region's list. -/
theorem count_pragmaBlocks_instrumentSFLoopSet (opts : PassOptions) (trees : DominatorTrees β) {j : Nat} (hj : j ≠ 0)
    (parent : Option (LoopData β)) (sf : Nat) (t : Forest (LoopData β)) (s : SetState β) {x : β}
    (hx : ∀ d ∈ t.nodes, d.setColor ≠ 0 → x ∉ getUniqueLoopBB d) :
    (instrumentSFLoopSet opts trees j parent sf t s).2.pragmaBlocks.count x = s.pragmaBlocks.count x := by
  induction t generalizing parent sf s with
  | nil => rfl
  | node d ch sib ihc ihs =>
    have hxc : ∀ d ∈ ch.nodes, d.setColor ≠ 0 → x ∉ getUniqueLoopBB d := fun e he => hx e (by simp [he])
    have hxs : ∀ d ∈ sib.nodes, d.setColor ≠ 0 → x ∉ getUniqueLoopBB d := fun e he => hx e (by simp [he])
    unfold instrumentSFLoopSet
    split
    · exact ihs parent sf s hxs
    · rename_i hcolor
      split
      · exact ihs parent sf { s with loopSFSet := s.loopSFSet + 1 } hxs
      · have hxd : x ∉ getUniqueLoopBB d := hx d (by simp) (by omega)
        dsimp only
        rw [ihs _ _ _ hxs, ihc _ _ _ hxc]
        exact count_pragmaBlocks_takeLoopBlocks _ _ hxd

/-! ### Dynamic loops -/

/-- The block `x` between the stages: in a counter or in the region's list. -/
def RegionState.held (x : β) (s : RegionState β) : Nat := recorded x s.counters + s.pragmaBlocks.count x

/-- The trip count of the loop is known when the loop is visited, some block of `pool` directly in it post-dominates
its header, and the trip count is lost when the edge is split. -/
def TripCountLost (fn : FunctionAnalysis β) (pool : List β) (d : LoopData β) : Prop :=
  (fn.beforeSplit d.loop.header).isHoistable = true ∧ (fn.afterSplit d.loop.header).isHoistable = false ∧
    ∃ b ∈ getUniqueLoopBB d, b ∈ pool ∧ fn.trees.postDominates b d.loop.header = true

theorem tripCountLost_uncolored {fn : FunctionAnalysis β} {pool : List β} {d : LoopData β} :
    TripCountLost fn pool d.uncolored ↔ TripCountLost fn pool d := Iff.rfl

/-- Is the block directly in the loop moved to the counter in front of it? -/
def inPDSet (fn : FunctionAnalysis β) (d : LoopData β) (b : β) : Bool :=
  (fn.beforeSplit d.loop.header).isHoistable && fn.trees.postDominates b d.loop.header

/-- The trip count is lost when there are blocks to count in front of the loop, and the counter cannot be inserted. -/
theorem tripCountLost_iff (fn : FunctionAnalysis β) {d : LoopData β} (hnodup : (getUniqueLoopBB d).Nodup)
    (pool : List β) :
    TripCountLost fn pool d ↔ (takeLoopBlocks (inPDSet fn d) (getUniqueLoopBB d) pool).pd ≠ [] ∧
      (fn.afterSplit d.loop.header).isHoistable = false := by
  have hmem := fun x => mem_pd_takeLoopBlocks (inPDSet fn d) pool hnodup (x := x)
  simp only [inPDSet, Bool.and_eq_true] at hmem
  constructor
  · rintro ⟨hbefore, hafter, b, hb, hpool, hpd⟩
    exact ⟨List.ne_nil_of_mem ((hmem b).mpr ⟨hb, hpool, hbefore, hpd⟩), hafter⟩
  · rintro ⟨hne, hafter⟩
    obtain ⟨b, hb⟩ := List.exists_mem_of_ne_nil _ hne
    obtain ⟨hu, hpool, hbefore, hpd⟩ := (hmem b).mp hb
    exact ⟨hbefore, hafter, b, hu, hpool, hpd⟩

/-- A dynamic loop keeps every block, or loses those directly in it. -/
theorem held_instrumentDynamicLoop_cases (opts : PassOptions) (fn : FunctionAnalysis β) {d : LoopData β}
    (hnodup : (getUniqueLoopBB d).Nodup) (s : RegionState β) (x : β) :
    (¬ TripCountLost fn s.pragmaBlocks d → (instrumentDynamicLoop opts fn d s).held x = s.held x) ∧
      (TripCountLost fn s.pragmaBlocks d → (instrumentDynamicLoop opts fn d s).held x = recorded x s.counters +
        (takeLoopBlocks (inPDSet fn d) (getUniqueLoopBB d) s.pragmaBlocks).pragmaBlocks.count x) := by
  rw [tripCountLost_iff fn hnodup]
  have hcount := count_takeLoopBlocks (inPDSet fn d) (getUniqueLoopBB d) s.pragmaBlocks x
  have hlists : takeLoopBlocks (fun b => (fn.beforeSplit d.loop.header).isHoistable &&
      fn.trees.postDominates b d.loop.header) (getUniqueLoopBB d) s.pragmaBlocks =
    takeLoopBlocks (inPDSet fn d) (getUniqueLoopBB d) s.pragmaBlocks := rfl
  unfold instrumentDynamicLoop
  dsimp only
  rw [hlists]
  generalize takeLoopBlocks (inPDSet fn d) (getUniqueLoopBB d) s.pragmaBlocks = r at hcount ⊢
  by_cases hpd : r.pd = []
  · -- nothing to hoist
    rw [hpd, List.count_nil, Nat.zero_add] at hcount
    refine ⟨fun _ => ?_, fun hlost => absurd hpd hlost.1⟩
    simp only [insertDynamicLoopCounter, hpd, List.isEmpty_nil, if_true, RegionState.held, recorded_append,
      recorded_instrumentPostDomSet]
    omega
  · have hempty : r.pd.isEmpty = false := by simpa using hpd
    by_cases hafter : (fn.afterSplit d.loop.header).isHoistable = true
    · -- hoisted
      refine ⟨fun _ => ?_, fun hlost => absurd (hlost.2.symm.trans hafter) (by simp)⟩
      simp only [insertDynamicLoopCounter, hempty, hafter, Bool.false_eq_true, if_false, if_true, RegionState.held,
        recorded_append, recorded_cons, recorded_instrumentPostDomSet, Counter.blocks_dynamicLoop]
      omega
    · -- both lists are cleared, and the second search finds what is left only
      have hafter' : (fn.afterSplit d.loop.header).isHoistable = false := by simpa using hafter
      have hagain := count_takeLoopBlocks (fun _ => false) (getUniqueLoopBB d) r.pragmaBlocks x
      rw [pd_takeLoopBlocks_false, List.count_nil, Nat.zero_add] at hagain
      refine ⟨fun hkept => absurd ⟨hpd, hafter'⟩ hkept, fun _ => ?_⟩
      simp only [insertDynamicLoopCounter, hempty, hafter', Bool.false_eq_true, if_false, RegionState.held,
        recorded_append, recorded_instrumentPostDomSet]
      omega

theorem held_instrumentDynamicLoop_le (opts : PassOptions) (fn : FunctionAnalysis β) {d : LoopData β}
    (hnodup : (getUniqueLoopBB d).Nodup) (s : RegionState β) (x : β) :
    (instrumentDynamicLoop opts fn d s).held x ≤ s.held x := by
  obtain ⟨hkept, hlost⟩ := held_instrumentDynamicLoop_cases opts fn hnodup s x
  by_cases h : TripCountLost fn s.pragmaBlocks d
  · have hcount := count_takeLoopBlocks (inPDSet fn d) (getUniqueLoopBB d) s.pragmaBlocks x
    rw [hlost h, RegionState.held]
    omega
  · exact le_of_eq (hkept h)

/-- Only blocks directly in the loop leave the region's list. -/
theorem count_pragmaBlocks_instrumentDynamicLoop (opts : PassOptions) (fn : FunctionAnalysis β) {d : LoopData β}
    (s : RegionState β) {x : β} (hx : x ∉ getUniqueLoopBB d) :
    (instrumentDynamicLoop opts fn d s).pragmaBlocks.count x = s.pragmaBlocks.count x := by
  unfold instrumentDynamicLoop
  dsimp only
  split
  · exact count_pragmaBlocks_takeLoopBlocks _ _ hx
  · split
    · exact count_pragmaBlocks_takeLoopBlocks _ _ hx
    · dsimp only
      rw [count_pragmaBlocks_takeLoopBlocks _ _ hx]
      exact count_pragmaBlocks_takeLoopBlocks _ _ hx

theorem count_pragmaBlocks_instrumentDynamicLoops {opts : PassOptions} {fn : FunctionAnalysis β}
    {t : Forest (LoopData β)} {s : RegionState β} {x : β} (hx : x ∉ t.nodes.flatMap getUniqueLoopBB) :
    (instrumentDynamicLoops opts fn t s).pragmaBlocks.count x = s.pragmaBlocks.count x := by
  induction t generalizing s with
  | nil => rfl
  | node d ch sib ihc ihs =>
    simp only [Forest.nodes_node, List.flatMap_cons, List.flatMap_append, List.mem_append, not_or] at hx
    obtain ⟨hxd, hxc, hxs⟩ := hx
    simp only [instrumentDynamicLoops]
    rw [ihs hxs, ihc hxc]
    split
    · exact count_pragmaBlocks_instrumentDynamicLoop opts fn s hxd
    · rfl

theorem mem_iff_of_count_eq {l l' : List β} {x : β} (h : l.count x = l'.count x) : x ∈ l ↔ x ∈ l' := by
  rw [← List.count_pos_iff, h, List.count_pos_iff]

/-- Whether a trip count is lost at a loop depends on the blocks directly in it only. -/
theorem tripCountLost_congr {fn : FunctionAnalysis β} {d : LoopData β} {pool pool' : List β}
    (h : ∀ x ∈ getUniqueLoopBB d, (x ∈ pool ↔ x ∈ pool')) : TripCountLost fn pool d ↔ TripCountLost fn pool' d := by
  unfold TripCountLost
  constructor
  · rintro ⟨hbefore, hafter, b, hb, hpool, hpd⟩
    exact ⟨hbefore, hafter, b, hb, (h b hb).mp hpool, hpd⟩
  · rintro ⟨hbefore, hafter, b, hb, hpool, hpd⟩
    exact ⟨hbefore, hafter, b, hb, (h b hb).mpr hpool, hpd⟩

theorem held_instrumentDynamicLoops_le (opts : PassOptions) (fn : FunctionAnalysis β) {t : Forest (LoopData β)}
    (hnodup : (t.nodes.flatMap getUniqueLoopBB).Nodup) (s : RegionState β) (x : β) :
    (instrumentDynamicLoops opts fn t s).held x ≤ s.held x := by
  induction t generalizing s with
  | nil => exact Nat.le_refl _
  | node d ch sib ihc ihs =>
    simp only [Forest.nodes_node, List.flatMap_cons, List.flatMap_append] at hnodup
    obtain ⟨hnd, hndcs, -⟩ := List.nodup_append'.mp hnodup
    obtain ⟨hndc, hnds, -⟩ := List.nodup_append'.mp hndcs
    simp only [instrumentDynamicLoops]
    refine (ihs hnds _).trans ((ihc hndc _).trans ?_)
    split
    · exact held_instrumentDynamicLoop_le opts fn hnd s x
    · exact Nat.le_refl _

/-! ### The blocks that are lost -/

/-- What the loops do to a block directly in none of them: nothing. -/
theorem instrumentDynamicLoop_of_notMem (opts : PassOptions) (fn : FunctionAnalysis β) {d : LoopData β}
    (hnodup : (getUniqueLoopBB d).Nodup) (s : RegionState β) {x : β} (hx : x ∉ getUniqueLoopBB d) :
    recorded x (instrumentDynamicLoop opts fn d s).counters = recorded x s.counters ∧
      (instrumentDynamicLoop opts fn d s).pragmaBlocks.count x = s.pragmaBlocks.count x := by
  have hpool := count_pragmaBlocks_instrumentDynamicLoop opts fn s hx
  obtain ⟨hkept, hlost⟩ := held_instrumentDynamicLoop_cases opts fn hnodup s x
  rw [count_pragmaBlocks_takeLoopBlocks _ _ hx] at hlost
  simp only [RegionState.held] at hkept hlost
  refine ⟨?_, hpool⟩
  by_cases h : TripCountLost fn s.pragmaBlocks d
  · have heq := hlost h
    omega
  · have heq := hkept h
    omega

theorem instrumentDynamicLoops_of_notMem (opts : PassOptions) (fn : FunctionAnalysis β) {t : Forest (LoopData β)}
    (hnodup : (t.nodes.flatMap getUniqueLoopBB).Nodup) (s : RegionState β) {x : β}
    (hx : x ∉ t.nodes.flatMap getUniqueLoopBB) :
    recorded x (instrumentDynamicLoops opts fn t s).counters = recorded x s.counters ∧
      (instrumentDynamicLoops opts fn t s).pragmaBlocks.count x = s.pragmaBlocks.count x := by
  induction t generalizing s with
  | nil => exact ⟨rfl, rfl⟩
  | node d ch sib ihc ihs =>
    simp only [Forest.nodes_node, List.flatMap_cons, List.flatMap_append] at hnodup hx
    obtain ⟨hnd, hndcs, -⟩ := List.nodup_append'.mp hnodup
    obtain ⟨hndc, hnds, -⟩ := List.nodup_append'.mp hndcs
    simp only [List.mem_append, not_or] at hx
    obtain ⟨hxd, hxc, hxs⟩ := hx
    simp only [instrumentDynamicLoops]
    rw [(ihs hnds _ hxs).1, (ihs hnds _ hxs).2, (ihc hndc _ hxc).1, (ihc hndc _ hxc).2]
    split
    · exact instrumentDynamicLoop_of_notMem opts fn hnd s hxd
    · exact ⟨rfl, rfl⟩

/-- The loop is a dynamic one and loses its trip count. -/
def LosesBlocks (fn : FunctionAnalysis β) (pool : List β) (d : LoopData β) : Prop :=
  d.setColor = 0 ∧ TripCountLost fn pool d

/-- A block directly in a loop that loses its trip count is in no further counter and off the region's list. -/
theorem held_instrumentDynamicLoops_of_mem (opts : PassOptions) (fn : FunctionAnalysis β) {t : Forest (LoopData β)}
    (hnodup : (t.nodes.flatMap getUniqueLoopBB).Nodup) (s : RegionState β) {x : β} (hle : s.pragmaBlocks.count x ≤ 1)
    {d : LoopData β} (hd : d ∈ t.nodes) (hx : x ∈ getUniqueLoopBB d) :
    (LosesBlocks fn s.pragmaBlocks d → (instrumentDynamicLoops opts fn t s).held x = recorded x s.counters) ∧
      (¬ LosesBlocks fn s.pragmaBlocks d → (instrumentDynamicLoops opts fn t s).held x = s.held x) := by
  induction t generalizing s with
  | nil => simp at hd
  | node e ch sib ihc ihs =>
    simp only [Forest.nodes_node, List.flatMap_cons, List.flatMap_append] at hnodup
    obtain ⟨hne, hncs, hdisj⟩ := List.nodup_append'.mp hnodup
    obtain ⟨hnc, hns, hdisjcs⟩ := List.nodup_append'.mp hncs
    simp only [instrumentDynamicLoops]
    generalize hs1 : (if e.setColor = 0 then instrumentDynamicLoop opts fn e s else s) = s1
    -- the loops that do not hold `x` leave it alone
    have hroot : ∀ y, y ∉ getUniqueLoopBB e →
        recorded y s1.counters = recorded y s.counters ∧ s1.pragmaBlocks.count y = s.pragmaBlocks.count y := by
      intro y hy
      subst hs1
      split
      · exact instrumentDynamicLoop_of_notMem opts fn hne s hy
      · exact ⟨rfl, rfl⟩
    have hch := fun y (hy : y ∉ ch.nodes.flatMap getUniqueLoopBB) =>
      instrumentDynamicLoops_of_notMem opts fn hnc s1 hy
    have hcases : d = e ∨ d ∈ ch.nodes ∨ d ∈ sib.nodes := by simpa using hd
    rcases hcases with rfl | hdc | hds
    · have hxc : x ∉ ch.nodes.flatMap getUniqueLoopBB := fun h => hdisj hx (List.mem_append_left _ h)
      have hxs : x ∉ sib.nodes.flatMap getUniqueLoopBB := fun h => hdisj hx (List.mem_append_right _ h)
      have hsib := instrumentDynamicLoops_of_notMem opts fn hns (instrumentDynamicLoops opts fn ch s1) hxs
      rw [RegionState.held, hsib.1, hsib.2, (hch x hxc).1, (hch x hxc).2]
      subst hs1
      obtain ⟨hkept, hlost⟩ := held_instrumentDynamicLoop_cases opts fn hne s x
      rw [count_pragmaBlocks_takeLoopBlocks_of_mem _ hx hle, Nat.add_zero] at hlost
      by_cases hcolor : d.setColor = 0
      · simp only [hcolor, if_true, LosesBlocks, true_and]
        exact ⟨hlost, hkept⟩
      · simp only [hcolor, if_false, LosesBlocks, false_and, false_imp_iff, true_and]
        exact fun _ => rfl
    · have hxc : x ∈ ch.nodes.flatMap getUniqueLoopBB := List.mem_flatMap.mpr ⟨d, hdc, hx⟩
      have hxe : x ∉ getUniqueLoopBB e := fun h => hdisj h (List.mem_append_left _ hxc)
      have hxs : x ∉ sib.nodes.flatMap getUniqueLoopBB := fun h => hdisjcs hxc h
      have hsib := instrumentDynamicLoops_of_notMem opts fn hns (instrumentDynamicLoops opts fn ch s1) hxs
      have hsame : LosesBlocks fn s1.pragmaBlocks d ↔ LosesBlocks fn s.pragmaBlocks d := by
        refine and_congr_right fun _ => tripCountLost_congr fun y hy => mem_iff_of_count_eq (hroot y fun hye => ?_).2
        exact hdisj hye (List.mem_append_left _ (List.mem_flatMap.mpr ⟨d, hdc, hy⟩))
      have hrec := ihc hnc s1 (by rw [(hroot x hxe).2]; exact hle) hdc
      rw [hsame] at hrec
      simp only [RegionState.held, hsib.1, hsib.2] at hrec ⊢
      rwa [(hroot x hxe).1, (hroot x hxe).2] at hrec
    · have hxs : x ∈ sib.nodes.flatMap getUniqueLoopBB := List.mem_flatMap.mpr ⟨d, hds, hx⟩
      have hxe : x ∉ getUniqueLoopBB e := fun h => hdisj h (List.mem_append_right _ hxs)
      have hxc : x ∉ ch.nodes.flatMap getUniqueLoopBB := fun h => hdisjcs h hxs
      have hsame : LosesBlocks fn (instrumentDynamicLoops opts fn ch s1).pragmaBlocks d ↔
          LosesBlocks fn s.pragmaBlocks d := by
        refine and_congr_right fun _ => tripCountLost_congr fun y hy => mem_iff_of_count_eq ?_
        have hys : y ∈ sib.nodes.flatMap getUniqueLoopBB := List.mem_flatMap.mpr ⟨d, hds, hy⟩
        rw [(hch y fun hyc => hdisjcs hyc hys).2]
        exact (hroot y fun hye => hdisj hye (List.mem_append_right _ hys)).2
      have hrec := ihs hns (instrumentDynamicLoops opts fn ch s1)
        (by rw [(hch x hxc).2, (hroot x hxe).2]; exact hle) hds
      rw [hsame, (hch x hxc).1, (hroot x hxe).1] at hrec
      simpa only [RegionState.held, (hch x hxc).1, (hch x hxc).2, (hroot x hxe).1, (hroot x hxe).2] using hrec

/-! ### The region -/

/-- The scale-factor sets keep every block, and leave in the region's list the blocks directly in no loop with a trip
count. -/
theorem held_instrumentSFLoopSets (opts : PassOptions) (trees : DominatorTrees β) (tree : Forest (LoopData β))
    (s : RegionState β) :
    ∃ n t s', instrumentSFLoopSets opts trees (colorLoopTreeSF 0 1 tree).1.nodes.length 1
        (colorLoopTreeSF 0 1 tree).2 (colorLoopTreeSF 0 1 tree).1 s = some (t, s') ∧
      t.map LoopData.uncolored = tree.map LoopData.uncolored ∧ SetNumbers n t ∧ (∀ x, s'.held x = s.held x) ∧
      ∀ x, (∀ d ∈ tree.nodes, d.scaleFactor ≠ 0 → x ∉ getUniqueLoopBB d) →
        s'.pragmaBlocks.count x = s.pragmaBlocks.count x := by
  have hrun := instrumentSFLoopSets_colored opts trees tree s
    (P := fun _ _ _ s' => (∀ x, s'.held x = s.held x) ∧
      ∀ x, (∀ d ∈ tree.nodes, d.scaleFactor ≠ 0 → x ∉ getUniqueLoopBB d) →
        s'.pragmaBlocks.count x = s.pragmaBlocks.count x)
    ?_ ⟨fun x => rfl, fun x _ => rfl⟩
  · obtain ⟨n, t, s', heq, hT, hnum, -, -, hP⟩ := hrun
    exact ⟨n, t, s', heq, hT, hnum, hP⟩
  · intro j n t t' s1 p d ch hj hjn hT hnum hP hd hp hrep
    obtain ⟨hheld, hpool⟩ := hP
    constructor
    · intro x
      have hset := held_instrumentSFLoopSet opts trees j p 1 (.node d ch .nil) ⟨s1.pragmaBlocks, n, [], s1.counters⟩ x
      have hx := hheld x
      simp only [SetState.held, RegionState.held, List.flatMap_nil, List.count_nil] at hset hx
      simp only [RegionState.held, instrumentSet, recorded_append, recorded_cons, recorded_nil,
        Counter.blocks_scaleFactorSet]
      omega
    · intro x hx
      rw [← hpool x hx]
      refine count_pragmaBlocks_instrumentSFLoopSet opts trees (Nat.ne_of_gt hj) p 1 (.node d ch .nil)
        ⟨s1.pragmaBlocks, n, [], s1.counters⟩ fun e he hcolor => ?_
      obtain ⟨d0, hd0, hun⟩ := exists_node_uncolored hT (hrep.nodes_subset he)
      have hsf : d0.scaleFactor = e.scaleFactor := congrArg (fun a => a.scaleFactor) hun
      have huniq : getUniqueLoopBB d0 = getUniqueLoopBB e := by
        rw [← getUniqueLoopBB_uncolored, hun, getUniqueLoopBB_uncolored]
      have hzero := hnum.colorZero e (hrep.nodes_subset he)
      rw [← huniq]
      exact hx d0 hd0 (by omega)

/-- Coloring changes no loop's blocks. -/
private theorem uniqueLoopBB_of_uncolored {t tree : Forest (LoopData β)}
    (h : t.map LoopData.uncolored = tree.map LoopData.uncolored) :
    t.nodes.flatMap getUniqueLoopBB = tree.nodes.flatMap getUniqueLoopBB := by
  have hmap := congrArg (fun u => u.nodes.flatMap getUniqueLoopBB) h
  simpa only [Forest.nodes_map, List.flatMap_map, getUniqueLoopBB_uncolored] using hmap

/-- The instrumentation of a region ends, and no block is recorded more often than it is listed. -/
theorem recorded_le_count (opts : PassOptions) (fn : FunctionAnalysis β) (hwf : LoopsWellFormed fn.loopInfo)
    (bbList : List β) :
    ∃ counters, InstrumentPragmaRegion opts fn bbList = some counters ∧
      ∀ x, recorded x counters ≤ bbList.count x := by
  by_cases hnil : bbList = []
  · subst hnil
    exact ⟨[], rfl, fun x => by simp⟩
  have hempty : bbList.isEmpty = false := by simpa using hnil
  by_cases hopt : opts.applyLoopHoisting = true
  · obtain ⟨n, t, s, hsets, hT, -, hheld, -⟩ :=
      held_instrumentSFLoopSets opts fn.trees (regionLoopTree fn bbList) ⟨bbList, []⟩
    have hnodupT : (t.nodes.flatMap getUniqueLoopBB).Nodup := by
      rw [uniqueLoopBB_of_uncolored hT]
      exact nodup_uniqueLoopBB hwf
    refine ⟨_, by simp [InstrumentPragmaRegion, instrumentLoops, hempty, hopt, hsets]; rfl, fun x => ?_⟩
    rw [recorded_append, recorded_instrumentPostDomSet]
    have hdyn := held_instrumentDynamicLoops_le opts fn hnodupT s x
    rw [hheld x] at hdyn
    simpa [RegionState.held] using hdyn
  · refine ⟨instrumentPostDomSet opts fn.trees bbList, by simp [InstrumentPragmaRegion, hempty, hopt], fun x => ?_⟩
    exact le_of_eq (recorded_instrumentPostDomSet opts fn.trees x bbList)

/-- The blocks of a counter are blocks of the region. -/
theorem mem_bbList_of_mem_blocks {opts : PassOptions} {fn : FunctionAnalysis β} {bbList : List β}
    (hwf : LoopsWellFormed fn.loopInfo)
    {counters : List (Counter β)} (hrun : InstrumentPragmaRegion opts fn bbList = some counters) {c : Counter β}
    (hc : c ∈ counters) {b : β} (hb : b ∈ c.blocks) : b ∈ bbList := by
  obtain ⟨counters', hrun', hle⟩ := recorded_le_count opts fn hwf bbList
  obtain rfl : counters' = counters := Option.some.inj (hrun'.symm.trans hrun)
  have hpos : 0 < recorded b counters' := List.count_pos_iff.mpr (List.mem_flatMap.mpr ⟨c, hc, hb⟩)
  have hcount := hle b
  exact List.count_pos_iff.mp (by omega)

/-- The block gets a counter of the region: it is listed, and it is directly in no loop without a scale factor that
loses its trip count. -/
def Counted (opts : PassOptions) (fn : FunctionAnalysis β) (bbList : List β) (x : β) : Prop :=
  x ∈ bbList ∧ (opts.applyLoopHoisting = true → ∀ d ∈ (regionLoopTree fn bbList).nodes, d.scaleFactor = 0 →
    TripCountLost fn bbList d → x ∉ getUniqueLoopBB d)

/-- After the scale-factor sets, the loops that lose their blocks are those without a scale factor that
lose their trip count. -/
private theorem losesBlocks_iff {fn : FunctionAnalysis β} {tree t : Forest (LoopData β)} {n : Nat}
    {bbList pool : List β} (hnodup : (tree.nodes.flatMap getUniqueLoopBB).Nodup) (hnum : SetNumbers n t)
    (hpool : ∀ x, (∀ d ∈ tree.nodes, d.scaleFactor ≠ 0 → x ∉ getUniqueLoopBB d) → pool.count x = bbList.count x)
    {d e : LoopData β} (hd : d ∈ tree.nodes) (he : e ∈ t.nodes) (hde : e.uncolored = d.uncolored) :
    LosesBlocks fn pool e ↔ d.scaleFactor = 0 ∧ TripCountLost fn bbList d := by
  have hsf : e.setColor = 0 ↔ d.scaleFactor = 0 := by
    rw [hnum.colorZero e he, ← LoopData.scaleFactor_uncolored, hde, LoopData.scaleFactor_uncolored]
  have hlost : TripCountLost fn pool e ↔ TripCountLost fn pool d := by
    rw [← tripCountLost_uncolored, hde, tripCountLost_uncolored]
  unfold LosesBlocks
  rw [hsf, hlost]
  -- a loop without a scale factor still finds its blocks of the region
  refine and_congr_right fun h0 => tripCountLost_congr fun x hx => mem_iff_of_count_eq ?_
  refine hpool x fun d' hd' hsf' hxd' => ?_
  exact hsf' (eq_of_mem_uniqueLoopBB hnodup hd hd' hx hxd' ▸ h0)

/-- The instrumentation of a region ends, and the blocks that get a counter are recorded once, the
others not at all. -/
theorem recorded_eq (opts : PassOptions) (fn : FunctionAnalysis β) (hwf : LoopsWellFormed fn.loopInfo)
    (bbList : List β) (hnodup : bbList.Nodup) :
    ∃ counters, InstrumentPragmaRegion opts fn bbList = some counters ∧
      ∀ x, (Counted opts fn bbList x → recorded x counters = 1) ∧
        (¬ Counted opts fn bbList x → recorded x counters = 0) := by
  obtain ⟨counters, hrun, hle⟩ := recorded_le_count opts fn hwf bbList
  refine ⟨counters, hrun, fun x => ?_⟩
  by_cases hx : x ∈ bbList
  · have hcount : bbList.count x = 1 := List.count_eq_one_of_mem hnodup hx
    have hempty : bbList.isEmpty = false := by simpa using List.ne_nil_of_mem hx
    by_cases hopt : opts.applyLoopHoisting = true
    · obtain ⟨n, t, s, hsets, hT, hnum, hheld, hpool⟩ :=
        held_instrumentSFLoopSets opts fn.trees (regionLoopTree fn bbList) ⟨bbList, []⟩
      have hcounters : recorded x counters = (instrumentDynamicLoops opts fn t s).held x := by
        have heq : counters = (instrumentDynamicLoops opts fn t s).counters ++
            instrumentPostDomSet opts fn.trees (instrumentDynamicLoops opts fn t s).pragmaBlocks := by
          simpa [InstrumentPragmaRegion, instrumentLoops, hempty, hopt, hsets] using hrun.symm
        rw [heq, recorded_append, recorded_instrumentPostDomSet]
        rfl
      have hone : s.held x = 1 := by
        rw [hheld x]
        simpa [RegionState.held] using hcount
      have hpool1 : s.pragmaBlocks.count x ≤ 1 := by
        rw [RegionState.held] at hone
        omega
      have hnodupTree : ((regionLoopTree fn bbList).nodes.flatMap getUniqueLoopBB).Nodup := nodup_uniqueLoopBB hwf
      have hnodupT : (t.nodes.flatMap getUniqueLoopBB).Nodup := by
        rw [uniqueLoopBB_of_uncolored hT]
        exact hnodupTree
      rw [hcounters]
      by_cases hloop : ∃ d ∈ (regionLoopTree fn bbList).nodes, x ∈ getUniqueLoopBB d
      · -- only the loop the block is directly in can lose it
        obtain ⟨d, hd, hxd⟩ := hloop
        obtain ⟨e, he, hde⟩ := exists_node_uncolored hT.symm hd
        have hxe : x ∈ getUniqueLoopBB e := by
          rwa [← getUniqueLoopBB_uncolored, hde, getUniqueLoopBB_uncolored]
        obtain ⟨hlost, hkept⟩ := held_instrumentDynamicLoops_of_mem opts fn hnodupT s hpool1 he hxe
        rw [losesBlocks_iff hnodupTree hnum hpool hd he hde] at hlost hkept
        constructor
        · intro hcounted
          rw [hkept fun h => hcounted.2 hopt d hd h.1 h.2 hxd, hone]
        · intro hno
          have hloses : d.scaleFactor = 0 ∧ TripCountLost fn bbList d := by
            by_contra hkeeps
            refine hno ⟨hx, fun _ d' hd' h0 hl hxd' => hkeeps ?_⟩
            rw [eq_of_mem_uniqueLoopBB hnodupTree hd hd' hxd hxd']
            exact ⟨h0, hl⟩
          have hstays := hpool x fun d' hd' hsf' hxd' =>
            hsf' (eq_of_mem_uniqueLoopBB hnodupTree hd hd' hxd hxd' ▸ hloses.1)
          rw [RegionState.held] at hone
          dsimp only at hstays
          rw [hlost hloses]
          omega
      · have hxt : x ∉ t.nodes.flatMap getUniqueLoopBB := by
          rw [uniqueLoopBB_of_uncolored hT, List.mem_flatMap]
          exact hloop
        have hsame := instrumentDynamicLoops_of_notMem opts fn hnodupT s hxt
        rw [RegionState.held, hsame.1, hsame.2]
        exact ⟨fun _ => hone, fun hno => absurd ⟨hx, fun _ d hd _ _ hxd => hloop ⟨d, hd, hxd⟩⟩ hno⟩
    · have heq : counters = instrumentPostDomSet opts fn.trees bbList := by
        simpa [InstrumentPragmaRegion, hempty, hopt] using hrun.symm
      rw [heq, recorded_instrumentPostDomSet]
      exact ⟨fun _ => hcount, fun hno => absurd ⟨hx, fun h => absurd h hopt⟩ hno⟩
  · have hzero := hle x
    rw [List.count_eq_zero_of_not_mem hx] at hzero
    exact ⟨fun h => absurd h.1 hx, fun _ => Nat.le_zero.mp hzero⟩

/-- Every block of the region is recorded by one counter, once, and no other block is recorded. -/
def CoveredOnce (counters : List (Counter β)) (bbList : List β) : Prop :=
  ∀ x, recorded x counters = if x ∈ bbList then 1 else 0

/-- The instrumentation of a region ends, and it covers every block of the region exactly once if and only if no loop
of the region, without a scale factor, loses its trip count when the edge into its header is split. -/
theorem coveredOnce_iff_not_tripCountLost (opts : PassOptions) (fn : FunctionAnalysis β)
    (hwf : LoopsWellFormed fn.loopInfo) (bbList : List β) (hnodup : bbList.Nodup) :
    (∃ counters, InstrumentPragmaRegion opts fn bbList = some counters ∧ CoveredOnce counters bbList) ↔
      (opts.applyLoopHoisting = true → ∀ d ∈ (regionLoopTree fn bbList).nodes, d.scaleFactor = 0 →
        ¬ TripCountLost fn bbList d) := by
  obtain ⟨counters, hrun, hrecorded⟩ := recorded_eq opts fn hwf bbList hnodup
  constructor
  · rintro ⟨counters', hrun', hcovered⟩ hopt d hd h0 hlost
    obtain rfl : counters = counters' := Option.some.inj (hrun.symm.trans hrun')
    -- a block of the loop counted in front of it would be recorded nowhere
    obtain ⟨-, -, b, hb, hlisted, -⟩ := id hlost
    have hone := hcovered b
    rw [if_pos hlisted, (hrecorded b).2 fun hcounted => hcounted.2 hopt d hd h0 hlost hb] at hone
    omega
  · intro hno
    refine ⟨counters, hrun, fun x => ?_⟩
    by_cases hx : x ∈ bbList
    · rw [if_pos hx]
      exact (hrecorded x).1 ⟨hx, fun hopt d hd h0 hlost => absurd hlost (hno hopt d hd h0)⟩
    · rw [if_neg hx]
      exact (hrecorded x).2 fun hcounted => hx hcounted.1

/-- Block 0 leads into the loop on block 1, which leaves to block 2.  The trip count of the loop is an invariant
expression until the edge is split; `after` is the answer from then on. -/
def loopOnBlockOne (after : BackedgeTakenCount) : FunctionAnalysis Nat where
  orderedCFG := [0, 1, 2]
  size := fun _ => 1
  detectPragma := fun _ => false
  trees := ⟨fun a b => decide (b ≤ a), fun a b => decide (a ≤ b)⟩
  loopInfo := .node ⟨1, [1]⟩ .nil .nil
  backedgeTakenCount := fun _ => .expression true
  beforeSplit := fun _ => .expression true
  afterSplit := fun _ => after

private theorem loopOnBlockOne_wellFormed (after : BackedgeTakenCount) :
    LoopsWellFormed (loopOnBlockOne after).loopInfo := by
  simp [LoopsWellFormed, loopOnBlockOne]

theorem coveredOnce_of_count_kept :
    ∃ counters, InstrumentPragmaRegion {} (loopOnBlockOne (.expression true)) [0, 1, 2] = some counters ∧
      CoveredOnce counters [0, 1, 2] :=
  (coveredOnce_iff_not_tripCountLost {} (loopOnBlockOne (.expression true)) (loopOnBlockOne_wellFormed _)
    [0, 1, 2] (by decide)).mpr fun _ _ _ _ hlost => by
      simp [TripCountLost, loopOnBlockOne, BackedgeTakenCount.isHoistable] at hlost

/-- When the count cannot be computed any more, block 1 gets no counter. -/
theorem not_coveredOnce_of_count_lost :
    InstrumentPragmaRegion {} (loopOnBlockOne .couldNotCompute) [0, 1, 2] = some [.postDomSet [0, 2]] ∧
      ¬ CoveredOnce [.postDomSet [0, 2]] [0, 1, 2] := by
  constructor
  · decide
  · intro h
    have h1 := h 1
    simp [recorded] at h1

end ZRay.Pass
