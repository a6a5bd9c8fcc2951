import ZRay.Pass.RegionEvents

/-!
# The code of a block

With loop hoisting off every counter is a post-dominator set, and all calls of the pass stand in front of the blocks.
A block in several regions gets the increments of each.  They all come behind the entry call of the block, if it has
one: only the regions around the one that begins there reach into the block, and these are instrumented before it
(`code_instrumentFunction`).
-/

namespace ZRay.Pass

open FlowGraph BlockLists Nesting

variable {β : Type*} [DecidableEq β]

omit [DecidableEq β] in
/-- The block with the increment, for a post-dominator set. -/
def Counter.anchor : Counter β → Option β
  | .postDomSet (anchor :: _) => some anchor
  | _ => none

/-- The increments of a region in a block, the last one first. -/
def incrementsAt (region : Nat) (counters : List (Counter β)) (x : β) : List CodeItem :=
  ((counters.zipIdx.filter fun c => c.1.anchor = some x).map fun c =>
    CodeItem.incrementCounterArray region c.2).reverse

theorem insertPostDomSetEvent_apply (region : Nat) (code : β → List CodeItem) (c : Counter β × Nat) (x : β) :
    insertPostDomSetEvent region code c x =
      (if c.1.anchor = some x then [CodeItem.incrementCounterArray region c.2] else []) ++ code x := by
  unfold insertPostDomSetEvent
  split
  · rename_i anchor rest k
    by_cases hx : x = anchor
    · simp [hx, insertCall, Counter.anchor]
    · simp [insertCall, Counter.anchor, Function.update_of_ne hx, Ne.symm hx]
  · rename_i hno
    have hnone : c.1.anchor = none := by
      obtain ⟨counter, k⟩ := c
      cases counter with
      | postDomSet blocks =>
        cases blocks with
        | nil => rfl
        | cons anchor rest => exact absurd rfl (hno anchor rest k)
      | scaleFactorSet _ _ => rfl
      | dynamicLoop _ _ => rfl
    simp [hnone]

theorem insertPostDomSetEvents_apply (region : Nat) (counters : List (Counter β)) (code : β → List CodeItem) (x : β) :
    insertPostDomSetEvents region counters code x = incrementsAt region counters x ++ code x := by
  unfold insertPostDomSetEvents incrementsAt
  generalize counters.zipIdx = entries
  induction entries generalizing code with
  | nil => rfl
  | cons c entries ih =>
    rw [List.foldl_cons, ih, insertPostDomSetEvent_apply, List.filter_cons]
    by_cases hc : c.1.anchor = some x
    · simp [hc]
    · simp [hc]

/-- With loop hoisting off a region gets its post-dominator sets. -/
theorem instrumentPragmaRegion_of_not_hoisting {opts : PassOptions} (hopt : opts.applyLoopHoisting = false)
    (fn : FunctionAnalysis β) (bbList : List β) :
    InstrumentPragmaRegion opts fn bbList = some (instrumentPostDomSet opts fn.trees bbList) := by
  unfold InstrumentPragmaRegion
  cases bbList with
  | nil => rfl
  | cons b bbs => simp [hopt]

/-- What the instrumentation of a region puts in front of a block: the entry call at its begin block, and then the
increments. -/
def regionItems (opts : PassOptions) (fn : Nat → FunctionAnalysis β) (base : Nat) (x : β)
    (e : (Nat × List β) × Nat) : List CodeItem :=
  (if regionBeginBlock (fn e.2) e.1.2 = some x then [.startTimingEvent (base + e.2)] else []) ++
    incrementsAt (base + e.2) (instrumentPostDomSet opts (fn e.2).trees e.1.2) x

theorem insertStartTimerEvent_apply (fn : FunctionAnalysis β) (region : Nat) (bbList : List β)
    (code : β → List CodeItem) (x : β) :
    insertStartTimerEvent fn region bbList code x =
      (if regionBeginBlock fn bbList = some x then [CodeItem.startTimingEvent region] else []) ++ code x := by
  unfold insertStartTimerEvent
  cases hbegin : regionBeginBlock fn bbList with
  | none => rfl
  | some b =>
    by_cases hx : x = b
    · simp [hx, insertCall]
    · simp [insertCall, Function.update_of_ne hx, Ne.symm hx]

/-- The regions are instrumented in the order of their ids, so the code of the last one comes first. -/
theorem instrumentRegions_apply {opts : PassOptions} (hopt : opts.applyLoopHoisting = false)
    (fn : Nat → FunctionAnalysis β) (base : Nat) (groupList : BlockLists β) (code : β → List CodeItem) :
    ∃ code', instrumentRegions opts fn base groupList code = some code' ∧
      ∀ x, code' x = groupList.zipIdx.reverse.flatMap (regionItems opts fn base x) ++ code x := by
  unfold instrumentRegions
  generalize groupList.zipIdx = entries
  induction entries generalizing code with
  | nil => exact ⟨code, rfl, fun x => rfl⟩
  | cons e entries ih =>
    obtain ⟨code', hcode', happly⟩ := ih (insertStartTimerEvent (fn e.2) (base + e.2) e.1.2
      (insertPostDomSetEvents (base + e.2) (instrumentPostDomSet opts (fn e.2).trees e.1.2) code))
    refine ⟨code', ?_, fun x => ?_⟩
    · rw [List.foldlM_cons, instrumentRegion, instrumentPragmaRegion_of_not_hoisting hopt, Option.map_some,
        Option.bind_eq_bind, Option.bind_some]
      exact hcode'
    · rw [happly x, insertStartTimerEvent_apply, insertPostDomSetEvents_apply, List.reverse_cons, List.flatMap_append,
        List.flatMap_singleton, regionItems]
      simp only [List.append_assoc]

/-! ### Behind the entry call -/

omit [DecidableEq β] in
/-- The groups are listed in the order of their region ids. -/
theorem pairwise_zipIdx (l : BlockLists β) : l.zipIdx.Pairwise fun e e' => e.2 < e'.2 := by
  have h : (l.zipIdx.map Prod.snd).Pairwise (· < ·) := by
    rw [List.zipIdx_map_snd]
    exact List.pairwise_lt_range'
  exact List.pairwise_map.mp h

section

variable {f : MarkedFunction β} {fn : Nat → FunctionAnalysis β} {base : Nat} {s : RecordState β} {opts : PassOptions}
  {x : β}

omit [DecidableEq β] in
theorem Counter.mem_blocks_of_anchor {c : Counter β} (h : c.anchor = some x) : x ∈ c.blocks := by
  cases c with
  | postDomSet blocks =>
    cases blocks with
    | nil => simp [Counter.anchor] at h
    | cons a rest =>
      rw [Counter.anchor, Option.some.injEq] at h
      exact h ▸ List.mem_cons_self
  | scaleFactorSet _ _ => simp [Counter.anchor] at h
  | dynamicLoop _ _ => simp [Counter.anchor] at h

/-- A region with an increment in a block holds the block. -/
theorem mem_of_incrementsAt_ne_nil {region : Nat} {trees : DominatorTrees β} {bbList : List β}
    (h : incrementsAt region (instrumentPostDomSet opts trees bbList) x ≠ []) : x ∈ bbList := by
  obtain ⟨item, hitem⟩ := List.exists_mem_of_ne_nil _ h
  rw [incrementsAt, List.mem_reverse] at hitem
  obtain ⟨c, hc, -⟩ := List.mem_map.mp hitem
  obtain ⟨hmem, hanchor⟩ := List.mem_filter.mp hc
  have hblocks := Counter.mem_blocks_of_anchor (of_decide_eq_true hanchor)
  have hcounter : c.1 ∈ instrumentPostDomSet opts trees bbList := by
    have hmap := List.mem_map_of_mem (f := Prod.fst) hmem
    rwa [List.zipIdx_map_fst] at hmap
  exact (flatMap_blocks_instrumentPostDomSet_perm bbList).mem_iff.mp (List.mem_flatMap.mpr ⟨c.1, hcounter, hblocks⟩)

omit [DecidableEq β] in
/-- A region with an increment in the begin block of another one is around it, and was seen before it. -/
theorem idxOf_lt_of_increment (hwell : WellNested f) (hs : Recorded f base s) (hunique : UniqueBegins f)
    (hx : f.graph.Reachable x) (hp : IsPiece (f.instrs x)) {g g' : Nat} (hg : .roiBegin g ∈ f.instrs x)
    (hne : g' ≠ g) (hblocks : x ∈ blocksOf g' s.groupList) :
    (groups s.groupList).idxOf g' < (groups s.groupList).idxOf g := by
  obtain ⟨w, hw⟩ := hx
  obtain ⟨v, rfl⟩ := hw.exists_concat
  have hopen := (hs.mem_blocksOf hw g').mp hblocks
  have hnot : .roiBegin g' ∉ f.instrs x := by
    obtain ⟨rest, heq, hnone⟩ := hp.begin_iff hg
    rw [heq, List.mem_cons, Instr.roiBegin.injEq, not_or]
    exact ⟨hne, hnone g'⟩
  rw [OpenIn, List.count_eq_zero_of_not_mem hnot, Nat.add_zero] at hopen
  obtain ⟨u, y, hu, hgy, hfirst⟩ := hs.first_seen g ((hs.mem_groups g).mpr ⟨x, ⟨_, hw⟩, hg⟩)
  obtain rfl := hunique g y x ⟨_, hu⟩ ⟨_, hw⟩ hgy hg
  exact hfirst g' (openDepth_congr hwell hu hw g' ▸ hopen)

/-- The entry call of a block comes before all its increments. -/
theorem flatMap_regionItems_eq (hwell : WellNested f) (horder : ∀ i, OrdersBlocks f.graph (fn i))
    (hs : Recorded f base s) (hunique : UniqueBegins f) (hx : f.graph.Reachable x) (hp : IsPiece (f.instrs x)) :
    s.groupList.zipIdx.reverse.flatMap (regionItems opts fn base x) =
      startsAt fn base s.groupList.zipIdx x ++ s.groupList.zipIdx.reverse.flatMap fun e =>
        incrementsAt (base + e.2) (instrumentPostDomSet opts (fn e.2).trees e.1.2) x := by
  -- behind a region that begins here no region has an increment
  have hbehind : s.groupList.zipIdx.Pairwise fun e e' => regionBeginBlock (fn e.2) e.1.2 = some x →
      incrementsAt (base + e'.2) (instrumentPostDomSet opts (fn e'.2).trees e'.1.2) x = [] := by
    refine (pairwise_zipIdx s.groupList).imp_of_mem fun {e e'} he he' hlt hbegin => ?_
    by_contra hne
    obtain ⟨-, -, hidx⟩ := mem_zipIdx hs.nodup he
    obtain ⟨-, hblocks', hidx'⟩ := mem_zipIdx hs.nodup he'
    have hg := (regionBeginBlock_iff horder hs hunique hx he).mp hbegin
    have hgroups : e'.1.1 ≠ e.1.1 := fun heq => by
      rw [heq] at hidx'
      omega
    have hbefore := idxOf_lt_of_increment hwell hs hunique hx hp hg hgroups
      (hblocks' ▸ mem_of_incrementsAt_ne_nil hne)
    omega
  generalize s.groupList.zipIdx = entries at hbehind
  induction entries with
  | nil => rfl
  | cons e entries ih =>
    obtain ⟨hfirst, hrest⟩ := List.pairwise_cons.mp hbehind
    rw [List.reverse_cons, List.flatMap_append, List.flatMap_append, List.flatMap_singleton, List.flatMap_singleton,
      ih hrest, regionItems, startsAt, startsAt, List.filter_cons]
    by_cases hbegin : regionBeginBlock (fn e.2) e.1.2 = some x
    · have hnil : entries.reverse.flatMap (fun e =>
          incrementsAt (base + e.2) (instrumentPostDomSet opts (fn e.2).trees e.1.2) x) = [] := by
        rw [List.flatMap_eq_nil_iff]
        exact fun e' he' => hfirst e' (List.mem_reverse.mp he') hbegin
      simp [hbegin, hnil]
    · simp [hbegin]

end

/-! ### The increments of a set -/

/-- The block with the increment of the counter `k`. -/
def anchorOf (counters : List (Counter β)) (k : Nat) : Option β := counters[k]?.bind Counter.anchor

/-- The counters of the region of group `g`, with loop hoisting off. -/
def regionCounters (opts : PassOptions) (fn : Nat → FunctionAnalysis β) (groupList : BlockLists β) (g : Nat) :
    List (Counter β) :=
  instrumentPostDomSet opts (fn ((groups groupList).idxOf g)).trees (blocksOf g groupList)

/-- How many increments of a counter `k` there are among the code, of whatever region. -/
def incrementsOf (k : Nat) (items : List CodeItem) : Nat :=
  items.countP fun
    | .incrementCounterArray _ k' => k' = k
    | _ => false

@[simp] theorem incrementsOf_append (k : Nat) (u v : List CodeItem) :
    incrementsOf k (u ++ v) = incrementsOf k u + incrementsOf k v := List.countP_append

/-- Each place is there once. -/
theorem countP_zipIdx {α : Type*} (p : α → Bool) (l : List α) (n k : Nat) :
    (l.zipIdx n).countP (fun c => decide (c.2 = n + k) && p c.1) = if l[k]?.any p then 1 else 0 := by
  induction l generalizing n k with
  | nil => simp
  | cons a l ih =>
    rw [List.zipIdx_cons, List.countP_cons]
    cases k with
    | zero =>
      have hrest : (l.zipIdx (n + 1)).countP (fun c => decide (c.2 = n + 0) && p c.1) = 0 := by
        rw [List.countP_eq_zero]
        intro c hc
        have hle := List.le_snd_of_mem_zipIdx hc
        have hne : c.2 ≠ n := by omega
        simp [hne]
      rw [hrest]
      simp
    | succ k =>
      have hrest := ih (n + 1) k
      rw [show n + 1 + k = n + (k + 1) by omega] at hrest
      rw [hrest]
      simp

theorem incrementsOf_incrementsAt (k region : Nat) (counters : List (Counter β)) (x : β) :
    incrementsOf k (incrementsAt region counters x) = if anchorOf counters k = some x then 1 else 0 := by
  have hcount := countP_zipIdx (fun c : Counter β => decide (c.anchor = some x)) counters 0 k
  rw [Nat.zero_add] at hcount
  unfold incrementsOf incrementsAt
  rw [List.countP_reverse, List.countP_map, List.countP_filter]
  refine Eq.trans hcount ?_
  unfold anchorOf
  cases counters[k]? with
  | none => simp
  | some c => simp

theorem incrementsOf_flatMap {ι : Type*} {k : Nat} {h : ι → List CodeItem} {q : ι → Bool} {entries : List ι}
    (hq : ∀ e ∈ entries, incrementsOf k (h e) = if q e then 1 else 0) :
    incrementsOf k (entries.reverse.flatMap h) = entries.countP q := by
  induction entries with
  | nil => rfl
  | cons e entries ih =>
    rw [List.reverse_cons, List.flatMap_append, incrementsOf_append, List.flatMap_singleton,
      ih fun e' he' => hq e' (List.mem_cons_of_mem e he'), hq e List.mem_cons_self, List.countP_cons]

/-- A block has one increment of a counter `k` for every region whose counter `k` is there. -/
theorem incrementsOf_regions {s : RecordState β} {opts : PassOptions} {fn : Nat → FunctionAnalysis β} {base : Nat}
    (hnodup : (groups s.groupList).Nodup) (k : Nat) (x : β) :
    incrementsOf k (s.groupList.zipIdx.reverse.flatMap fun e =>
        incrementsAt (base + e.2) (instrumentPostDomSet opts (fn e.2).trees e.1.2) x) =
      (groups s.groupList).countP fun g => anchorOf (regionCounters opts fn s.groupList g) k = some x := by
  have hgroups : groups s.groupList = s.groupList.zipIdx.map fun e => e.1.1 := by
    have hmap := congrArg (List.map Prod.fst) (List.zipIdx_map_fst 0 s.groupList)
    rw [List.map_map] at hmap
    exact hmap.symm
  rw [hgroups, List.countP_map]
  refine incrementsOf_flatMap fun e he => ?_
  obtain ⟨-, hblocks, hidx⟩ := mem_zipIdx hnodup he
  rw [incrementsOf_incrementsAt]
  simp only [Function.comp_apply, decide_eq_true_eq, regionCounters, hblocks, hidx]

end ZRay.Pass
