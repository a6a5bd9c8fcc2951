import ZRay.Pass.RegionCode
import ZRay.Runtime.InnermostRow

/-!
# Nested regions, pass and runtime together

The pass numbers the counters of each region from 0, the runtime adds the row of the innermost open region.  A block
of an inner region also runs the increments of the regions around it, and these land in the inner row.  The counter
`k` of a region is right, then, exactly when no block that runs with the region innermost has the increment `k` of
another region (`innermostCounts_iff`).
-/

namespace ZRay

open Pass FlowGraph BlockLists Nesting

variable {β : Type*}

/-! ### Running the code -/

/-- The call an item makes, with the clock reading it takes if it reads the clock. -/
def Pass.CodeItem.call (now : UInt64) : CodeItem → Option RuntimeCall
  | .instr _ => none
  | .startTimingEvent r => some (.startTimingEvent r now)
  | .endTimingEvent r => some (.endTimingEvent r now)
  | .incrementCounterArray r k => some (.increment (.counterArray r k))

/-- The calls the code makes; the clock shows `clock n` at the item `n`. -/
def runtimeCalls (clock : Nat → UInt64) : Nat → List CodeItem → List RuntimeCall
  | _, [] => []
  | n, item :: items => (item.call (clock n)).toList ++ runtimeCalls clock (n + 1) items

theorem runtimeCalls_append (clock : Nat → UInt64) (n : Nat) (u v : List CodeItem) :
    runtimeCalls clock n (u ++ v) = runtimeCalls clock n u ++ runtimeCalls clock (n + u.length) v := by
  induction u generalizing n with
  | nil => rfl
  | cons item u ih =>
    rw [List.cons_append, runtimeCalls, runtimeCalls, ih, List.append_assoc, List.length_cons,
      show n + 1 + u.length = n + (u.length + 1) by omega]

/-- Whatever the clock shows, the code runs from the open regions `stk` to `stk'` and adds `credit r k` to the counter
`k` while region `r` is the innermost one. -/
structure Runs (stk : List Nat) (items : List CodeItem) (stk' : List Nat) (credit : Nat → Nat → Nat) : Prop where
  fresh : ∀ clock n, FreshRun stk (runtimeCalls clock n items) stk'
  credited : ∀ clock n r k, credited r k stk (runtimeCalls clock n items) = credit r k

namespace Runs

variable {stk stk' stk'' : List Nat} {u v : List CodeItem} {c c' : Nat → Nat → Nat}

theorem nil (stk : List Nat) : Runs stk [] stk fun _ _ => 0 := ⟨fun _ _ => .nil stk, fun _ _ _ _ => rfl⟩

theorem append (hu : Runs stk u stk' c) (hv : Runs stk' v stk'' c') :
    Runs stk (u ++ v) stk'' fun r k => c r k + c' r k where
  fresh clock n := by
    rw [runtimeCalls_append]
    exact (hu.fresh clock n).append (hv.fresh clock _)
  credited clock n r k := by
    rw [runtimeCalls_append, (hu.fresh clock n).credited_append, hu.credited, hv.credited]

theorem instr (i : Instr) (stk : List Nat) : Runs stk [.instr i] stk fun _ _ => 0 :=
  ⟨fun _ _ => .nil stk, fun _ _ _ _ => rfl⟩

theorem enter {r : Nat} (hfresh : r ∉ stk) (hr : r < pragmaRegionLimit) :
    Runs stk [.startTimingEvent r] (r :: stk) fun _ _ => 0 :=
  ⟨fun _ _ => .enter hfresh hr (.nil _), fun _ _ _ _ => rfl⟩

theorem exit (r : Nat) (stk : List Nat) : Runs (r :: stk) [.endTimingEvent r] stk fun _ _ => 0 :=
  ⟨fun _ _ => .exit (.nil _), fun _ _ _ _ => rfl⟩

/-- Increments are credited to the innermost region. -/
theorem increments (hu : ∀ item ∈ u, ∃ r k, item = .incrementCounterArray r k) :
    Runs stk u stk fun r k => if stk.head? = some r then incrementsOf k u else 0 := by
  induction u with
  | nil => simpa [incrementsOf] using nil stk
  | cons item u ih =>
    obtain ⟨q, j, rfl⟩ := hu item List.mem_cons_self
    have hrest := ih fun i hi => hu i (List.mem_cons_of_mem _ hi)
    refine ⟨fun clock n => .increment (hrest.fresh clock (n + 1)), fun clock n r k => ?_⟩
    show (if stk.head? = some r then (Increment.counterArray q j).amount k else 0) +
      ZRay.credited r k stk (runtimeCalls clock (n + 1) u) = _
    rw [hrest.credited]
    by_cases hr : stk.head? = some r
    · simp only [hr, if_true, incrementsOf, Increment.amount, List.countP_cons, decide_eq_true_eq]
      exact Nat.add_comm _ _
    · simp [hr]

end Runs

/-! ### Executions of a block -/

/-- The sum of `h` over the blocks of a walk, each with the walk behind it; the walk starts behind `u`. -/
def sumAlong (h : List β → β → Nat) : List β → List β → Nat
  | _, [] => 0
  | u, x :: w => h u x + sumAlong h (u ++ [x]) w

theorem sumAlong_concat (h : List β → β → Nat) (u w : List β) (x : β) :
    sumAlong h u (w ++ [x]) = sumAlong h u w + h (u ++ w) x := by
  induction w generalizing u with
  | nil => simp [sumAlong]
  | cons y w ih =>
    rw [List.cons_append, sumAlong, sumAlong, ih, List.append_assoc, List.singleton_append, Nat.add_assoc]

theorem sumAlong_add (h h' : List β → β → Nat) (u w : List β) :
    sumAlong (fun u x => h u x + h' u x) u w = sumAlong h u w + sumAlong h' u w := by
  induction w generalizing u with
  | nil => rfl
  | cons y w ih =>
    simp only [sumAlong, ih]
    omega

theorem sumAlong_congr {h h' : List β → β → Nat} {u w : List β}
    (heq : ∀ v x r, w = v ++ x :: r → h (u ++ v) x = h' (u ++ v) x) : sumAlong h u w = sumAlong h' u w := by
  induction w generalizing u with
  | nil => rfl
  | cons y w ih =>
    have hhead := heq [] y w rfl
    rw [List.append_nil] at hhead
    rw [sumAlong, sumAlong, hhead, ih fun v x r hw => ?_]
    have htail := heq (y :: v) x r (by rw [hw]; rfl)
    rwa [List.append_assoc, List.singleton_append]

theorem sumAlong_eq_zero {h : List β → β → Nat} {u w : List β} :
    sumAlong h u w = 0 ↔ ∀ v x r, w = v ++ x :: r → h (u ++ v) x = 0 := by
  constructor
  · intro hsum v x r hw
    induction w generalizing u v with
    | nil => simp at hw
    | cons y w ih =>
      rw [sumAlong] at hsum
      cases v with
      | nil =>
        obtain ⟨rfl, -⟩ := List.cons.inj hw
        rw [List.append_nil]
        omega
      | cons z v =>
        obtain ⟨rfl, hrest⟩ := List.cons.inj hw
        have hzero := ih (u := u ++ [y]) (by omega) v hrest
        rwa [List.append_assoc, List.singleton_append] at hzero
  · intro hall
    induction w generalizing u with
    | nil => rfl
    | cons y w ih =>
      have hhead := hall [] y w rfl
      rw [List.append_nil] at hhead
      rw [sumAlong, hhead, ih fun v x r hw => ?_]
      have htail := hall (y :: v) x r (by rw [hw]; rfl)
      rwa [List.append_assoc, List.singleton_append]

/-- The group of the innermost open region while the block `x` runs behind `t`: a begin marker in front of the block
counts. -/
def innermost (f : MarkedFunction β) (t : List Instr) (x : β) : Option Nat :=
  (openAfter Instr.bracket [] (t ++ (f.instrs x).takeWhile Instr.isBegin)).bind List.head?

variable [DecidableEq β]

/-- How often a walk executes the block `a` with the region of group `g` innermost. -/
def executionsIn (f : MarkedFunction β) (g : Nat) (a : β) (w : List β) : Nat :=
  sumAlong (fun u x => if x = a ∧ innermost f (f.trace u) x = some g then 1 else 0) [] w

/-! ### One block -/

omit [DecidableEq β] in
theorem takeWhile_isBegin_eq_nil {l : List Instr} (h : ∀ g, .roiBegin g ∉ l) : l.takeWhile Instr.isBegin = [] := by
  cases l with
  | nil => rfl
  | cons i l =>
    cases i with
    | roiBegin g => exact absurd List.mem_cons_self (h g)
    | roiEnd g => rfl
    | other => rfl

/-- Behind the begin marker the exit calls follow the stack of open groups. -/
theorem runs_withEnd (id : Nat → Nat) {l : List Instr} (hno : ∀ g, .roiBegin g ∉ l) {stk stk' : List Nat}
    (h : openAfter Instr.bracket stk l = some stk') :
    Runs (stk.map id) (l.flatMap (withEnd id)) (stk'.map id) fun _ _ => 0 := by
  induction l generalizing stk with
  | nil =>
    rw [openAfter, Option.some.injEq] at h
    exact h ▸ .nil _
  | cons i l ih =>
    have hrest : ∀ g, .roiBegin g ∉ l := fun g hg => hno g (List.mem_cons_of_mem i hg)
    rw [List.flatMap_cons]
    cases i with
    | roiBegin g => exact absurd List.mem_cons_self (hno g)
    | other => exact (Runs.instr .other (stk.map id)).append (ih hrest h)
    | roiEnd g =>
      cases stk with
      | nil => simp [openAfter, Instr.bracket, Bracket.apply] at h
      | cons top stk =>
        simp only [openAfter, Instr.bracket, Bracket.apply] at h
        split at h
        · rename_i htop
          subst htop
          exact ((Runs.exit (id g) (stk.map id)).append (.instr (.roiEnd g) _)).append (ih hrest h)
        · simp at h

section

variable {f : MarkedFunction β} {fn : Nat → FunctionAnalysis β} {base : Nat} {s : RecordState β} {opts : PassOptions}
  {u : List β} {x : β} {stk stk' : List Nat}

omit [DecidableEq β] in
/-- An open group has its begin marker behind it. -/
theorem exists_begin_of_mem_stack (hstk : openAfter Instr.bracket [] (f.trace u) = some stk)
    {g : Nat} (hg : g ∈ stk) : ∃ y ∈ u, .roiBegin g ∈ f.instrs y := by
  have hcount := count_openAfter hstk g
  have hpos := List.count_pos_iff.mpr hg
  rw [List.count_nil, Nat.zero_add] at hcount
  have hmem : .roiBegin g ∈ f.trace u := List.count_pos_iff.mp (by omega)
  exact List.mem_flatMap.mp hmem

omit [DecidableEq β] in
/-- No group is open on arrival at its begin marker. -/
theorem not_mem_stack_of_begin (hnested : StackNested f) (hunique : UniqueBegins f)
    (hw : f.graph.Walk f.graph.entry (u ++ [x]) x) (hstk : openAfter Instr.bracket [] (f.trace u) = some stk)
    {g : Nat} (hg : .roiBegin g ∈ f.instrs x) : g ∉ stk := by
  -- the first visit of the block arrives without the marker
  obtain ⟨v, r, -, hnot, hv, -⟩ := hw.exists_first hw.target_mem
  have hfirst : openDepth g (f.trace v) = 0 := by
    have hcount : (f.trace v).count (.roiBegin g) = 0 := by
      refine List.count_eq_zero_of_not_mem fun hmem => ?_
      obtain ⟨y, hy, hgy⟩ := List.mem_flatMap.mp hmem
      exact hnot (hunique g y x (hv.reachable_of_mem (List.mem_append_left _ hy)) ⟨_, hv⟩ hgy hg ▸ hy)
    rw [openDepth, hcount, Nat.zero_sub]
  rw [openDepth_congr hnested.wellNested hv hw g] at hfirst
  have hcount := count_openAfter hstk g
  have hle := (noUnopened_of_openAfter hstk).count_le g
  rw [openDepth] at hfirst
  rw [List.count_nil, Nat.zero_add] at hcount
  have hzero : stk.count g = 0 := by omega
  exact List.count_eq_zero.mp hzero

/-- How many regions have their counter `k` in the block. -/
def increments (opts : PassOptions) (fn : Nat → FunctionAnalysis β) (groupList : BlockLists β) (k : Nat) (x : β) :
    Nat :=
  (groups groupList).countP fun g => anchorOf (regionCounters opts fn groupList g) k = some x

variable (opts) in
/-- A block of the instrumented function: its regions open and close with the markers, and its increments are
credited to the innermost one. -/
theorem runs_block (hnested : StackNested f) (horder : ∀ i, OrdersBlocks f.graph (fn i)) (hs : Recorded f base s)
    (hunique : UniqueBegins f) (hp : IsPiece (f.instrs x))
    (hrange : base + (groups s.groupList).length ≤ pragmaRegionLimit)
    (hw : f.graph.Walk f.graph.entry (u ++ [x]) x) (hstk : openAfter Instr.bracket [] (f.trace u) = some stk)
    (hstk' : openAfter Instr.bracket stk (f.instrs x) = some stk') :
    Runs (stk.map (regionID base (groups s.groupList)))
      (s.groupList.zipIdx.reverse.flatMap (regionItems opts fn base x) ++ s.code x)
      (stk'.map (regionID base (groups s.groupList)))
      fun r k => if (innermost f (f.trace u) x).map (regionID base (groups s.groupList)) = some r then
        increments opts fn s.groupList k x else 0 := by
  have hx : f.graph.Reachable x := ⟨_, hw⟩
  obtain ⟨hone, hnone⟩ := startsAt_eq horder hs hunique hx hp
  rw [flatMap_regionItems_eq hnested.wellNested horder hs hunique hx hp, hs.code x hx]
  generalize hincs : (s.groupList.zipIdx.reverse.flatMap fun e =>
    incrementsAt (base + e.2) (instrumentPostDomSet opts (fn e.2).trees e.1.2) x) = incs
  have hcount : ∀ k, increments opts fn s.groupList k x = incrementsOf k incs := fun k => by
    rw [← hincs, incrementsOf_regions hs.nodup, increments]
  have hitems : ∀ item ∈ incs, ∃ r k, item = .incrementCounterArray r k := by
    intro item hitem
    rw [← hincs] at hitem
    obtain ⟨e, -, he⟩ := List.mem_flatMap.mp hitem
    rw [incrementsAt, List.mem_reverse] at he
    obtain ⟨c, -, rfl⟩ := List.mem_map.mp he
    exact ⟨_, _, rfl⟩
  simp only [hcount]
  by_cases hg : ∃ g, .roiBegin g ∈ f.instrs x
  · obtain ⟨g, hg⟩ := hg
    obtain ⟨rest, heq, hrest⟩ := hp.begin_iff hg
    have hgroup : g ∈ groups s.groupList := (hs.mem_groups g).mpr ⟨x, hx, hg⟩
    have hidx := List.idxOf_lt_length_of_mem hgroup
    -- the region of the marker is new on the stack
    have hfresh : regionID base (groups s.groupList) g ∉ stk.map (regionID base (groups s.groupList)) := by
      intro hmem
      obtain ⟨g', hg', hid⟩ := List.mem_map.mp hmem
      obtain ⟨y, hy, hgy⟩ := exists_begin_of_mem_stack hstk hg'
      have hgroup' : g' ∈ groups s.groupList :=
        (hs.mem_groups g').mpr ⟨y, hw.reachable_of_mem (List.mem_append_left _ hy), hgy⟩
      have hidx' : (groups s.groupList).idxOf g' = (groups s.groupList).idxOf g := by
        simp only [regionID] at hid
        omega
      have hgg := (List.idxOf_inj hgroup').mp hidx'
      exact not_mem_stack_of_begin hnested hunique hw hstk hg (hgg ▸ hg')
    have hinner : innermost f (f.trace u) x = some g := by
      have hcut : (f.instrs x).takeWhile Instr.isBegin = [.roiBegin g] := by
        rw [heq, List.takeWhile_cons_of_pos rfl, takeWhile_isBegin_eq_nil hrest]
      rw [innermost, hcut, openAfter_append, hstk]
      rfl
    rw [hone g rest heq, hinner, heq, List.flatMap_cons]
    rw [heq, openAfter, Instr.bracket, Bracket.apply, Option.bind_some] at hstk'
    have hstart := Runs.enter hfresh (show base + (groups s.groupList).idxOf g < pragmaRegionLimit by omega)
    have hend := (Runs.instr (.roiBegin g) _).append (runs_withEnd (regionID base (groups s.groupList)) hrest hstk')
    have hblock := (hstart.append (.increments hitems)).append hend
    simp only [List.head?_cons, Nat.zero_add, Nat.add_zero] at hblock
    exact hblock
  · have hno : ∀ g, .roiBegin g ∉ f.instrs x := fun g hmem => hg ⟨g, hmem⟩
    have hinner : innermost f (f.trace u) x = stk.head? := by
      rw [innermost, takeWhile_isBegin_eq_nil hno, List.append_nil, hstk]
      rfl
    rw [hnone hno, hinner, List.nil_append]
    have hblock := (Runs.increments hitems).append (runs_withEnd (regionID base (groups s.groupList)) hno hstk')
    rw [List.head?_map] at hblock
    exact hblock

end

/-! ### A walk -/

/-- A walk of the instrumented function, block by block. -/
theorem runs_walk {f : MarkedFunction β} {fn : Nat → FunctionAnalysis β} {base : Nat} {s : RecordState β}
    {opts : PassOptions} (hnested : StackNested f) (horder : ∀ i, OrdersBlocks f.graph (fn i))
    (hs : Recorded f base s) (hunique : UniqueBegins f) (hp : ∀ x, IsPiece (f.instrs x))
    (hrange : base + (groups s.groupList).length ≤ pragmaRegionLimit) {code : β → List CodeItem}
    (hcode : ∀ x, code x = s.groupList.zipIdx.reverse.flatMap (regionItems opts fn base x) ++ s.code x)
    {w : List β} {x : β} (hw : f.graph.Walk f.graph.entry w x) :
    ∃ stk, openAfter Instr.bracket [] (f.trace w) = some stk ∧
      Runs [] (w.flatMap code) (stk.map (regionID base (groups s.groupList))) fun r k =>
        sumAlong (fun u y => if (innermost f (f.trace u) y).map (regionID base (groups s.groupList)) = some r then
          increments opts fn s.groupList k y else 0) [] w := by
  induction w using List.reverseRecOn generalizing x with
  | nil => cases hw
  | append_singleton w y ih =>
    obtain rfl : y = x := by
      obtain ⟨v, hv⟩ := hw.exists_concat
      exact (List.append_inj' hv rfl).2 |> List.singleton_inj.mp
    -- the walk up to the block, which may be empty
    obtain ⟨stk, hstk, hruns⟩ : ∃ stk, openAfter Instr.bracket [] (f.trace w) = some stk ∧
        Runs [] (w.flatMap code) (stk.map (regionID base (groups s.groupList))) fun r k =>
          sumAlong (fun u y => if (innermost f (f.trace u) y).map (regionID base (groups s.groupList)) = some r then
            increments opts fn s.groupList k y else 0) [] w := by
      by_cases hne : w = []
      · subst hne
        exact ⟨[], rfl, .nil []⟩
      · obtain ⟨e, he, -, -⟩ := hw.split_step hne
        exact ih he
    obtain ⟨stk', hstk'⟩ := hnested.exists_stack hw
    have hblock := hstk'
    rw [MarkedFunction.trace_append, openAfter_append, hstk, Option.bind_some,
      MarkedFunction.trace_singleton] at hblock
    refine ⟨stk', hstk', ?_⟩
    have hrun := hruns.append (runs_block opts hnested horder hs hunique (hp y) hrange hw hstk hblock)
    rw [← hcode y] at hrun
    simp only [sumAlong_concat, List.nil_append, List.flatMap_append, List.flatMap_singleton]
    exact hrun

/-! ### The counters -/

/-- At the end of the walk every counter of a region is the number of times its block was executed with the region
innermost. -/
def InnermostCounts (cfg : RuntimeConfig) (f : MarkedFunction β) (base : Nat) (groupList : BlockLists β)
    (counters : Nat → List (Counter β)) (final : ThreadState) (w : List β) : Prop :=
  ∀ g ∈ groups groupList, ∀ k a, anchorOf (counters g) k = some a →
    final.counterArray (k + regionID base (groups groupList) g * cfg.counterDimension) = executionsIn f g a w

/-- No block that the walk executes with a region innermost has the increment of a counter of another region with the
number of one of its own. -/
def AnchorsOwn (f : MarkedFunction β) (groupList : BlockLists β) (counters : Nat → List (Counter β)) (w : List β) :
    Prop :=
  ∀ u x v, w = u ++ x :: v → ∀ g, innermost f (f.trace u) x = some g → ∀ g' ∈ groups groupList, g' ≠ g →
    ∀ k < (counters g).length, anchorOf (counters g') k ≠ some x

instance decidableAnchorsOwn (f : MarkedFunction β) (groupList : BlockLists β) (counters : Nat → List (Counter β))
    (w : List β) : Decidable (AnchorsOwn f groupList counters w) :=
  decidable_of_iff (∀ i < w.length, ∀ x ∈ w[i]?, ∀ g ∈ innermost f (f.trace (w.take i)) x, ∀ g' ∈ groups groupList,
      g' ≠ g → ∀ k < (counters g).length, anchorOf (counters g') k ≠ some x) (by
    constructor
    · rintro h u x v rfl g hg
      refine h u.length (by simp) x (by simp) g ?_
      rw [List.take_left]
      exact hg
    · intro h i hi x hx g hg
      rw [Option.mem_def, List.getElem?_eq_some_iff] at hx
      obtain ⟨_, rfl⟩ := hx
      refine h (w.take i) w[i] (w.drop (i + 1)) ?_ g hg
      rw [← List.drop_eq_getElem_cons hi, List.take_append_drop])

omit [DecidableEq β] in
theorem lt_length_of_anchorOf {counters : List (Counter β)} {k : Nat} {a : β} (h : anchorOf counters k = some a) :
    k < counters.length := by
  by_contra hle
  rw [anchorOf, List.getElem?_eq_none (by omega)] at h
  simp at h

omit [DecidableEq β] in
theorem exists_anchorOf {opts : PassOptions} {trees : DominatorTrees β} {bbList : List β} {k : Nat}
    (hk : k < (instrumentPostDomSet opts trees bbList).length) :
    ∃ a, anchorOf (instrumentPostDomSet opts trees bbList) k = some a := by
  rw [instrumentPostDomSet, List.length_map] at hk
  unfold anchorOf instrumentPostDomSet
  rw [List.getElem?_map, List.getElem?_eq_getElem hk, Option.map_some, Option.bind_some]
  have hne := ne_nil_of_mem_createPostDomSets (List.getElem_mem hk)
  cases hset : (createPostDomSets opts trees bbList)[k] with
  | nil => exact absurd hset hne
  | cons a rest => exact ⟨a, rfl⟩

/-- The calls of the code of a block count for sets below the width of a row. -/
theorem setBelow_of_mem_runtimeCalls {n d : Nat} {clock : Nat → UInt64} {items : List CodeItem}
    (hitems : ∀ r k, .incrementCounterArray r k ∈ items → k < d) {e : RuntimeCall}
    (he : e ∈ runtimeCalls clock n items) : e.SetBelow d := by
  induction items generalizing n with
  | nil => simp [runtimeCalls] at he
  | cons item items ih =>
    rw [runtimeCalls, List.mem_append] at he
    rcases he with he | he
    · cases item with
      | instr i => simp [CodeItem.call] at he
      | startTimingEvent r =>
        simp only [CodeItem.call, Option.toList_some, List.mem_singleton] at he
        exact he ▸ trivial
      | endTimingEvent r =>
        simp only [CodeItem.call, Option.toList_some, List.mem_singleton] at he
        exact he ▸ trivial
      | incrementCounterArray r k =>
        simp only [CodeItem.call, Option.toList_some, List.mem_singleton] at he
        exact he ▸ hitems r k List.mem_cons_self
    · exact ih (fun r k hmem => hitems r k (List.mem_cons_of_mem item hmem)) he

section

variable {f : MarkedFunction β} {fn : Nat → FunctionAnalysis β} {base : Nat} {s : RecordState β} {opts : PassOptions}

/-- The increments of a block are numbered within the counters of their region. -/
theorem lt_of_increment_mem (hs : Recorded f base s) {x : β} (hx : f.graph.Reachable x) {r k d : Nat}
    (hd : ∀ g ∈ groups s.groupList, (regionCounters opts fn s.groupList g).length ≤ d)
    (hmem : .incrementCounterArray r k ∈
      s.groupList.zipIdx.reverse.flatMap (regionItems opts fn base x) ++ s.code x) : k < d := by
  rw [hs.code x hx, List.mem_append, List.mem_flatMap, List.mem_flatMap] at hmem
  rcases hmem with ⟨e, he, hitem⟩ | ⟨i, -, hi⟩
  · obtain ⟨hg, hblocks, hidx⟩ := mem_zipIdx hs.nodup (List.mem_reverse.mp he)
    have hlen := hd e.1.1 hg
    rw [regionCounters, hblocks, hidx] at hlen
    rw [regionItems, List.mem_append] at hitem
    rcases hitem with hitem | hitem
    · split at hitem <;> simp at hitem
    · rw [incrementsAt, List.mem_reverse] at hitem
      obtain ⟨c, hc, heq⟩ := List.mem_map.mp hitem
      rw [CodeItem.incrementCounterArray.injEq] at heq
      have hlt := List.snd_lt_of_mem_zipIdx (List.mem_filter.mp hc).1
      omega
  · cases i <;> simp [withEnd] at hi

omit [DecidableEq β] in
/-- The innermost group has a region. -/
theorem mem_groups_of_innermost [DecidableEq β] (hs : Recorded f base s) {u : List β} {x : β} {g : Nat}
    (hw : f.graph.Walk f.graph.entry (u ++ [x]) x) (hg : innermost f (f.trace u) x = some g) :
    g ∈ groups s.groupList := by
  obtain ⟨stk, hstk, htop⟩ := Option.bind_eq_some_iff.mp hg
  have hcount := count_openAfter hstk g
  have hpos : 0 < stk.count g := List.count_pos_iff.mpr (List.mem_of_head? htop)
  rw [List.count_nil, Nat.zero_add] at hcount
  have hmem : .roiBegin g ∈ f.trace u ++ (f.instrs x).takeWhile Instr.isBegin := List.count_pos_iff.mp (by omega)
  have htrace : .roiBegin g ∈ f.trace (u ++ [x]) := by
    rw [MarkedFunction.trace_append, MarkedFunction.trace_singleton, List.mem_append]
    exact (List.mem_append.mp hmem).imp id fun h => (List.takeWhile_sublist _).subset h
  obtain ⟨y, hy, hgy⟩ := List.mem_flatMap.mp htrace
  exact (hs.mem_groups g).mpr ⟨y, hw.reachable_of_mem hy, hgy⟩

/-- How many other regions have their counter `k` in the block. -/
def otherIncrements (opts : PassOptions) (fn : Nat → FunctionAnalysis β) (groupList : BlockLists β) (g k : Nat)
    (x : β) : Nat :=
  ((groups groupList).erase g).countP fun g' => anchorOf (regionCounters opts fn groupList g') k = some x

theorem increments_eq_add {groupList : BlockLists β} {g : Nat} (hg : g ∈ groups groupList) {k : Nat} {a : β}
    (ha : anchorOf (regionCounters opts fn groupList g) k = some a) (x : β) :
    increments opts fn groupList k x = (if x = a then 1 else 0) + otherIncrements opts fn groupList g k x := by
  unfold increments otherIncrements
  rw [(List.perm_cons_erase hg).countP_eq, List.countP_cons, ha]
  by_cases hx : x = a
  · simp [hx, Nat.add_comm]
  · simp [hx, Ne.symm hx]

/-- The region of the innermost group is that of `g` only when `g` is innermost: regions have ids of their own. -/
theorem map_innermost_eq_some_iff (hs : Recorded f base s) {u : List β} {y : β}
    (hw : f.graph.Walk f.graph.entry (u ++ [y]) y) (g : Nat) :
    (innermost f (f.trace u) y).map (regionID base (groups s.groupList)) =
        some (regionID base (groups s.groupList) g) ↔
      innermost f (f.trace u) y = some g := by
  rw [Option.map_eq_some_iff]
  constructor
  · rintro ⟨g', hg', hid⟩
    have hgroup := mem_groups_of_innermost hs hw hg'
    have hidx : (groups s.groupList).idxOf g' = (groups s.groupList).idxOf g := by
      simp only [regionID] at hid
      omega
    rw [hg', (List.idxOf_inj hgroup).mp hidx]
  · intro h
    exact ⟨g, h, rfl⟩

/-- A counter holds its own executions, and those of the equally numbered counters that its region is innermost
around. -/
theorem counterArray_instrumented (hnested : StackNested f) (horder : ∀ i, OrdersBlocks f.graph (fn i))
    (hs : Recorded f base s) (hunique : UniqueBegins f) (hp : ∀ x, IsPiece (f.instrs x))
    (hrange : base + (groups s.groupList).length ≤ pragmaRegionLimit) {code : β → List CodeItem}
    (hcode : ∀ x, code x = s.groupList.zipIdx.reverse.flatMap (regionItems opts fn base x) ++ s.code x)
    {cfg : RuntimeConfig} (hperiod : cfg.samplingPeriod = 1)
    (hdim : ∀ g ∈ groups s.groupList, (regionCounters opts fn s.groupList g).length ≤ cfg.counterDimension)
    (clock : Nat → UInt64) {w : List β} {x : β} (hw : f.graph.Walk f.graph.entry w x) {g : Nat}
    (hg : g ∈ groups s.groupList) {k : Nat} {a : β}
    (ha : anchorOf (regionCounters opts fn s.groupList g) k = some a) :
    (run cfg .initial (runtimeCalls clock 0 (w.flatMap code))).counterArray
        (k + regionID base (groups s.groupList) g * cfg.counterDimension) =
      executionsIn f g a w + sumAlong (fun u y =>
        if innermost f (f.trace u) y = some g then otherIncrements opts fn s.groupList g k y else 0) [] w := by
  obtain ⟨stk, -, hruns⟩ := runs_walk hnested horder hs hunique hp hrange hcode hw
  have hsets : ∀ e ∈ runtimeCalls clock 0 (w.flatMap code), e.SetBelow cfg.counterDimension := by
    intro e he
    refine setBelow_of_mem_runtimeCalls (fun r k hmem => ?_) he
    obtain ⟨y, hy, hk⟩ := List.mem_flatMap.mp hmem
    exact lt_of_increment_mem hs (hw.reachable_of_mem hy) hdim (hcode y ▸ hk)
  have hk : k < cfg.counterDimension := lt_of_lt_of_le (lt_length_of_anchorOf ha) (hdim g hg)
  rw [counterArray_of_freshRun hperiod (hruns.fresh clock 0) hsets hk, hruns.credited, executionsIn, ← sumAlong_add]
  refine sumAlong_congr fun v y r heq => ?_
  rw [heq] at hw
  rw [List.nil_append]
  simp only [map_innermost_eq_some_iff hs hw.split.1, increments_eq_add hg ha]
  by_cases hgi : innermost f (f.trace v) y = some g
  · simp [hgi]
  · simp [hgi]

end

/-- The counters of an instrumented function whose regions may be nested, with every invocation sampled and loop
hoisting off: on every run they are the executions of their blocks with the own region innermost, if and only if no
block executed with a region innermost has the increment of an equally numbered counter of another region. -/
theorem innermostCounts_iff (f : MarkedFunction β) (hnested : StackNested f)
    (hunique : UniqueBegins f.splitInstrumentedBlocks) (opts : PassOptions) (hopt : opts.applyLoopHoisting = false)
    (fn : Nat → FunctionAnalysis (β × Nat)) (horder : ∀ i, OrdersBlocks f.splitInstrumentedBlocks.graph (fn i))
    (base : Nat) (blocks : List (β × Nat)) (hentry : f.splitInstrumentedBlocks.graph.entry ∈ blocks)
    (hblocks : ∀ x ∈ blocks, ∀ y ∈ f.splitInstrumentedBlocks.graph.succs x, y ∈ blocks) (cfg : RuntimeConfig)
    (hperiod : cfg.samplingPeriod = 1) :
    ∃ s, instrumentFunction opts fn f.splitInstrumentedBlocks base blocks.length = some s ∧
      (base + (groups s.groupList).length ≤ pragmaRegionLimit →
        (∀ g ∈ groups s.groupList, (regionCounters opts fn s.groupList g).length ≤ cfg.counterDimension) →
        ∀ clock w x, f.splitInstrumentedBlocks.graph.Walk f.splitInstrumentedBlocks.graph.entry w x →
          (InnermostCounts cfg f.splitInstrumentedBlocks base s.groupList (regionCounters opts fn s.groupList)
              (run cfg .initial (runtimeCalls clock 0 (w.flatMap s.code))) w ↔
            AnchorsOwn f.splitInstrumentedBlocks s.groupList (regionCounters opts fn s.groupList) w)) := by
  have hsplit := hnested.split
  obtain ⟨s, hrecord, hs⟩ := recordPragmaRegions_recorded hsplit.wellNested base hentry hblocks
  obtain ⟨code, hinstrument, hcode⟩ := instrumentRegions_apply hopt fn base s.groupList s.code
  refine ⟨{ s with code := code }, ?_, fun hrange hdim clock w x hw => ?_⟩
  · simp only [instrumentFunction, hrecord, hinstrument, Option.bind_eq_bind, Option.bind_some, Option.pure_def]
  dsimp only at hrange hdim ⊢
  have hcell := fun {g} (hg : g ∈ groups s.groupList) {k a}
      (ha : anchorOf (regionCounters opts fn s.groupList g) k = some a) =>
    counterArray_instrumented hsplit horder hs hunique (isPiece_split f) hrange hcode hperiod hdim clock hw hg ha
  constructor
  · intro hcounts u y v heq g hgi g' hg' hne k hk hanchor
    have hg : g ∈ groups s.groupList := by
      rw [heq] at hw
      exact mem_groups_of_innermost hs hw.split.1 hgi
    obtain ⟨a, ha⟩ : ∃ a, anchorOf (regionCounters opts fn s.groupList g) k = some a := exists_anchorOf hk
    have htotal := (hcell hg ha).symm.trans (hcounts g hg k a ha)
    have hzero := sumAlong_eq_zero.mp (Nat.add_eq_left.mp htotal) u y v heq
    rw [List.nil_append, if_pos hgi, otherIncrements, List.countP_eq_zero] at hzero
    exact hzero g' ((List.mem_erase_of_ne hne).mpr hg') (decide_eq_true hanchor)
  · intro hown g hg k a ha
    rw [hcell hg ha, sumAlong_eq_zero.mpr fun u y v heq => ?_, Nat.add_zero]
    rw [List.nil_append]
    split
    · rename_i hgi
      rw [otherIncrements, List.countP_eq_zero]
      intro g' hg' hanchor
      obtain ⟨hne, hmem⟩ := (List.Nodup.mem_erase_iff hs.nodup).mp hg'
      exact hown u y v heq g hgi g' hmem hne k (lt_length_of_anchorOf ha) (of_decide_eq_true hanchor)
    · rfl

/-! ### An inner region on an arm and one around it -/

/-- The blocks of a function with one `if`. -/
inductive IfBlock
  | before
  | test
  | arm
  | join
  deriving DecidableEq

instance : Fintype IfBlock where
  elems := {.before, .test, .arm, .join}
  complete x := by cases x <;> decide

/-- The `if` is in the second block, and its arm may be passed by. -/
def ifThen (instrs : IfBlock → List Instr) : MarkedFunction IfBlock where
  graph :=
    { entry := .before
      succs
        | .before => [.test]
        | .test => [.arm, .join]
        | .arm => [.join]
        | .join => [] }
  instrs := instrs

/-- The analyses of a split `ifThen`: its blocks in the order they dominate each other. -/
def ifThenAnalysis (instrs : IfBlock → List Instr) (ordered : List (IfBlock × Nat)) :
    FunctionAnalysis (IfBlock × Nat) where
  orderedCFG := ordered
  size := fun _ => 3
  detectPragma := fun x => ((ifThen instrs).splitInstrumentedBlocks.instrs x).any Instr.isBegin
  trees :=
    { postDominates := fun a x => decide (ordered.idxOf x ≤ ordered.idxOf a ∧ (a.1 = .arm → x.1 = .arm))
      dominates := fun a x => decide (ordered.idxOf a ≤ ordered.idxOf x ∧ (a.1 = .arm → x.1 = .arm)) }
  loopInfo := .nil
  backedgeTakenCount := fun _ => .couldNotCompute
  beforeSplit := fun _ => .couldNotCompute
  afterSplit := fun _ => .couldNotCompute

/-- Region 2 lies on the arm, and region 1 around the `if`. -/
def innerOnArm : IfBlock → List Instr
  | .before => [.roiBegin 1, .other]
  | .test => [.other]
  | .arm => [.roiBegin 2, .other, .roiEnd 2, .other]
  | .join => [.other, .roiEnd 1, .other]

def innerOnArmAnalysis : FunctionAnalysis (IfBlock × Nat) :=
  ifThenAnalysis innerOnArm [(.before, 0), (.test, 0), (.arm, 0), (.arm, 1), (.join, 0), (.join, 1)]

/-- Region 2 lies around the `if`, and region 1 around region 2. -/
def innerAroundArm : IfBlock → List Instr
  | .before => [.roiBegin 1, .other]
  | .test => [.roiBegin 2, .other]
  | .arm => [.other]
  | .join => [.roiEnd 2, .other, .roiEnd 1, .other]

def innerAroundArmAnalysis : FunctionAnalysis (IfBlock × Nat) :=
  ifThenAnalysis innerAroundArm [(.before, 0), (.test, 0), (.arm, 0), (.join, 0), (.join, 1), (.join, 2)]

/-- The options with loop hoisting off. -/
def withoutHoisting : PassOptions := { applyLoopHoisting := false }

private theorem ifThen_uniqueBegins {instrs : IfBlock → List Instr} {ordered : List (IfBlock × Nat)}
    (hentry : (.before, 0) ∈ ordered)
    (hclosed : ∀ x ∈ ordered, ∀ y ∈ (ifThen instrs).splitInstrumentedBlocks.graph.succs x, y ∈ ordered)
    (honce : ∀ x ∈ ordered, ∀ y ∈ ordered, ∀ i ∈ (ifThen instrs).splitInstrumentedBlocks.instrs x,
      i.isBegin = true → i ∈ (ifThen instrs).splitInstrumentedBlocks.instrs y → x = y) :
    UniqueBegins (ifThen instrs).splitInstrumentedBlocks := by
  have hmem : ∀ x, (ifThen instrs).splitInstrumentedBlocks.graph.Reachable x → x ∈ ordered := by
    rintro x ⟨w, hw⟩
    exact hw.mem_of_closed hclosed hentry
  intro g x y hx hy hgx hgy
  exact honce x (hmem x hx) y (hmem y hy) _ hgx rfl hgy

private theorem innerOnArm_nested : StackNested (ifThen innerOnArm) :=
  .of_stacks (fun | .before => [] | _ => [1]) (fun | .join => [] | _ => [1]) rfl (by decide) (by decide) (by decide)

private theorem innerAroundArm_nested : StackNested (ifThen innerAroundArm) :=
  .of_stacks (fun | .before => [] | .test => [1] | _ => [2, 1]) (fun | .before => [1] | .join => [] | _ => [2, 1]) rfl
    (by decide) (by decide) (by decide)

/-- Region 2 on the arm: its one counter has the number 0, and the counter 0 of region 1 is not in the arm. -/
theorem innermostCounts_innerOnArm :
    ∃ s, instrumentFunction withoutHoisting (fun _ => innerOnArmAnalysis)
        (ifThen innerOnArm).splitInstrumentedBlocks 0 6 = some s ∧
      InnermostCounts ⟨1, 2⟩ (ifThen innerOnArm).splitInstrumentedBlocks 0 s.groupList
        (regionCounters withoutHoisting (fun _ => innerOnArmAnalysis) s.groupList)
        (run ⟨1, 2⟩ .initial (runtimeCalls (fun _ => 0) 0 (innerOnArmAnalysis.orderedCFG.flatMap s.code)))
        innerOnArmAnalysis.orderedCFG := by
  have hwalk : (ifThen innerOnArm).splitInstrumentedBlocks.graph.Walk (.before, 0) innerOnArmAnalysis.orderedCFG
      (.join, 1) :=
    .cons (by decide) (.cons (by decide) (.cons (by decide) (.cons (by decide) (.cons (by decide) (.single _)))))
  obtain ⟨s, hs, hiff⟩ := innermostCounts_iff (ifThen innerOnArm) innerOnArm_nested
    (ifThen_uniqueBegins hwalk.source_mem (by decide) (by decide)) withoutHoisting rfl (fun _ => innerOnArmAnalysis)
    (fun _ => .of_walk hwalk (by decide) fun _ => Nat.succ_pos 2) 0 innerOnArmAnalysis.orderedCFG hwalk.source_mem
    (by decide) ⟨1, 2⟩ rfl
  have hrun : (instrumentFunction withoutHoisting (fun _ => innerOnArmAnalysis)
      (ifThen innerOnArm).splitInstrumentedBlocks 0 6).map (fun s => s.groupList) =
        some [(1, [(.before, 0), (.test, 0), (.arm, 0), (.arm, 1), (.join, 0)]), (2, [(.arm, 0)])] := by decide
  have hlist :
    s.groupList = [(1, [(.before, 0), (.test, 0), (.arm, 0), (.arm, 1), (.join, 0)]), (2, [(.arm, 0)])] := by
    have hmap := congrArg (Option.map fun s => s.groupList) hs
    exact Option.some.inj (hmap.symm.trans hrun)
  refine ⟨s, hs, (hiff ?_ ?_ _ _ _ hwalk).mpr ?_⟩
  · rw [hlist]
    decide
  · rw [hlist]
    decide
  · rw [hlist]
    decide

/-- Region 2 around the `if`: the arm has the counter 1 of both regions, and its one execution adds 2 to the counter 1
of region 2. -/
theorem not_innermostCounts_innerAroundArm :
    StackNested (ifThen innerAroundArm) ∧ UniqueBegins (ifThen innerAroundArm).splitInstrumentedBlocks ∧
      OrdersBlocks (ifThen innerAroundArm).splitInstrumentedBlocks.graph innerAroundArmAnalysis ∧
      (ifThen innerAroundArm).splitInstrumentedBlocks.graph.Walk (.before, 0) innerAroundArmAnalysis.orderedCFG
        (.join, 2) ∧
      ∃ s, instrumentFunction withoutHoisting (fun _ => innerAroundArmAnalysis)
          (ifThen innerAroundArm).splitInstrumentedBlocks 0 6 = some s ∧
        s.groupList = [(1, [(.before, 0), (.test, 0), (.arm, 0), (.join, 0), (.join, 1)]),
          (2, [(.test, 0), (.arm, 0), (.join, 0)])] ∧
        (run ⟨1, 2⟩ .initial (runtimeCalls (fun _ => 0) 0
          (innerAroundArmAnalysis.orderedCFG.flatMap s.code))).counterArray (1 + 1 * 2) = 2 ∧
        executionsIn (ifThen innerAroundArm).splitInstrumentedBlocks 2 (.arm, 0) innerAroundArmAnalysis.orderedCFG =
          1 ∧
        ¬ InnermostCounts ⟨1, 2⟩ (ifThen innerAroundArm).splitInstrumentedBlocks 0 s.groupList
          (regionCounters withoutHoisting (fun _ => innerAroundArmAnalysis) s.groupList)
          (run ⟨1, 2⟩ .initial (runtimeCalls (fun _ => 0) 0 (innerAroundArmAnalysis.orderedCFG.flatMap s.code)))
          innerAroundArmAnalysis.orderedCFG := by
  have hwalk :
    (ifThen innerAroundArm).splitInstrumentedBlocks.graph.Walk (.before, 0) innerAroundArmAnalysis.orderedCFG
      (.join, 2) :=
    .cons (by decide) (.cons (by decide) (.cons (by decide) (.cons (by decide) (.cons (by decide) (.single _)))))
  have hrun : (instrumentFunction withoutHoisting (fun _ => innerAroundArmAnalysis)
      (ifThen innerAroundArm).splitInstrumentedBlocks 0 6).map (fun s => (s.groupList,
        (run ⟨1, 2⟩ .initial (runtimeCalls (fun _ => 0) 0
          (innerAroundArmAnalysis.orderedCFG.flatMap s.code))).counterArray (1 + 1 * 2))) =
      some ([(1, [(.before, 0), (.test, 0), (.arm, 0), (.join, 0), (.join, 1)]),
        (2, [(.test, 0), (.arm, 0), (.join, 0)])], 2) := by decide
  obtain ⟨s, hs, heq⟩ := Option.map_eq_some_iff.mp hrun
  obtain ⟨hlist, hcell⟩ := Prod.mk.inj heq
  have hexec : executionsIn (ifThen innerAroundArm).splitInstrumentedBlocks 2 (.arm, 0)
      innerAroundArmAnalysis.orderedCFG = 1 := by decide
  refine ⟨innerAroundArm_nested, ifThen_uniqueBegins hwalk.source_mem (by decide) (by decide),
    .of_walk hwalk (by decide) fun _ => Nat.succ_pos 2, hwalk, s, hs, hlist, hcell, hexec, fun hcounts => ?_⟩
  -- the set 1 of region 2 is the arm
  have hid : regionID 0 (groups s.groupList) 2 = 1 := by
    rw [hlist]
    decide
  have hcount := hcounts 2 (by rw [hlist]; decide) 1 (.arm, 0) (by rw [hlist]; decide)
  rw [show (⟨1, 2⟩ : RuntimeConfig).counterDimension = 2 from rfl, hid, hcell, hexec] at hcount
  omega

end ZRay
