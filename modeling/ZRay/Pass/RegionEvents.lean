import Mathlib.Algebra.Order.Group.Nat
import ZRay.Pass.RegionBounds
import ZRay.Pass.Regions
import ZRay.Pass.ScaleFactorSets

/-!
# The entry and exit calls of a function

After `recordPragmaRegions` has put the exit calls, `InstrumentPragmaRegion` puts the increments of a region and then
one entry call, at the begin block of the region.  The entry calls follow the begin markers when each group has one
reachable begin marker; a second pair of markers of the same group gets exit calls, but no entry call of its own.
-/

namespace ZRay.Pass

open FlowGraph BlockLists Nesting

variable {β : Type*}

/-! ### Instrumenting a function -/

section

variable [DecidableEq β]

/-- A call at the first insertion point of a block, in front of what is there. -/
def insertCall (item : CodeItem) (bb : β) (code : β → List CodeItem) : β → List CodeItem :=
  Function.update code bb (item :: code bb)

/-- The increment of the counter `k` of a region.  That of a post-dominator set goes to its first block; a hoisted
counter goes to a block of its own, on the edge into the loop. -/
def insertPostDomSetEvent (region : Nat) (code : β → List CodeItem) : Counter β × Nat → β → List CodeItem
  | (.postDomSet (anchor :: _), k) => insertCall (.incrementCounterArray region k) anchor code
  | _ => code

/-- The increments of the counters of a region, in order. -/
def insertPostDomSetEvents (region : Nat) (counters : List (Counter β)) (code : β → List CodeItem) :
    β → List CodeItem :=
  counters.zipIdx.foldl (insertPostDomSetEvent region) code

/-- `insertStartTimerEvent` at the begin block of the region. -/
def insertStartTimerEvent (fn : FunctionAnalysis β) (region : Nat) (bbList : List β) (code : β → List CodeItem) :
    β → List CodeItem :=
  match regionBeginBlock fn bbList with
  | some beginBlock => insertCall (.startTimingEvent region) beginBlock code
  | none => code

/-- `InstrumentPragmaRegion` on the code: the increments, and then the entry call. -/
def instrumentRegion (opts : PassOptions) (fn : FunctionAnalysis β) (region : Nat) (bbList : List β)
    (code : β → List CodeItem) : Option (β → List CodeItem) :=
  (InstrumentPragmaRegion opts fn bbList).map fun counters =>
    insertStartTimerEvent fn region bbList (insertPostDomSetEvents region counters code)

/-- The regions of a function in the order of their ids.  The analyses are run again for each, since the code has
changed: `fn i` are the answers for region `i`. -/
def instrumentRegions (opts : PassOptions) (fn : Nat → FunctionAnalysis β) (base : Nat) (groupList : BlockLists β)
    (code : β → List CodeItem) : Option (β → List CodeItem) :=
  groupList.zipIdx.foldlM (fun code e => instrumentRegion opts (fn e.2) (base + e.2) e.1.2 code) code

/-- A function whose blocks are split: its regions are recorded, and then instrumented. -/
def instrumentFunction (opts : PassOptions) (fn : Nat → FunctionAnalysis β) (f : MarkedFunction β) (base fuel : Nat) :
    Option (RecordState β) := do
  let s ← recordFunction f base fuel
  let code ← instrumentRegions opts fn base s.groupList s.code
  return { s with code := code }

end

/-! ### Calls and markers -/

/-- The entry and exit calls, as brackets labelled by region ids. -/
def CodeItem.event : CodeItem → Option (Bracket Nat)
  | .startTimingEvent r => some (.enter r)
  | .endTimingEvent r => some (.exit r)
  | _ => none

/-- The markers, as brackets labelled by the region ids of their groups. -/
def Instr.event (id : Nat → Nat) : Instr → Option (Bracket Nat)
  | .roiBegin g => some (.enter (id g))
  | .roiEnd g => some (.exit (id g))
  | .other => none

/-- An instruction with the call of its marker in front. -/
def withCall (id : Nat → Nat) : Instr → List CodeItem
  | .roiBegin g => [.startTimingEvent (id g), .instr (.roiBegin g)]
  | .roiEnd g => [.endTimingEvent (id g), .instr (.roiEnd g)]
  | .other => [.instr .other]

/-- The instructions among the code. -/
def CodeItem.instr? : CodeItem → Option Instr
  | .instr i => some i
  | _ => none

def CodeItem.notIncrement : CodeItem → Bool
  | .incrementCounterArray _ _ => false
  | _ => true

/-- The calls follow the markers on every path: each executed marker runs its call; no exit call finds its region
closed; what runs between the markers of a group runs with its region open; and on a run to an exit every entry call
is matched by an exit call. -/
structure EventsFollowMarkers (f : MarkedFunction β) (id : Nat → Nat) (code : β → List CodeItem) : Prop where
  events : ∀ {w x}, f.graph.Walk f.graph.entry w x →
    (w.flatMap code).filterMap CodeItem.event = (f.trace w).filterMap (Instr.event id)
  end_open : ∀ {w x}, f.graph.Walk f.graph.entry w x → ∀ u r v, w.flatMap code = u ++ .endTimingEvent r :: v →
    u.count (.endTimingEvent r) < u.count (.startTimingEvent r)
  open_between : ∀ {w x}, f.graph.Walk f.graph.entry w x → ∀ u v, w.flatMap code = u ++ .instr .other :: v →
    ∀ g, 0 < openDepth g (u.filterMap CodeItem.instr?) →
      u.count (.endTimingEvent (id g)) < u.count (.startTimingEvent (id g))
  balanced : ∀ {w}, f.graph.Complete w → ∀ r,
    (w.flatMap code).count (.startTimingEvent r) = (w.flatMap code).count (.endTimingEvent r)

/-- No group has begin markers in two reachable blocks. -/
def UniqueBegins (f : MarkedFunction β) : Prop :=
  ∀ g x y, f.graph.Reachable x → f.graph.Reachable y → .roiBegin g ∈ f.instrs x → .roiBegin g ∈ f.instrs y → x = y

/-! ### The code of a block -/

theorem filterMap_event_filter (c : List CodeItem) :
    (c.filter CodeItem.notIncrement).filterMap CodeItem.event = c.filterMap CodeItem.event := by
  rw [List.filterMap_filter]
  refine List.filterMap_congr fun i _ => ?_
  cases i <;> rfl

section

variable [DecidableEq β]

theorem filter_insertPostDomSetEvent (region : Nat) (code : β → List CodeItem) (e : Counter β × Nat) (x : β) :
    (insertPostDomSetEvent region code e x).filter CodeItem.notIncrement =
      (code x).filter CodeItem.notIncrement := by
  unfold insertPostDomSetEvent
  split
  · rename_i anchor _ k
    by_cases hx : x = anchor
    · subst hx
      rw [insertCall, Function.update_self, List.filter_cons_of_neg (by simp [CodeItem.notIncrement])]
    · rw [insertCall, Function.update_of_ne hx]
  · rfl

theorem filter_insertPostDomSetEvents (region : Nat) (counters : List (Counter β)) (code : β → List CodeItem)
    (x : β) :
    (insertPostDomSetEvents region counters code x).filter CodeItem.notIncrement =
      (code x).filter CodeItem.notIncrement := by
  unfold insertPostDomSetEvents
  generalize counters.zipIdx = entries
  induction entries generalizing code with
  | nil => rfl
  | cons e entries ih => rw [List.foldl_cons, ih, filter_insertPostDomSetEvent]

/-- The entry calls of the regions among `entries` that begin at `x`, the last one first. -/
def startsAt (fn : Nat → FunctionAnalysis β) (base : Nat) (entries : List ((Nat × List β) × Nat)) (x : β) :
    List CodeItem :=
  ((entries.filter fun e => regionBeginBlock (fn e.2) e.1.2 = some x).map
    fun e => .startTimingEvent (base + e.2)).reverse

theorem filter_instrumentRegions (opts : PassOptions) (fn : Nat → FunctionAnalysis β) (base : Nat)
    (entries : List ((Nat × List β) × Nat)) (code : β → List CodeItem) :
    ∃ code', entries.foldlM (fun code e => instrumentRegion opts (fn e.2) (base + e.2) e.1.2 code) code = some code' ∧
      ∀ x, (code' x).filter CodeItem.notIncrement =
        startsAt fn base entries x ++ (code x).filter CodeItem.notIncrement := by
  induction entries generalizing code with
  | nil => exact ⟨code, rfl, fun x => rfl⟩
  | cons e entries ih =>
    obtain ⟨counters, hcounters⟩ := exists_instrumentPragmaRegion opts (fn e.2) e.1.2
    obtain ⟨code', hcode', hfilter⟩ := ih (insertStartTimerEvent (fn e.2) (base + e.2) e.1.2
      (insertPostDomSetEvents (base + e.2) counters code))
    refine ⟨code', ?_, fun x => ?_⟩
    · rw [List.foldlM_cons, instrumentRegion, hcounters, Option.map_some, Option.bind_eq_bind, Option.bind_some]
      exact hcode'
    · rw [hfilter x]
      unfold insertStartTimerEvent startsAt
      cases hbegin : regionBeginBlock (fn e.2) e.1.2 with
      | none =>
        dsimp only
        rw [filter_insertPostDomSetEvents, List.filter_cons_of_neg (by simp [hbegin])]
      | some b =>
        dsimp only
        by_cases hx : x = b
        · subst hx
          rw [insertCall, Function.update_self, List.filter_cons_of_pos (by rfl), filter_insertPostDomSetEvents,
            List.filter_cons_of_pos (by simp [hbegin])]
          simp
        · rw [insertCall, Function.update_of_ne hx, filter_insertPostDomSetEvents,
            List.filter_cons_of_neg (by simp [hbegin, Ne.symm hx])]

end

/-! ### Begin blocks -/

/-- The begin marker of a piece stands in front, and there is no second one. -/
theorem IsPiece.begin_iff {p : List Instr} (hp : IsPiece p) {g : Nat} (hg : .roiBegin g ∈ p) :
    ∃ rest, p = .roiBegin g :: rest ∧ ∀ g', .roiBegin g' ∉ rest := by
  obtain ⟨u, rest, rfl⟩ := List.append_of_mem hg
  obtain rfl := hp.begin_first u g rest rfl
  refine ⟨rest, rfl, fun g' hg' => ?_⟩
  obtain ⟨u', v', rfl⟩ := List.append_of_mem hg'
  have hnil := hp.begin_first (.roiBegin g :: u') g' v' (by simp)
  simp at hnil

/-- A group open in a block has a begin marker on every walk to it. -/
theorem exists_begin_of_openIn {f : MarkedFunction β} {u : List β} {x : β} {g : Nat} (h : OpenIn f (f.trace u) x g) :
    ∃ y ∈ u ++ [x], .roiBegin g ∈ f.instrs y := by
  have hmem : .roiBegin g ∈ f.trace (u ++ [x]) := by
    unfold OpenIn openDepth at h
    rw [MarkedFunction.trace_append, MarkedFunction.trace_singleton]
    refine List.count_pos_iff.mp ?_
    rw [List.count_append]
    omega
  obtain ⟨y, hy, hg⟩ := List.mem_flatMap.mp hmem
  exact ⟨y, hy, hg⟩

variable [DecidableEq β]

/-- When a group has one begin marker, its block is the begin block of the region. -/
theorem regionBeginBlock_eq {f : MarkedFunction β} {fn : FunctionAnalysis β} (horder : OrdersBlocks f.graph fn)
    {base : Nat} {s : RecordState β} (hs : Recorded f base s) (hunique : UniqueBegins f) {x : β}
    (hx : f.graph.Reachable x) {g : Nat} (hg : .roiBegin g ∈ f.instrs x) :
    regionBeginBlock fn (blocksOf g s.groupList) = some x := by
  refine beginBlock_eq_of_dominates horder ?_ (hs.reachable g) fun y hy w hw => ?_
  · obtain ⟨w, hw⟩ := hx
    obtain ⟨u, rfl⟩ := hw.exists_concat
    rw [hs.mem_blocksOf hw g]
    have hpos := List.count_pos_iff.mpr hg
    unfold OpenIn
    omega
  · obtain ⟨u, rfl⟩ := hw.exists_concat
    obtain ⟨z, hz, hgz⟩ := exists_begin_of_openIn ((hs.mem_blocksOf hw g).mp hy)
    exact hunique g z x (hw.reachable_of_mem hz) hx hgz hg ▸ hz

/-- The regions that begin in a block are those with a begin marker in it. -/
theorem regionBeginBlock_iff {f : MarkedFunction β} {fn : Nat → FunctionAnalysis β}
    (horder : ∀ i, OrdersBlocks f.graph (fn i)) {base : Nat} {s : RecordState β} (hs : Recorded f base s)
    (hunique : UniqueBegins f) {x : β} (hx : f.graph.Reachable x) {e : (Nat × List β) × Nat}
    (he : e ∈ s.groupList.zipIdx) : regionBeginBlock (fn e.2) e.1.2 = some x ↔ .roiBegin e.1.1 ∈ f.instrs x := by
  obtain ⟨hg, hblocks, -⟩ := mem_zipIdx hs.nodup he
  obtain ⟨y, hy, hgy⟩ := (hs.mem_groups e.1.1).mp hg
  rw [← hblocks, regionBeginBlock_eq (horder e.2) hs hunique hy hgy]
  constructor
  · intro heq
    exact Option.some.inj heq ▸ hgy
  · intro hgx
    rw [hunique e.1.1 y x hy hx hgy hgx]

/-- The entry calls in a block: that of the group whose begin marker it holds. -/
theorem startsAt_eq {f : MarkedFunction β} {fn : Nat → FunctionAnalysis β}
    (horder : ∀ i, OrdersBlocks f.graph (fn i)) {base : Nat} {s : RecordState β} (hs : Recorded f base s)
    (hunique : UniqueBegins f) {x : β} (hx : f.graph.Reachable x) (hp : IsPiece (f.instrs x)) :
    (∀ g rest, f.instrs x = .roiBegin g :: rest →
      startsAt fn base s.groupList.zipIdx x = [.startTimingEvent (regionID base (groups s.groupList) g)]) ∧
    ((∀ g, .roiBegin g ∉ f.instrs x) → startsAt fn base s.groupList.zipIdx x = []) := by
  have hiff := fun e he => regionBeginBlock_iff horder hs hunique hx (e := e) he
  unfold startsAt
  constructor
  · intro g rest heq
    have hfilter : (s.groupList.zipIdx.filter fun e => regionBeginBlock (fn e.2) e.1.2 = some x) =
        s.groupList.zipIdx.filter fun e => e.1.1 = g := by
      refine List.filter_congr fun e he => ?_
      rw [decide_eq_decide, hiff e he]
      obtain ⟨rest', heq', hnone⟩ := hp.begin_iff (g := g) (by simp [heq])
      constructor
      · intro hmem
        rw [heq'] at hmem
        rcases List.mem_cons.mp hmem with hmem | hmem
        · exact Instr.roiBegin.inj hmem
        · exact absurd hmem (hnone _)
      · intro he
        rw [he, heq]
        exact List.mem_cons_self
    have hg : g ∈ groups s.groupList := (hs.mem_groups g).mpr ⟨x, hx, by simp [heq]⟩
    rw [hfilter, filter_zipIdx hs.nodup, if_pos hg]
    rfl
  · intro hnone
    have hfilter : (s.groupList.zipIdx.filter fun e => regionBeginBlock (fn e.2) e.1.2 = some x) = [] := by
      refine List.filter_eq_nil_iff.mpr fun e he => ?_
      rw [decide_eq_true_eq, hiff e he]
      exact hnone e.1.1
    rw [hfilter]
    rfl

omit [DecidableEq β] in
theorem filter_flatMap_withEnd (id : Nat → Nat) (l : List Instr) :
    (l.flatMap (withEnd id)).filter CodeItem.notIncrement = l.flatMap (withEnd id) := by
  refine List.filter_eq_self.mpr fun i hi => ?_
  obtain ⟨j, -, hj⟩ := List.mem_flatMap.mp hi
  cases j <;> simp only [withEnd, List.mem_cons, List.not_mem_nil, or_false] at hj
  · simp [hj, CodeItem.notIncrement]
  · rcases hj with rfl | rfl <;> rfl
  · simp [hj, CodeItem.notIncrement]

omit [DecidableEq β] in
/-- Without begin markers the exit calls are all the calls. -/
theorem flatMap_withEnd_eq {l : List Instr} (h : ∀ g, .roiBegin g ∉ l) (id : Nat → Nat) :
    l.flatMap (withEnd id) = l.flatMap (withCall id) := by
  refine List.flatMap_congr fun i hi => ?_
  cases i with
  | roiBegin g => exact absurd hi (h g)
  | roiEnd g => rfl
  | other => rfl

/-- With one begin marker for each group every marker of a block has its call in front, and there are no other
calls. -/
theorem filter_code_eq {f : MarkedFunction β} {fn : Nat → FunctionAnalysis β}
    (horder : ∀ i, OrdersBlocks f.graph (fn i)) {base : Nat} {s : RecordState β} (hs : Recorded f base s)
    (hunique : UniqueBegins f) {x : β} (hx : f.graph.Reachable x) (hp : IsPiece (f.instrs x)) :
    startsAt fn base s.groupList.zipIdx x ++ (s.code x).filter CodeItem.notIncrement =
      (f.instrs x).flatMap (withCall (regionID base (groups s.groupList))) := by
  obtain ⟨hone, hnone⟩ := startsAt_eq horder hs hunique hx hp
  rw [hs.code x hx, filter_flatMap_withEnd]
  by_cases hg : ∃ g, .roiBegin g ∈ f.instrs x
  · obtain ⟨g, hg⟩ := hg
    obtain ⟨rest, heq, hrest⟩ := hp.begin_iff hg
    rw [hone g rest heq, heq, List.flatMap_cons, List.flatMap_cons, flatMap_withEnd_eq hrest]
    rfl
  · rw [hnone fun g hmem => hg ⟨g, hmem⟩, flatMap_withEnd_eq fun g hmem => hg ⟨g, hmem⟩]
    rfl

/-! ### Calls in front of their markers -/

omit [DecidableEq β]

theorem filterMap_instr_withCall (id : Nat → Nat) (t : List Instr) :
    (t.flatMap (withCall id)).filterMap CodeItem.instr? = t := by
  induction t with
  | nil => rfl
  | cons i t ih => cases i <;> simp [withCall, CodeItem.instr?, List.filterMap_cons, ih]

theorem filterMap_event_withCall (id : Nat → Nat) (t : List Instr) :
    (t.flatMap (withCall id)).filterMap CodeItem.event = t.filterMap (Instr.event id) := by
  induction t with
  | nil => rfl
  | cons i t ih => cases i <;> simp [withCall, CodeItem.event, Instr.event, List.filterMap_cons, ih]

/-- A place in a concatenation lies in one of the parts. -/
theorem exists_of_flatMap_eq_append {α ε : Type*} {f : α → List ε} {t : List α} {u v : List ε} {x : ε}
    (h : t.flatMap f = u ++ x :: v) :
    ∃ t1 i t2 p q, t = t1 ++ i :: t2 ∧ f i = p ++ x :: q ∧ u = t1.flatMap f ++ p := by
  induction t generalizing u with
  | nil => simp at h
  | cons i t ih =>
    rw [List.flatMap_cons] at h
    rcases List.append_eq_append_iff.mp h with ⟨k, rfl, hk⟩ | ⟨k, hi, hk⟩
    · obtain ⟨t1, j, t2, p, q, rfl, hj, rfl⟩ := ih hk
      exact ⟨i :: t1, j, t2, p, q, rfl, hj, by simp⟩
    · cases k with
      | nil =>
        obtain ⟨t1, j, t2, p, q, rfl, hj, hnil⟩ := ih (u := []) hk.symm
        rw [List.append_nil] at hi
        obtain ⟨h1, rfl⟩ := List.append_eq_nil_iff.mp hnil.symm
        exact ⟨i :: t1, j, t2, [], q, rfl, hj, by simp [h1, hi]⟩
      | cons y k =>
        rw [List.cons_append, List.cons.injEq] at hk
        exact ⟨[], i, t, u, k, rfl, by rw [hi, hk.1], by simp⟩

/-- Where an exit call is about to run, its end marker follows. -/
theorem exists_end_of_withCall {id : Nat → Nat} {t : List Instr} {u v : List CodeItem} {r : Nat}
    (h : t.flatMap (withCall id) = u ++ .endTimingEvent r :: v) :
    ∃ t1 g t2, t = t1 ++ .roiEnd g :: t2 ∧ id g = r ∧ u = t1.flatMap (withCall id) := by
  obtain ⟨t1, i, t2, p, q, ht, hi, hu⟩ := exists_of_flatMap_eq_append h
  cases i with
  | roiBegin g =>
    have hmem : .endTimingEvent r ∈ withCall id (.roiBegin g) := by simp [hi]
    simp [withCall] at hmem
  | other =>
    have hmem : .endTimingEvent r ∈ withCall id .other := by simp [hi]
    simp [withCall] at hmem
  | roiEnd g =>
    cases p with
    | nil =>
      rw [withCall, List.nil_append, List.cons.injEq, CodeItem.endTimingEvent.injEq] at hi
      exact ⟨t1, g, t2, ht, hi.1, by simpa using hu⟩
    | cons y p =>
      rw [withCall, List.cons_append, List.cons.injEq] at hi
      have hmem : .endTimingEvent r ∈ [CodeItem.instr (.roiEnd g)] := by simp [hi.2]
      simp at hmem

theorem exists_other_of_withCall {id : Nat → Nat} {t : List Instr} {u v : List CodeItem}
    (h : t.flatMap (withCall id) = u ++ .instr .other :: v) :
    ∃ t1 t2, t = t1 ++ .other :: t2 ∧ u = t1.flatMap (withCall id) := by
  obtain ⟨t1, i, t2, p, q, ht, hi, hu⟩ := exists_of_flatMap_eq_append h
  cases i with
  | roiBegin g =>
    have hmem : .instr .other ∈ withCall id (.roiBegin g) := by simp [hi]
    simp [withCall] at hmem
  | roiEnd g =>
    have hmem : .instr .other ∈ withCall id (.roiEnd g) := by simp [hi]
    simp [withCall] at hmem
  | other =>
    have hlen := congrArg List.length hi
    simp only [withCall, List.length_append, List.length_cons, List.length_nil] at hlen
    have hp : p = [] := List.length_eq_zero_iff.mp (by omega)
    exact ⟨t1, t2, ht, by simpa [hp] using hu⟩

/-- The calls of a region are counted by the markers of its group, when no other group has its id. -/
theorem count_withCall {id : Nat → Nat} {g : Nat} {t : List Instr}
    (hid : ∀ g', .roiBegin g' ∈ t ∨ .roiEnd g' ∈ t → id g' = id g → g' = g) :
    (t.flatMap (withCall id)).count (.startTimingEvent (id g)) = t.count (.roiBegin g) ∧
      (t.flatMap (withCall id)).count (.endTimingEvent (id g)) = t.count (.roiEnd g) := by
  induction t with
  | nil => simp
  | cons i t ih =>
    obtain ⟨hstart, hend⟩ := ih fun g' hg' => hid g' (hg'.imp (List.mem_cons_of_mem i) (List.mem_cons_of_mem i))
    rw [List.flatMap_cons, List.count_append, List.count_append, hstart, hend, List.count_cons, List.count_cons]
    cases i with
    | roiBegin g' =>
      have hiff : id g' = id g ↔ g' = g := ⟨hid g' (.inl List.mem_cons_self), fun h => by rw [h]⟩
      by_cases hg : g' = g
      · simp [withCall, hg, Nat.add_comm]
      · simp [withCall, hg, hiff]
    | roiEnd g' =>
      have hiff : id g' = id g ↔ g' = g := ⟨hid g' (.inr List.mem_cons_self), fun h => by rw [h]⟩
      by_cases hg : g' = g
      · simp [withCall, hg, Nat.add_comm]
      · simp [withCall, hg, hiff]
    | other => simp [withCall]

/-- Calls of a region that is no group's do not occur. -/
theorem count_withCall_eq_zero {id : Nat → Nat} {r : Nat} {t : List Instr}
    (hid : ∀ g, .roiBegin g ∈ t ∨ .roiEnd g ∈ t → id g ≠ r) :
    (t.flatMap (withCall id)).count (.startTimingEvent r) = 0 ∧
      (t.flatMap (withCall id)).count (.endTimingEvent r) = 0 := by
  constructor
  · refine List.count_eq_zero_of_not_mem fun hmem => ?_
    obtain ⟨i, hi, hcall⟩ := List.mem_flatMap.mp hmem
    cases i with
    | roiBegin g =>
      simp only [withCall, List.mem_cons, CodeItem.startTimingEvent.injEq, reduceCtorEq, List.not_mem_nil,
        or_false] at hcall
      exact hid g (.inl hi) hcall.symm
    | roiEnd g => simp [withCall] at hcall
    | other => simp [withCall] at hcall
  · refine List.count_eq_zero_of_not_mem fun hmem => ?_
    obtain ⟨i, hi, hcall⟩ := List.mem_flatMap.mp hmem
    cases i with
    | roiEnd g =>
      simp only [withCall, List.mem_cons, CodeItem.endTimingEvent.injEq, reduceCtorEq, List.not_mem_nil,
        or_false] at hcall
      exact hid g (.inr hi) hcall.symm
    | roiBegin g => simp [withCall] at hcall
    | other => simp [withCall] at hcall

/-! ### Paths -/

theorem NoUnopened.begin_mem {t : List Instr} (h : NoUnopened t) {g : Nat} (hg : .roiEnd g ∈ t) :
    .roiBegin g ∈ t := by
  obtain ⟨u, v, rfl⟩ := List.append_of_mem hg
  have hlt := h u g v rfl
  exact List.mem_append_left _ (List.count_pos_iff.mp (by omega))

/-- Blocks in which every marker has its call in front make the calls follow the markers on every path. -/
theorem eventsFollowMarkers_of_code {f : MarkedFunction β} (hwell : WellNested f) {id : Nat → Nat}
    {code : β → List CodeItem}
    (hcode : ∀ x, f.graph.Reachable x → (code x).filter CodeItem.notIncrement = (f.instrs x).flatMap (withCall id))
    (hinj : ∀ g g' x x', f.graph.Reachable x → f.graph.Reachable x' → .roiBegin g ∈ f.instrs x →
      .roiBegin g' ∈ f.instrs x' → id g' = id g → g' = g) :
    EventsFollowMarkers f id code := by
  have hpath : ∀ {w x}, f.graph.Walk f.graph.entry w x →
      (w.flatMap code).filter CodeItem.notIncrement = (f.trace w).flatMap (withCall id) := by
    intro w x hw
    rw [List.filter_flatMap, MarkedFunction.trace, List.flatMap_assoc]
    exact List.flatMap_congr fun y hy => hcode y (hw.reachable_of_mem hy)
  -- the groups on a path have ids of their own
  have hid : ∀ {w x}, f.graph.Walk f.graph.entry w x → ∀ {t1 t2}, f.trace w = t1 ++ t2 → ∀ {g}, .roiBegin g ∈ t1 →
      ∀ g', .roiBegin g' ∈ t1 ∨ .roiEnd g' ∈ t1 → id g' = id g → g' = g := by
    intro w x hw t1 t2 heq g hg g' hg'
    have hopen : NoUnopened t1 := by
      have h := hwell.noUnopened hw
      rw [heq] at h
      exact h.left
    have hbegin : .roiBegin g' ∈ t1 := hg'.elim (fun h => h) hopen.begin_mem
    have hblock : ∀ {k}, .roiBegin k ∈ t1 → ∃ y, f.graph.Reachable y ∧ .roiBegin k ∈ f.instrs y := by
      intro k hk
      have hmem : .roiBegin k ∈ f.trace w := heq ▸ List.mem_append_left _ hk
      obtain ⟨y, hy, hky⟩ := List.mem_flatMap.mp hmem
      exact ⟨y, hw.reachable_of_mem hy, hky⟩
    obtain ⟨y, hy, hgy⟩ := hblock hg
    obtain ⟨y', hy', hgy'⟩ := hblock hbegin
    exact hinj g g' y y' hy hy' hgy hgy'
  have hcount : ∀ {u : List CodeItem} {t : List Instr}, u.filter CodeItem.notIncrement = t.flatMap (withCall id) →
      ∀ r, u.count (.startTimingEvent r) = (t.flatMap (withCall id)).count (.startTimingEvent r) ∧
        u.count (.endTimingEvent r) = (t.flatMap (withCall id)).count (.endTimingEvent r) := by
    intro u t h r
    rw [← h, List.count_filter (by rfl), List.count_filter (by rfl)]
    exact ⟨rfl, rfl⟩
  refine ⟨fun {w x} hw => ?_, fun {w x} hw u r v heq => ?_, fun {w x} hw u v heq g hg => ?_, fun {w} hw r => ?_⟩
  · rw [← filterMap_event_filter, hpath hw, filterMap_event_withCall]
  · have hcut := hpath hw
    rw [heq, List.filter_append, List.filter_cons_of_pos (by rfl)] at hcut
    obtain ⟨t1, g, t2, ht, rfl, hu⟩ := exists_end_of_withCall hcut.symm
    have hlt := hwell.noUnopened hw t1 g t2 ht
    have hg : .roiBegin g ∈ t1 := List.count_pos_iff.mp (by omega)
    obtain ⟨hstart, hend⟩ := count_withCall (hid hw ht hg)
    rw [(hcount hu (id g)).1, (hcount hu (id g)).2, hstart, hend]
    exact hlt
  · have hcut := hpath hw
    rw [heq, List.filter_append, List.filter_cons_of_pos (by rfl)] at hcut
    obtain ⟨t1, t2, ht, hu⟩ := exists_other_of_withCall hcut.symm
    have hinstrs : u.filterMap CodeItem.instr? = t1 := by
      have hdrop : (u.filter CodeItem.notIncrement).filterMap CodeItem.instr? = u.filterMap CodeItem.instr? := by
        rw [List.filterMap_filter]
        refine List.filterMap_congr fun i _ => ?_
        cases i <;> rfl
      rw [← hdrop, hu, filterMap_instr_withCall]
    rw [hinstrs, openDepth] at hg
    have hbegin : .roiBegin g ∈ t1 := List.count_pos_iff.mp (by omega)
    obtain ⟨hstart, hend⟩ := count_withCall (hid hw ht hbegin)
    rw [(hcount hu (id g)).1, (hcount hu (id g)).2, hstart, hend]
    omega
  · obtain ⟨z, hz, hwalk⟩ := hw
    have ht : f.trace w = f.trace w ++ [] := (List.append_nil _).symm
    rw [(hcount (hpath hwalk) r).1, (hcount (hpath hwalk) r).2]
    by_cases hr : ∃ g, .roiBegin g ∈ f.trace w ∧ id g = r
    · obtain ⟨g, hg, rfl⟩ := hr
      obtain ⟨hstart, hend⟩ := count_withCall (hid hwalk ht hg)
      have hclosed := hwell.closed ⟨z, hz, hwalk⟩ g
      have hle := (hwell.noUnopened hwalk).count_le g
      unfold openDepth at hclosed
      rw [hstart, hend]
      omega
    · have hnone : ∀ g, .roiBegin g ∈ f.trace w ∨ .roiEnd g ∈ f.trace w → id g ≠ r := by
        intro g hg heq
        exact hr ⟨g, hg.elim (fun h => h) (hwell.noUnopened hwalk).begin_mem, heq⟩
      obtain ⟨hstart, hend⟩ := count_withCall_eq_zero hnone
      rw [hstart, hend]

/-- When the calls follow the markers on every path, they do so in every reachable block. -/
theorem EventsFollowMarkers.block {f : MarkedFunction β} {id : Nat → Nat} {code : β → List CodeItem}
    (h : EventsFollowMarkers f id code) {x : β} (hx : f.graph.Reachable x) :
    (code x).filterMap CodeItem.event = (f.instrs x).filterMap (Instr.event id) := by
  obtain ⟨w, hw⟩ := hx
  obtain ⟨u, rfl⟩ := hw.exists_concat
  have hall := h.events hw
  rw [List.flatMap_append, List.filterMap_append, MarkedFunction.trace_append, List.filterMap_append] at hall
  rcases List.eq_nil_or_concat u with rfl | ⟨u', y, rfl⟩
  · simpa using hall
  · -- the path to the block before executes as many calls as markers
    rw [List.concat_eq_append] at hw hall
    obtain ⟨e, he, -, -⟩ := hw.split_step (by simp)
    rw [h.events he] at hall
    simpa using List.append_cancel_left hall

/-- The calls of the instrumented function follow the markers on every path if and only if every group has its begin
marker in one reachable block. -/
theorem eventsFollowMarkers_iff [DecidableEq β] (f : MarkedFunction β) (hwell : WellNested f) (opts : PassOptions)
    (fn : Nat → FunctionAnalysis (β × Nat)) (horder : ∀ i, OrdersBlocks f.splitInstrumentedBlocks.graph (fn i))
    (base : Nat) (blocks : List (β × Nat)) (hentry : f.splitInstrumentedBlocks.graph.entry ∈ blocks)
    (hblocks : ∀ x ∈ blocks, ∀ y ∈ f.splitInstrumentedBlocks.graph.succs x, y ∈ blocks) :
    ∃ s, instrumentFunction opts fn f.splitInstrumentedBlocks base blocks.length = some s ∧
      (EventsFollowMarkers f.splitInstrumentedBlocks (regionID base (groups s.groupList)) s.code ↔
        UniqueBegins f.splitInstrumentedBlocks) := by
  obtain ⟨s, hs, hrec⟩ := recordPragmaRegions_recorded hwell.split base hentry hblocks
  obtain ⟨code, hcode, hfilter⟩ := filter_instrumentRegions opts fn base s.groupList.zipIdx s.code
  refine ⟨{ s with code := code }, ?_, ?_⟩
  · simp only [instrumentFunction, hs, instrumentRegions, hcode, Option.bind_eq_bind, Option.bind_some,
      Option.pure_def]
  constructor
  · -- a begin marker has its entry call in the begin block of its region
    intro hfollow g x y hx hy hgx hgy
    have hbegin : ∀ z, f.splitInstrumentedBlocks.graph.Reachable z →
      .roiBegin g ∈ f.splitInstrumentedBlocks.instrs z →
        regionBeginBlock (fn ((groups s.groupList).idxOf g)) (blocksOf g s.groupList) = some z := by
      intro z hz hgz
      have hevents := hfollow.block hz
      have hmem : Bracket.enter (regionID base (groups s.groupList) g) ∈ (code z).filterMap CodeItem.event := by
        rw [hevents]
        exact List.mem_filterMap.mpr ⟨_, hgz, rfl⟩
      rw [← filterMap_event_filter, hfilter z, hrec.code z hz, filter_flatMap_withEnd, List.filterMap_append,
        List.mem_append] at hmem
      rcases hmem with hmem | hmem
      · obtain ⟨item, hitem, hevent⟩ := List.mem_filterMap.mp hmem
        rw [startsAt, List.mem_reverse] at hitem
        obtain ⟨e, he, rfl⟩ := List.mem_map.mp hitem
        obtain ⟨hezip, hez⟩ := List.mem_filter.mp he
        obtain ⟨heg, heblocks, heidx⟩ := mem_zipIdx hrec.nodup hezip
        simp only [CodeItem.event, Option.some.injEq, Bracket.enter.injEq, regionID] at hevent
        have hidx : (groups s.groupList).idxOf e.1.1 = (groups s.groupList).idxOf g := by omega
        have hg : e.1.1 = g := (List.idxOf_inj heg).mp hidx
        rw [← hidx, ← hg, heblocks, heidx]
        simpa using hez
      · obtain ⟨item, hitem, hevent⟩ := List.mem_filterMap.mp hmem
        obtain ⟨i, -, hi⟩ := List.mem_flatMap.mp hitem
        cases i <;> simp only [withEnd, List.mem_cons, List.not_mem_nil, or_false] at hi
        · simp [hi, CodeItem.event] at hevent
        · rcases hi with rfl | rfl <;> simp [CodeItem.event] at hevent
        · simp [hi, CodeItem.event] at hevent
    have hxy := (hbegin x hx hgx).symm.trans (hbegin y hy hgy)
    exact Option.some.inj hxy
  · intro hunique
    refine eventsFollowMarkers_of_code hwell.split (fun x hx => ?_) fun g g' x x' hx hx' hg hg' heq => ?_
    · rw [hfilter x]
      exact filter_code_eq horder hrec hunique hx (isPiece_split f x)
    · have hmem : g' ∈ groups s.groupList := (hrec.mem_groups g').mpr ⟨x', hx', hg'⟩
      have hids : base + (groups s.groupList).idxOf g' = base + (groups s.groupList).idxOf g := heq
      exact (List.idxOf_inj hmem).mp (by omega)

/-! ### One pair and two -/

/-- A function of one block. -/
def oneBlock (instrs : List Instr) : MarkedFunction (Fin 1) where
  graph := { entry := 0, succs := fun _ => [] }
  instrs := fun _ => instrs

/-- A block of `n` pieces with a marker pair in each but the last. -/
def pieceAnalysis (n : Nat) : FunctionAnalysis (Fin 1 × Nat) where
  orderedCFG := (List.range n).map fun i => (0, i)
  size := fun _ => 3
  detectPragma := fun x => decide (x.2 + 1 < n)
  trees := { postDominates := fun a x => decide (x.2 ≤ a.2), dominates := fun a x => decide (a.2 ≤ x.2) }
  loopInfo := .nil
  backedgeTakenCount := fun _ => .couldNotCompute
  beforeSplit := fun _ => .couldNotCompute
  afterSplit := fun _ => .couldNotCompute

private theorem oneBlock_walk {instrs : List Instr} {i : Nat} (hi : i < (splitInstrs instrs).length) :
    (oneBlock instrs).splitInstrumentedBlocks.graph.Walk (0, 0) ((List.range (i + 1)).map fun j => (0, j))
      (0, i) := by
  induction i with
  | zero => exact .single _
  | succ i ih =>
    have hedge : (0, i + 1) ∈ (oneBlock instrs).splitInstrumentedBlocks.graph.succs (0, i) := by
      show (0, i + 1) ∈ if i + 1 < (splitInstrs instrs).length then [(0, i + 1)] else _
      rw [if_pos hi]
      exact List.mem_cons_self
    rw [List.range_succ, List.map_append]
    exact (ih (by omega)).concat hedge (.single _)

private theorem oneBlock_reachable {instrs : List Instr} {x : Fin 1 × Nat}
    (hx : (oneBlock instrs).splitInstrumentedBlocks.graph.Reachable x) :
    x.1 = 0 ∧ x.2 < (splitInstrs instrs).length := by
  obtain ⟨w, hw⟩ := hx
  exact ⟨Subsingleton.elim _ _, (exists_walk_of_split hw).1⟩

private theorem oneBlock_closed {instrs : List Instr} {n : Nat} (hn : (splitInstrs instrs).length = n) :
    ∀ x ∈ (pieceAnalysis n).orderedCFG, ∀ y ∈ (oneBlock instrs).splitInstrumentedBlocks.graph.succs x,
      y ∈ (pieceAnalysis n).orderedCFG := by
  intro x hx y hy
  obtain ⟨i, hi, rfl⟩ := List.mem_map.mp hx
  have hy' : y ∈ if i + 1 < (splitInstrs instrs).length then [((0 : Fin 1), i + 1)] else [] := hy
  split at hy'
  · rename_i hlt
    rw [List.mem_singleton] at hy'
    exact List.mem_map.mpr ⟨i + 1, List.mem_range.mpr (hn ▸ hlt), hy'.symm⟩
  · simp at hy'

private theorem oneBlock_ordersBlocks {instrs : List Instr} {n : Nat} (hn : (splitInstrs instrs).length = n + 1) :
    OrdersBlocks (oneBlock instrs).splitInstrumentedBlocks.graph (pieceAnalysis (n + 1)) :=
  .of_walk (oneBlock_walk (by omega)) (oneBlock_closed hn) fun _ => Nat.succ_pos 2

private theorem oneBlock_wellNested {instrs : List Instr}
    (hstack : openAfter Instr.bracket [] instrs = some []) : WellNested (oneBlock instrs) :=
  (StackNested.of_stacks (f := oneBlock instrs) (fun _ => []) (fun _ => []) rfl (fun _ => hstack)
    (fun _ _ _ => rfl) fun _ _ => rfl).wellNested

/-- One pair of markers: the calls follow them. -/
theorem eventsFollowMarkers_onePair :
    ∃ s, instrumentFunction {} (fun _ => pieceAnalysis 2)
        (oneBlock [.roiBegin 7, .other, .roiEnd 7, .other]).splitInstrumentedBlocks 0 2 = some s ∧
      EventsFollowMarkers (oneBlock [.roiBegin 7, .other, .roiEnd 7, .other]).splitInstrumentedBlocks
        (regionID 0 (groups s.groupList)) s.code := by
  obtain ⟨s, hs, hiff⟩ := eventsFollowMarkers_iff (oneBlock [.roiBegin 7, .other, .roiEnd 7, .other])
    (oneBlock_wellNested (by decide)) {} (fun _ => pieceAnalysis 2)
    (fun _ => oneBlock_ordersBlocks (by decide)) 0 (pieceAnalysis 2).orderedCFG (by decide)
    (oneBlock_closed (by decide))
  refine ⟨s, hs, hiff.mpr ?_⟩
  -- only the first piece has a begin marker
  have hfirst : ∀ g x, (oneBlock [.roiBegin 7, .other, .roiEnd 7, .other]).splitInstrumentedBlocks.graph.Reachable x →
      .roiBegin g ∈ (oneBlock [.roiBegin 7, .other, .roiEnd 7, .other]).splitInstrumentedBlocks.instrs x →
      x = (0, 0) := by
    rintro g ⟨b, i⟩ hx hg
    obtain ⟨rfl, hlt⟩ := oneBlock_reachable hx
    have hlt2 : i < 2 := hlt
    have hi : i = 0 ∨ i = 1 := by omega
    rcases hi with rfl | rfl
    · rfl
    · have hmem : Instr.roiBegin g ∈ [Instr.other] := hg
      simp at hmem
  intro g x y hx hy hgx hgy
  rw [hfirst g x hx hgx, hfirst g y hy hgy]

/-- Two pairs of markers of group 7, one behind the other: region 0 is entered once and left twice. -/
theorem not_eventsFollowMarkers_twoPairs :
    WellNested (oneBlock [.roiBegin 7, .other, .roiEnd 7, .roiBegin 7, .other, .roiEnd 7, .other]) ∧
      OrdersBlocks (oneBlock [.roiBegin 7, .other, .roiEnd 7, .roiBegin 7, .other, .roiEnd 7,
        .other]).splitInstrumentedBlocks.graph (pieceAnalysis 3) ∧
      ∃ s, instrumentFunction {} (fun _ => pieceAnalysis 3)
          (oneBlock [.roiBegin 7, .other, .roiEnd 7, .roiBegin 7, .other, .roiEnd 7, .other]).splitInstrumentedBlocks
          0 3 = some s ∧
        groups s.groupList = [7] ∧
        ([((0 : Fin 1), 0), (0, 1), (0, 2)].flatMap s.code).filterMap CodeItem.event =
          [.enter 0, .exit 0, .exit 0] ∧
        ¬ EventsFollowMarkers (oneBlock [.roiBegin 7, .other, .roiEnd 7, .roiBegin 7, .other, .roiEnd 7,
          .other]).splitInstrumentedBlocks (regionID 0 (groups s.groupList)) s.code := by
  refine ⟨oneBlock_wellNested (by decide), oneBlock_ordersBlocks (by decide), ?_⟩
  have hrun : (instrumentFunction {} (fun _ => pieceAnalysis 3)
    (oneBlock [.roiBegin 7, .other, .roiEnd 7, .roiBegin 7,
      .other, .roiEnd 7, .other]).splitInstrumentedBlocks 0 3).map (fun s => (groups s.groupList,
        ([((0 : Fin 1), 0), (0, 1), (0, 2)].flatMap s.code).filterMap CodeItem.event)) =
      some ([7], [.enter 0, .exit 0, .exit 0]) := by decide
  obtain ⟨s, hs, heq⟩ := Option.map_eq_some_iff.mp hrun
  obtain ⟨hgroups, hevents⟩ := Prod.mk.inj heq
  refine ⟨s, hs, hgroups, hevents, fun hfollow => ?_⟩
  have hlength :
    2 < (splitInstrs [.roiBegin 7, .other, .roiEnd 7, .roiBegin 7, .other, .roiEnd 7, .other]).length := by
    decide
  have hwalk := oneBlock_walk hlength
  have hmarkers := hevents.symm.trans (hfollow.events hwalk)
  rw [hgroups] at hmarkers
  exact absurd hmarkers (by decide)

end ZRay.Pass
