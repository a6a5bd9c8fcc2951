import ZRay.Pass.ControlEquivalence
import ZRay.Pass.RegionCode

/-!
# Entry and exit calls under `-full-scan`

With `-full-scan` a function is one region whose block list is the ordered block list.  Its entry call goes to the
first block of the list, which is the entry; its one exit call goes in front of the terminator of the block with the
largest offset, which is the last one of the list.  The list is in topological order of the strongly connected
components, so no path to a return passes the last block unless it ends there: every return is balanced exactly when
every return that can be reached is the last block (`fullScanBalanced_iff`).
-/

namespace ZRay.Pass

open FlowGraph Nesting

variable {β : Type*}

/-- There is a path from `x` to `y`. -/
def Reaches (g : FlowGraph β) (x y : β) : Prop := ∃ w, g.Walk x w y

/-- What is known of a function's flow graph: nothing jumps to the entry block, and a return has no successors.  The
other blocks without successors end in `unreachable` or `resume`. -/
structure ReturnsOf (g : FlowGraph β) (isReturn : β → Prop) : Prop where
  entry_first : ∀ x, g.entry ∉ g.succs x
  return_last : ∀ x, isReturn x → g.succs x = []

section

variable {g : FlowGraph β}

/-- No walk comes back to the entry. -/
theorem Walk.entry_notMem {a c : β} {v : List β} (hentry : ∀ x, g.entry ∉ g.succs x) (hw : g.Walk a (a :: v) c) :
    g.entry ∉ v := by
  generalize hl : a :: v = w at hw
  induction hw generalizing v with
  | single a =>
    obtain ⟨-, rfl⟩ := List.cons.inj hl
    simp
  | @cons a b c w he hw ih =>
    obtain ⟨-, rfl⟩ := List.cons.inj hl
    obtain ⟨v', rfl⟩ := hw.exists_cons
    intro hmem
    rcases List.mem_cons.mp hmem with rfl | hmem
    · exact hentry a he
    · exact ih rfl hmem

/-- A walk does not leave a block without successors. -/
theorem Walk.notMem_before {a c : β} {u : List β} (hsuccs : g.succs c = []) (hw : g.Walk a (u ++ [c]) c) :
    c ∉ u := by
  intro hmem
  obtain ⟨p, q, rfl⟩ := List.append_of_mem hmem
  rw [List.append_assoc, List.cons_append] at hw
  have htail := hw.split.2
  obtain ⟨d, rest, hq⟩ := List.exists_cons_of_ne_nil (show q ++ [c] ≠ [] by simp)
  rw [hq] at htail
  have hstep := htail.step.1
  rw [hsuccs] at hstep
  simp at hstep

theorem Reaches.of_mem {a c x : β} {w : List β} (hw : g.Walk a w c) (hx : x ∈ w) : Reaches g x c := by
  obtain ⟨u, v, -, -, -, hv⟩ := hw.exists_first hx
  exact ⟨_, hv⟩

/-- From a block without successors only itself is reached. -/
theorem Reaches.eq_of_succs_nil {x y : β} (hsuccs : g.succs x = []) (h : Reaches g x y) : x = y := by
  obtain ⟨w, hw⟩ := h
  cases hw with
  | single => rfl
  | cons he _ => simp [hsuccs] at he

end

variable [DecidableEq β]

/-- What `orderBasicBlocks` lists, in terms of what is documented of `scc_iterator`: each reachable block once, in
topological order of the strongly connected components.  A block has at least its terminator. -/
structure TopologicalOrder (g : FlowGraph β) (fn : FunctionAnalysis β) : Prop where
  nodup : fn.orderedCFG.Nodup
  mem_iff : ∀ x, x ∈ fn.orderedCFG ↔ g.Reachable x
  reaches_first : ∀ x y, x ∈ fn.orderedCFG → Reaches g x y → ¬ Reaches g y x →
    fn.orderedCFG.idxOf x < fn.orderedCFG.idxOf y
  size_pos : ∀ x, 0 < fn.size x

/-! ### The end block -/

/-- One block of the region seen by the bounds loop: the offset `e` and the block `endBlock`. -/
def visitEnd (size : β → Nat) (orderedCFG : List β) (r : Nat × Option β) (bb : β) : Nat × Option β :=
  let tmp := getBBOffset size orderedCFG bb
  if tmp > r.1 then (tmp, some bb) else r

/-- The block `endBlock` that gets the exit call; `beginBlock` where the loop leaves it null. -/
def regionEndBlock (fn : FunctionAnalysis β) (bbList : List β) : Option β :=
  match bbList with
  | [] => none
  | first :: _ =>
    let r := bbList.foldl (visitEnd fn.size fn.orderedCFG) (getBBOffset fn.size fn.orderedCFG first, none)
    r.2.or (regionBeginBlock fn bbList)

omit [DecidableEq β] in
/-- `insertEndTimerEvent` in front of the terminator of a block. -/
def insertBeforeTerminator (item : CodeItem) (code : List CodeItem) : List CodeItem :=
  code.dropLast ++ item :: code.getLast?.toList

/-- `insertEndTimerEvent` at the end block of the region. -/
def insertEndTimerEvent (fn : FunctionAnalysis β) (region : Nat) (bbList : List β) (code : β → List CodeItem) :
    β → List CodeItem :=
  match regionEndBlock fn bbList with
  | some endBlock => Function.update code endBlock (insertBeforeTerminator (.endTimingEvent region) (code endBlock))
  | none => code

/-- `InstrumentPragmaRegion` with `-full-scan`, where the block list of the region is the ordered block list. -/
def instrumentFullScan (opts : PassOptions) (fn : FunctionAnalysis β) (region : Nat) (code : β → List CodeItem) :
    Option (β → List CodeItem) :=
  (instrumentRegion opts fn region fn.orderedCFG code).map (insertEndTimerEvent fn region fn.orderedCFG)

/-- On every path from the entry to a return the entry call and the exit call of the region are executed once each,
in this order. -/
def FullScanBalanced (g : FlowGraph β) (isReturn : β → Prop) (region : Nat) (code : β → List CodeItem) : Prop :=
  ∀ x w, isReturn x → g.Walk g.entry w x →
    (w.flatMap code).filterMap CodeItem.event = [.enter region, .exit region]

/-- The end of the bounds loop: the start value with no block, or the first block with a larger offset than those
before. -/
theorem foldl_visitEnd (size : β → Nat) (orderedCFG npd : List β) (r : Nat × Option β) :
    let r' := npd.foldl (visitEnd size orderedCFG) r
    (∀ y ∈ npd, getBBOffset size orderedCFG y ≤ r'.1) ∧ r.1 ≤ r'.1 ∧
      (r' = r ∨ ∃ z ∈ npd, r' = (getBBOffset size orderedCFG z, some z) ∧ r.1 < r'.1) := by
  induction npd generalizing r with
  | nil => simp
  | cons a npd ih =>
    obtain ⟨hall, hle, hend⟩ := ih (visitEnd size orderedCFG r a)
    rw [List.foldl_cons]
    generalize npd.foldl (visitEnd size orderedCFG) (visitEnd size orderedCFG r a) = r' at *
    by_cases ha : getBBOffset size orderedCFG a > r.1
    · have hvisit : visitEnd size orderedCFG r a = (getBBOffset size orderedCFG a, some a) := if_pos ha
      rw [hvisit] at hle hend
      dsimp only at hle hend
      refine ⟨fun y hy => ?_, by omega, .inr ?_⟩
      · rcases List.mem_cons.mp hy with rfl | hy
        · exact hle
        · exact hall y hy
      · rcases hend with rfl | ⟨z, hz, rfl, hlt⟩
        · exact ⟨a, List.mem_cons_self, rfl, ha⟩
        · exact ⟨z, List.mem_cons_of_mem a hz, rfl, by omega⟩
    · have hvisit : visitEnd size orderedCFG r a = r := if_neg ha
      rw [hvisit] at hle hend
      refine ⟨fun y hy => ?_, hle, ?_⟩
      · rcases List.mem_cons.mp hy with rfl | hy
        · omega
        · exact hall y hy
      · rcases hend with h | ⟨z, hz, hr', hlt⟩
        · exact .inl h
        · exact .inr ⟨z, List.mem_cons_of_mem a hz, hr', hlt⟩

/-- The end block has the largest offset, or is the begin block where no offset exceeds that of the first block. -/
theorem regionEndBlock_spec {fn : FunctionAnalysis β} {bbList : List β} {b : β}
    (hbegin : regionBeginBlock fn bbList = some b) :
    (∃ first rest, bbList = first :: rest ∧ regionEndBlock fn bbList = some b ∧ ∀ y ∈ bbList,
      getBBOffset fn.size fn.orderedCFG y ≤ getBBOffset fn.size fn.orderedCFG first) ∨
      ∃ z ∈ bbList, regionEndBlock fn bbList = some z ∧ ∀ y ∈ bbList,
        getBBOffset fn.size fn.orderedCFG y ≤ getBBOffset fn.size fn.orderedCFG z := by
  cases bbList with
  | nil => simp [regionBeginBlock, regionBounds] at hbegin
  | cons first rest =>
    obtain ⟨hall, -, hend⟩ := foldl_visitEnd fn.size fn.orderedCFG (first :: rest)
      (getBBOffset fn.size fn.orderedCFG first, none)
    unfold regionEndBlock
    rw [hbegin]
    dsimp only
    generalize (first :: rest).foldl (visitEnd fn.size fn.orderedCFG)
      (getBBOffset fn.size fn.orderedCFG first, none) = r
      at hall hend ⊢
    rcases hend with rfl | ⟨z, hz, rfl, -⟩
    · exact .inl ⟨first, rest, rfl, rfl, hall⟩
    · exact .inr ⟨z, hz, rfl, hall⟩

section

variable {g : FlowGraph β} {fn : FunctionAnalysis β} {isReturn : β → Prop}

theorem TopologicalOrder.entry_mem (h : TopologicalOrder g fn) : g.entry ∈ fn.orderedCFG :=
  (h.mem_iff g.entry).mpr ⟨_, .single g.entry⟩

/-- The entry is listed first. -/
theorem TopologicalOrder.idxOf_entry_le (h : TopologicalOrder g fn) (hentry : ∀ x, g.entry ∉ g.succs x) {x : β}
    (hx : x ∈ fn.orderedCFG) : fn.orderedCFG.idxOf g.entry ≤ fn.orderedCFG.idxOf x := by
  by_cases hne : x = g.entry
  · rw [hne]
  · refine le_of_lt (h.reaches_first _ _ h.entry_mem ((h.mem_iff x).mp hx) ?_)
    rintro ⟨w, hw⟩
    obtain ⟨v, rfl⟩ := hw.exists_cons
    have hnot := Walk.entry_notMem hentry hw
    rcases List.mem_cons.mp hw.target_mem with heq | hmem
    · exact hne heq.symm
    · exact hnot hmem

/-- The entry call goes to the entry block. -/
theorem TopologicalOrder.regionBeginBlock_eq (h : TopologicalOrder g fn) (hentry : ∀ x, g.entry ∉ g.succs x) :
    regionBeginBlock fn fn.orderedCFG = some g.entry := by
  obtain ⟨x, hx, hleast, hbegin, -⟩ := regionBounds_spec h.size_pos (List.ne_nil_of_mem h.entry_mem) fun y hy => hy
  have hidx := le_antisymm (hleast g.entry h.entry_mem) (h.idxOf_entry_le hentry hx)
  rw [regionBeginBlock, hbegin, (List.idxOf_inj hx).mp hidx]

/-- The exit call goes to the last block of the list. -/
theorem TopologicalOrder.regionEndBlock_eq (h : TopologicalOrder g fn) (hentry : ∀ x, g.entry ∉ g.succs x) :
    ∃ z, fn.orderedCFG.getLast? = some z ∧ regionEndBlock fn fn.orderedCFG = some z := by
  obtain ⟨u, z, hlist⟩ : ∃ u z, fn.orderedCFG = u ++ [z] :=
    ⟨_, _, (List.dropLast_append_getLast (List.ne_nil_of_mem h.entry_mem)).symm⟩
  have hz : z ∈ fn.orderedCFG := by simp [hlist]
  have hzidx : fn.orderedCFG.idxOf z = u.length := by
    have hnodup := h.nodup
    rw [hlist] at hnodup ⊢
    have hnot : z ∉ u := fun hmem => by
      simpa using (List.nodup_append'.mp hnodup).2.2 hmem
    rw [List.idxOf_append_of_notMem hnot, List.idxOf_cons_self, Nat.add_zero]
  have hlen : fn.orderedCFG.length = u.length + 1 := by rw [hlist, List.length_append, List.length_singleton]
  -- a larger offset is a later place, so the block with the largest one is `z`
  have hmax : ∀ y ∈ fn.orderedCFG, (∀ x ∈ fn.orderedCFG,
      getBBOffset fn.size fn.orderedCFG x ≤ getBBOffset fn.size fn.orderedCFG y) → y = z := by
    intro y hy hall
    have hlt := List.idxOf_lt_length_of_mem hy
    have hle := hall z hz
    rw [getBBOffset, getBBOffset, sum_take_le_iff h.size_pos (by omega), hzidx] at hle
    refine (List.idxOf_inj hy).mp ?_
    omega
  refine ⟨z, by simp [hlist], ?_⟩
  rcases regionEndBlock_spec (h.regionBeginBlock_eq hentry) with ⟨first, rest, hcons, hend, hall⟩ |
    ⟨y, hy, hend, hall⟩
  · -- the list has one block
    have hfirst : first ∈ fn.orderedCFG := hcons ▸ List.mem_cons_self
    have hzero : fn.orderedCFG.idxOf first = 0 := by rw [hcons, List.idxOf_cons_self]
    have hle := h.idxOf_entry_le hentry hfirst
    rw [hend, (List.idxOf_inj h.entry_mem).mp (show fn.orderedCFG.idxOf g.entry = fn.orderedCFG.idxOf first by omega),
      hmax first hfirst hall]
  · rw [hend, hmax y hy hall]

/-- A path to a return passes the last block of the list only where it ends there. -/
theorem TopologicalOrder.notMem_of_walk (h : TopologicalOrder g fn) {x z : β} {w : List β}
    (hz : fn.orderedCFG.getLast? = some z) (hx : g.succs x = []) (hw : g.Walk g.entry w x) (hne : x ≠ z) : z ∉ w := by
  intro hmem
  have hzr : Reaches g z x := .of_mem hw hmem
  have hzlist : z ∈ fn.orderedCFG := List.mem_of_getLast? hz
  have hxlist : x ∈ fn.orderedCFG := (h.mem_iff x).mpr ⟨w, hw⟩
  have hlt := h.reaches_first z x hzlist hzr fun hxz => hne (hxz.eq_of_succs_nil hx)
  have hxidx := List.idxOf_lt_length_of_mem hxlist
  obtain ⟨u, hu⟩ := List.getLast?_eq_some_iff.mp hz
  have hnodup := h.nodup
  rw [hu] at hlt hxidx hnodup
  have hnot : z ∉ u := fun hmem => by
    simpa using (List.nodup_append'.mp hnodup).2.2 hmem
  rw [List.idxOf_append_of_notMem hnot, List.idxOf_cons_self, Nat.add_zero] at hlt
  rw [List.length_append, List.length_singleton] at hxidx
  omega

/-! ### The calls a path executes -/

omit [DecidableEq β] in
theorem filterMap_event_insertBeforeTerminator (region : Nat) (c : List CodeItem) (i : Instr) :
    (insertBeforeTerminator (.endTimingEvent region) (c ++ [CodeItem.instr i])).filterMap CodeItem.event =
      (c ++ [CodeItem.instr i]).filterMap CodeItem.event ++ [.exit region] := by
  have hinstr : CodeItem.event (.instr i) = none := rfl
  have hexit : CodeItem.event (.endTimingEvent region) = some (.exit region) := rfl
  simp [insertBeforeTerminator, hinstr, hexit]

/-- What the instrumentation of a region puts into a block, in front of its code. -/
theorem exists_instrumentRegion (opts : PassOptions) (fn : FunctionAnalysis β) (region : Nat) (bbList : List β)
    (code : β → List CodeItem) :
    ∃ code', instrumentRegion opts fn region bbList code = some code' ∧ ∀ x, ∃ items, code' x = items ++ code x ∧
      items.filterMap CodeItem.event =
        if regionBeginBlock fn bbList = some x then [.enter region] else [] := by
  obtain ⟨counters, hcounters⟩ := exists_instrumentPragmaRegion opts fn bbList
  refine ⟨_, by rw [instrumentRegion, hcounters, Option.map_some], fun x => ?_⟩
  rw [insertStartTimerEvent_apply, insertPostDomSetEvents_apply, ← List.append_assoc]
  refine ⟨_, rfl, ?_⟩
  have hincrements : (incrementsAt region counters x).filterMap CodeItem.event = [] := by
    refine List.filterMap_eq_nil_iff.mpr fun item hitem => ?_
    rw [incrementsAt, List.mem_reverse] at hitem
    obtain ⟨c, -, rfl⟩ := List.mem_map.mp hitem
    rfl
  rw [List.filterMap_append, hincrements, List.append_nil]
  split <;> rfl

/-- The calls of a block: the entry call in the entry, the exit call in the last block of the list. -/
theorem TopologicalOrder.exists_instrumentFullScan (h : TopologicalOrder g fn) (hentry : ∀ x, g.entry ∉ g.succs x)
    (opts : PassOptions) (region : Nat) {instrs : β → List Instr} (hterm : ∀ x, instrs x ≠ []) :
    ∃ code z, instrumentFullScan opts fn region (fun x => (instrs x).map .instr) = some code ∧
      fn.orderedCFG.getLast? = some z ∧ ∀ x, (code x).filterMap CodeItem.event =
        (if x = g.entry then [.enter region] else []) ++ if x = z then [.exit region] else [] := by
  obtain ⟨code, hcode, hitems⟩ := exists_instrumentRegion opts fn region fn.orderedCFG fun x => (instrs x).map .instr
  obtain ⟨z, hz, hend⟩ := h.regionEndBlock_eq hentry
  refine ⟨insertEndTimerEvent fn region fn.orderedCFG code, z, by rw [instrumentFullScan, hcode, Option.map_some], hz,
    fun x => ?_⟩
  obtain ⟨items, hx, hevents⟩ := hitems x
  rw [h.regionBeginBlock_eq hentry] at hevents
  have hnone : ((instrs x).map CodeItem.instr).filterMap CodeItem.event = [] := by
    rw [List.filterMap_map]
    exact List.filterMap_eq_nil_iff.mpr fun i _ => rfl
  have hplain : (code x).filterMap CodeItem.event = if x = g.entry then [.enter region] else [] := by
    rw [hx, List.filterMap_append, hnone, List.append_nil, hevents]
    simp [eq_comm]
  have hcodez : insertEndTimerEvent fn region fn.orderedCFG code =
      Function.update code z (insertBeforeTerminator (.endTimingEvent region) (code z)) := by
    rw [insertEndTimerEvent, hend]
  rw [hcodez]
  by_cases hxz : x = z
  · subst hxz
    -- the code ends with the terminator
    obtain ⟨body, i, hbody⟩ : ∃ body i, instrs x = body ++ [i] :=
      ⟨_, _, (List.dropLast_append_getLast (hterm x)).symm⟩
    have hlast : code x = (items ++ body.map .instr) ++ [.instr i] := by
      rw [hx, hbody, List.map_append, List.append_assoc]
      rfl
    rw [Function.update_self, if_pos rfl, hlast, filterMap_event_insertBeforeTerminator, ← hlast, hplain]
  · rw [Function.update_of_ne hxz, if_neg hxz, List.append_nil, hplain]

/-- A path to a return executes the entry call once, in front, and the exit call if it ends in the block with it. -/
theorem TopologicalOrder.filterMap_event_walk (h : TopologicalOrder g fn) (hret : ReturnsOf g isReturn) {region : Nat}
    {code : β → List CodeItem} {z : β} (hz : fn.orderedCFG.getLast? = some z)
    (hevents : ∀ x, (code x).filterMap CodeItem.event =
      (if x = g.entry then [.enter region] else []) ++ if x = z then [.exit region] else [])
    {x : β} {w : List β} (hx : isReturn x) (hw : g.Walk g.entry w x) :
    (w.flatMap code).filterMap CodeItem.event = .enter region :: if x = z then [.exit region] else [] := by
  have hsuccs := hret.return_last x hx
  -- behind the entry there are exit calls only
  have hexits : ∀ v : List β, g.entry ∉ v → v.flatMap (fun y => (code y).filterMap CodeItem.event) =
      v.flatMap fun y => if y = z then [.exit region] else [] := by
    intro v hv
    refine List.flatMap_congr fun y hy => ?_
    have hne : y ≠ g.entry := fun heq => hv (heq ▸ hy)
    rw [hevents, if_neg hne, List.nil_append]
  obtain ⟨v, rfl⟩ := hw.exists_cons
  have hv := Walk.entry_notMem hret.entry_first hw
  have hsplit : (g.entry :: v).flatMap (fun y => (code y).filterMap CodeItem.event) =
      .enter region :: (g.entry :: v).flatMap fun y => if y = z then [.exit region] else [] := by
    rw [List.flatMap_cons, List.flatMap_cons, hexits v hv, hevents, if_pos rfl]
    rfl
  rw [List.filterMap_flatMap, hsplit]
  congr 1
  by_cases hxz : x = z
  · subst hxz
    obtain ⟨u, hu⟩ := hw.exists_concat
    rw [hu] at hw ⊢
    have hnot := Walk.notMem_before hsuccs hw
    have hnone : u.flatMap (fun y => if y = x then [Bracket.exit region] else []) = [] := by
      refine List.flatMap_eq_nil_iff.mpr fun y hy => if_neg ?_
      rintro rfl
      exact hnot hy
    rw [List.flatMap_append, hnone, List.flatMap_singleton, List.nil_append]
  · have hnot := h.notMem_of_walk hz hsuccs hw hxz
    rw [if_neg hxz]
    refine List.flatMap_eq_nil_iff.mpr fun y hy => if_neg ?_
    rintro rfl
    exact hnot hy

/-- For every flow graph and every order of its blocks: the entry call and the exit call of the function's region are
executed once each on every path to a return, if and only if every return that can be reached is the last block of the
list. -/
theorem fullScanBalanced_iff (h : TopologicalOrder g fn) (hret : ReturnsOf g isReturn) (opts : PassOptions)
    (region : Nat) (instrs : β → List Instr) (hterm : ∀ x, instrs x ≠ []) :
    ∃ code, instrumentFullScan opts fn region (fun x => (instrs x).map .instr) = some code ∧
      (FullScanBalanced g isReturn region code ↔
        ∀ x, isReturn x → g.Reachable x → fn.orderedCFG.getLast? = some x) := by
  obtain ⟨code, z, hcode, hz, hevents⟩ := h.exists_instrumentFullScan hret.entry_first opts region hterm
  refine ⟨code, hcode, ?_, ?_⟩
  · rintro hbalanced x hx ⟨w, hw⟩
    have hpath := hbalanced x w hx hw
    rw [h.filterMap_event_walk hret hz hevents hx hw] at hpath
    by_cases hxz : x = z
    · rw [hz, hxz]
    · rw [if_neg hxz] at hpath
      simp at hpath
  · intro hlast x w hx hw
    have hxz : x = z := by
      have heq := hlast x hx ⟨w, hw⟩
      rw [hz, Option.some.injEq] at heq
      exact heq.symm
    rw [h.filterMap_event_walk hret hz hevents hx hw, if_pos hxz]

/-- In terms of the graph alone: a block without successors that every block reaches is the last
one, in every order. -/
theorem TopologicalOrder.getLast?_eq_of_reaches (h : TopologicalOrder g fn) {x : β} (hx : g.succs x = [])
    (hreach : ∀ y, g.Reachable y → Reaches g y x) : fn.orderedCFG.getLast? = some x := by
  obtain ⟨z, hz⟩ : ∃ z, fn.orderedCFG.getLast? = some z :=
    ⟨_, List.getLast?_eq_some_getLast (List.ne_nil_of_mem h.entry_mem)⟩
  obtain ⟨w, hw⟩ := (h.mem_iff z).mp (List.mem_of_getLast? hz)
  obtain ⟨v, hv⟩ := hreach z ⟨w, hw⟩
  by_contra hne
  have hxz : x ≠ z := fun heq => hne (heq ▸ hz)
  obtain ⟨v', rfl⟩ := hv.exists_cons
  exact h.notMem_of_walk hz hx (hw.append hv) hxz (List.mem_append_left v' hw.target_mem)

end

/-! ### Two functions -/

/-- A list of the reachable blocks along which every edge goes forward is such an order. -/
theorem TopologicalOrder.of_edges {g : FlowGraph β} {fn : FunctionAnalysis β} (hnodup : fn.orderedCFG.Nodup)
    (hentry : g.entry ∈ fn.orderedCFG) (hreach : ∀ x ∈ fn.orderedCFG, g.Reachable x)
    (hedges : ∀ x ∈ fn.orderedCFG, ∀ y ∈ g.succs x,
      y ∈ fn.orderedCFG ∧ fn.orderedCFG.idxOf x < fn.orderedCFG.idxOf y)
    (hsize : ∀ x, 0 < fn.size x) : TopologicalOrder g fn := by
  have hwalk : ∀ {x y w}, g.Walk x w y → x ∈ fn.orderedCFG →
      y ∈ fn.orderedCFG ∧ (x = y ∨ fn.orderedCFG.idxOf x < fn.orderedCFG.idxOf y) := by
    intro x y w hw
    induction hw with
    | single => exact fun hx => ⟨hx, .inl rfl⟩
    | cons he _ ih =>
      intro hx
      obtain ⟨hb, hlt⟩ := hedges _ hx _ he
      obtain ⟨hc, heq | hlt'⟩ := ih hb
      · exact ⟨hc, .inr (heq ▸ hlt)⟩
      · exact ⟨hc, .inr (hlt.trans hlt')⟩
  refine ⟨hnodup, fun x => ⟨hreach x, fun ⟨w, hw⟩ => (hwalk hw hentry).1⟩, fun x y hx ⟨w, hw⟩ hyx => ?_, hsize⟩
  rcases (hwalk hw hx).2 with rfl | hlt
  · exact absurd ⟨_, hw⟩ hyx
  · exact hlt

inductive BranchBlock where
  | branch
  | thenArm
  | elseArm
  deriving DecidableEq

instance : Fintype BranchBlock where
  elems := {.branch, .thenArm, .elseArm}
  complete := by
    intro x
    cases x <;> decide

/-- A branch with a return in each arm. -/
def twoReturns : FlowGraph BranchBlock where
  entry := .branch
  succs
    | .branch => [.thenArm, .elseArm]
    | .thenArm => []
    | .elseArm => []

/-- The function of a graph without loops: unit block sizes, and the ordered block list `orderedCFG`. -/
def listedFunction {β : Type*} [DecidableEq β] (g : FlowGraph β) (returns orderedCFG : List β) :
    FunctionAnalysis β where
  orderedCFG := orderedCFG
  size := fun _ => 1
  detectPragma := fun _ => false
  trees := computedTrees g returns orderedCFG.length
  loopInfo := .nil
  backedgeTakenCount := fun _ => .couldNotCompute
  beforeSplit := fun _ => .couldNotCompute
  afterSplit := fun _ => .couldNotCompute

/-- The branch, with the else arm listed first. -/
def twoReturnsFunction : FunctionAnalysis BranchBlock :=
  listedFunction twoReturns [.thenArm, .elseArm] [.branch, .elseArm, .thenArm]

private theorem topologicalOrder_twoReturns : TopologicalOrder twoReturns twoReturnsFunction := by
  refine .of_edges (by decide) (by decide) (fun x _ => ?_) (by decide) fun _ => Nat.one_pos
  cases x with
  | branch => exact ⟨_, .single _⟩
  | thenArm => exact ⟨_, .cons (show .thenArm ∈ twoReturns.succs .branch by decide) (.single _)⟩
  | elseArm => exact ⟨_, .cons (show .elseArm ∈ twoReturns.succs .branch by decide) (.single _)⟩

/-- The path to the return in the arm that is not listed last leaves the region open. -/
theorem not_fullScanBalanced_twoReturns :
    TopologicalOrder twoReturns twoReturnsFunction ∧
      ReturnsOf twoReturns (fun x => twoReturns.succs x = []) ∧
      ∃ code, instrumentFullScan {} twoReturnsFunction 7 (fun _ => [.instr .other]) = some code ∧
        ([.branch, .elseArm].flatMap code).filterMap CodeItem.event = [.enter 7] ∧
        ([.branch, .thenArm].flatMap code).filterMap CodeItem.event = [.enter 7, .exit 7] ∧
        ¬ FullScanBalanced twoReturns (fun x => twoReturns.succs x = []) 7 code := by
  refine ⟨topologicalOrder_twoReturns, ⟨by decide, fun x hx => hx⟩, _, rfl, by decide, by decide, fun hbalanced => ?_⟩
  have hwalk : twoReturns.Walk twoReturns.entry [.branch, .elseArm] .elseArm :=
    .cons (show .elseArm ∈ twoReturns.succs .branch by decide) (.single _)
  exact absurd (hbalanced .elseArm [.branch, .elseArm] rfl hwalk) (by decide)

/-- The arms of the branch of `diamond` meet in the only return. -/
theorem fullScanBalanced_diamond :
    ∃ code, instrumentFullScan {} (listedFunction diamond [3] [0, 2, 1, 3]) 7 (fun _ => [Instr.other].map .instr) =
        some code ∧
      FullScanBalanced diamond (fun x => diamond.succs x = []) 7 code := by
  have horder : TopologicalOrder diamond (listedFunction diamond [3] [0, 2, 1, 3]) := by
    refine .of_edges (by decide) (by decide) (fun x _ => ?_) (by decide) fun _ => Nat.one_pos
    fin_cases x
    · exact ⟨_, .single 0⟩
    · exact ⟨_, .cons (by decide) (.single 1)⟩
    · exact ⟨_, .cons (by decide) (.single 2)⟩
    · exact ⟨_, .cons (by decide) (.cons (show (3 : Fin 4) ∈ diamond.succs 1 by decide) (.single 3))⟩
  have hret : ReturnsOf diamond fun x => diamond.succs x = [] := ⟨by decide, fun x hx => hx⟩
  obtain ⟨code, hcode, hiff⟩ := fullScanBalanced_iff horder hret {} 7 (fun _ => [.other]) (by decide)
  have hlast : ∀ x, diamond.succs x = [] →
      (listedFunction diamond [3] [0, 2, 1, 3]).orderedCFG.getLast? = some x := by decide
  exact ⟨code, hcode, hiff.mpr fun x hx _ => hlast x hx⟩

end ZRay.Pass
