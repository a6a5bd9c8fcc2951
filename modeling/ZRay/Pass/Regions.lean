import Mathlib.Data.List.Nodup
import Mathlib.Logic.Function.Basic
import ZRay.DepthFirst
import ZRay.Pass.BlockLists
import ZRay.Pass.Markers

/-!
# Finding the regions of a function

`recordPragmaRegions` walks the blocks depth first.  It hands the stack of open begin markers from a block to its
successors, enters every block in the lists of the groups open in it, and puts the exit call of a region in front of
the end markers of its group.  On properly nested markers the outcome does not depend on the order of the walk: a
block is in the list of a group if and only if the group is open in it (`Recorded`), and every end marker gets its
call (`recordPragmaRegions_recorded`).
-/

namespace ZRay.Pass

open FlowGraph BlockLists

variable {β : Type*}

/-! ### The walk -/

/-- What the pass writes into a block: the instructions it found, and the calls it inserts. -/
inductive CodeItem where
  | instr (i : Instr)
  | startTimingEvent (region : Nat)
  | endTimingEvent (region : Nat)
  | incrementCounterArray (region postDomSetID : Nat)
  deriving DecidableEq, Repr

/-- `BasicBlocksVisited`, `BasicBlockGroupList`, and the code of the blocks. -/
structure RecordState (β : Type*) where
  visited : List β
  groupList : BlockLists β
  code : β → List CodeItem

/-- A begin marker, with the stack and `BasicBlockGroupList`.  A group seen for the first time gets its lists. -/
def recordBegin (bb : β) (s : BlockLists β × BlockLists β) (i : Instr) : BlockLists β × BlockLists β :=
  match i with
  | .roiBegin g =>
    if g ∈ groups s.2 then (push g bb s.1, s.2) else (s.1 ++ [(g, [bb])], s.2 ++ [(g, [])])
  | _ => s

/-- The block joins the lists of all open groups. -/
def addToOpenGroups (bb : β) (idStack groupList : BlockLists β) : BlockLists β :=
  idStack.foldl (fun groupList e => if e.2.isEmpty then groupList else push e.1 bb groupList) groupList

/-- The region id of a group: regions are numbered in the order their groups were first seen, from `base` on, the
number of regions of the functions before. -/
def regionID (base : Nat) (groups : List Nat) (g : Nat) : Nat := base + groups.idxOf g

/-- The end markers: the exit call of the region goes in front of the marker, and the marker closes the begin marker
on top.  An end marker of a group that is not open is ignored. -/
def recordEnds (base : Nat) (groupList : BlockLists β) : List Instr → BlockLists β → List CodeItem × BlockLists β
  | [], idStack => ([], idStack)
  | i :: rest, idStack =>
    match i with
    | .roiEnd g =>
      if (blocksOf g idStack).isEmpty then
        let (code, idStack) := recordEnds base groupList rest idStack
        (.instr i :: code, idStack)
      else
        let (code, idStack) := recordEnds base groupList rest (pop g idStack)
        (.endTimingEvent (regionID base (groups groupList) g) :: .instr i :: code, idStack)
    | _ =>
      let (code, idStack) := recordEnds base groupList rest idStack
      (.instr i :: code, idStack)

section

variable [DecidableEq β]

/-- One block: the stack it hands to its successors, and the state. -/
def recordBlock (f : MarkedFunction β) (base : Nat) (bb : β) (idStack : BlockLists β) (s : RecordState β) :
    BlockLists β × RecordState β :=
  let (idStack, groupList) := (f.instrs bb).foldl (recordBegin bb) (idStack, s.groupList)
  let groupList := addToOpenGroups bb idStack groupList
  let (code, idStack) := recordEnds base groupList (f.instrs bb) idStack
  (idStack, ⟨bb :: s.visited, groupList, Function.update s.code bb code⟩)

/-- `recordPragmaRegions`, for at most `fuel` nested calls. -/
def recordPragmaRegions (f : MarkedFunction β) (base : Nat) :
    Nat → β → BlockLists β → RecordState β → Option (RecordState β)
  | 0, _, _, _ => none
  | fuel + 1, bb, idStack, s =>
    let (idStack, s) := recordBlock f base bb idStack s
    (f.graph.succs bb).foldlM (fun s child =>
      if child ∈ s.visited then some s else recordPragmaRegions f base fuel child idStack s) s

/-- The call `runOnFunction` makes: no block visited, no group seen, the code as it was. -/
def recordFunction (f : MarkedFunction β) (base fuel : Nat) : Option (RecordState β) :=
  recordPragmaRegions f base fuel f.graph.entry [] ⟨[], [], fun b => (f.instrs b).map .instr⟩

end

/-! ### One block -/

/-- The keys of the stack and of `BasicBlockGroupList` are without repetitions, and every group on the stack has been
seen. -/
structure KeysOk (idStack groupList : BlockLists β) : Prop where
  stack : (groups idStack).Nodup
  list : (groups groupList).Nodup
  seen : groups idStack ⊆ groups groupList

/-- What the begin markers among `l` do to the stack and the list. -/
structure BeginsRecorded (l : List Instr) (s s' : BlockLists β × BlockLists β) : Prop where
  keys : KeysOk s'.1 s'.2
  order : groups s.2 <+: groups s'.2
  mem : ∀ g, g ∈ groups s'.2 ↔ g ∈ groups s.2 ∨ .roiBegin g ∈ l
  opened : ∀ g, (blocksOf g s'.1).length = (blocksOf g s.1).length + l.count (.roiBegin g)
  lists : ∀ g, blocksOf g s'.2 = blocksOf g s.2

theorem BeginsRecorded.refl {s : BlockLists β × BlockLists β} (h : KeysOk s.1 s.2) : BeginsRecorded [] s s :=
  ⟨h, List.prefix_refl _, by simp, by simp, fun _ => rfl⟩

theorem BeginsRecorded.trans {l m : List Instr} {s s' s'' : BlockLists β × BlockLists β}
    (h : BeginsRecorded l s s') (h' : BeginsRecorded m s' s'') : BeginsRecorded (l ++ m) s s'' where
  keys := h'.keys
  order := h.order.trans h'.order
  mem g := by rw [h'.mem, h.mem, List.mem_append, or_assoc]
  opened g := by rw [h'.opened, h.opened, List.count_append, Nat.add_assoc]
  lists g := by rw [h'.lists, h.lists]

theorem beginsRecorded_recordBegin (bb : β) (i : Instr) {s : BlockLists β × BlockLists β} (h : KeysOk s.1 s.2) :
    BeginsRecorded [i] s (recordBegin bb s i) := by
  cases i with
  | roiBegin g =>
    by_cases hg : g ∈ groups s.2
    · simp only [recordBegin, hg, if_true]
      refine ⟨⟨?_, h.list, ?_⟩, List.prefix_refl _, fun x => ?_, fun x => ?_, fun x => rfl⟩
      · rw [groups_push]
        split
        · exact h.stack
        · rename_i hnew
          exact List.Nodup.append h.stack (List.nodup_singleton g) (by simpa using hnew)
      · intro x hx
        rw [groups_push] at hx
        split at hx
        · exact h.seen hx
        · rcases List.mem_append.mp hx with hx | hx
          · exact h.seen hx
          · exact List.mem_singleton.mp hx ▸ hg
      · constructor
        · exact .inl
        · rintro (hx | hx)
          · exact hx
          · simp only [List.mem_singleton, Instr.roiBegin.injEq] at hx
            exact hx ▸ hg
      · rw [blocksOf_push]
        by_cases hx : x = g
        · simp [hx]
        · simp [hx, Ne.symm hx]
    · have hstack : g ∉ groups s.1 := fun hmem => hg (h.seen hmem)
      simp only [recordBegin, hg, if_false]
      refine ⟨⟨?_, ?_, ?_⟩, ?_, fun x => ?_, fun x => ?_, fun x => ?_⟩
      · rw [groups_append]
        exact List.Nodup.append h.stack (List.nodup_singleton g) (by simpa using hstack)
      · rw [groups_append]
        exact List.Nodup.append h.list (List.nodup_singleton g) (by simpa using hg)
      · intro x hx
        rw [groups_append] at hx ⊢
        rcases List.mem_append.mp hx with hx | hx
        · exact List.mem_append_left _ (h.seen hx)
        · exact List.mem_append_right _ hx
      · rw [groups_append]
        exact List.prefix_append _ _
      · simp
      · rw [blocksOf_append_new hstack]
        by_cases hx : x = g
        · simp [hx, blocksOf_eq_nil hstack]
        · simp [hx, Ne.symm hx]
      · rw [blocksOf_append_new hg]
        by_cases hx : x = g
        · simp [hx, blocksOf_eq_nil hg]
        · simp [hx]
  | roiEnd g =>
    show BeginsRecorded [.roiEnd g] s s
    exact ⟨h, List.prefix_refl _, by simp, by simp, fun _ => rfl⟩
  | other =>
    show BeginsRecorded [.other] s s
    exact ⟨h, List.prefix_refl _, by simp, by simp, fun _ => rfl⟩

theorem beginsRecorded_foldl (bb : β) (l : List Instr) {s : BlockLists β × BlockLists β} (h : KeysOk s.1 s.2) :
    BeginsRecorded l s (l.foldl (recordBegin bb) s) := by
  induction l generalizing s with
  | nil => exact .refl h
  | cons i l ih =>
    have hone := beginsRecorded_recordBegin bb i h
    exact hone.trans (ih hone.keys)

/-- Every open group gets the block once, and no other group does. -/
theorem addToOpenGroups_spec (bb : β) {idStack groupList : BlockLists β} (hnodup : (groups idStack).Nodup)
    (hseen : groups idStack ⊆ groups groupList) :
    groups (addToOpenGroups bb idStack groupList) = groups groupList ∧
      ∀ g, blocksOf g (addToOpenGroups bb idStack groupList) =
        blocksOf g groupList ++ if blocksOf g idStack = [] then [] else [bb] := by
  induction idStack generalizing groupList with
  | nil => exact ⟨rfl, fun g => by simp [addToOpenGroups, blocksOf]⟩
  | cons e idStack ih =>
    obtain ⟨hnew, hnodup'⟩ := List.nodup_cons.mp hnodup
    have hmem : e.1 ∈ groups groupList := hseen List.mem_cons_self
    have hseen' : groups idStack ⊆ groups groupList := fun x hx => hseen (List.mem_cons_of_mem e.1 hx)
    have hnil : blocksOf e.1 idStack = [] := blocksOf_eq_nil hnew
    by_cases he : e.2 = []
    · obtain ⟨hgroups, hlists⟩ := ih hnodup' hseen'
      simp only [addToOpenGroups, List.foldl_cons, he, List.isEmpty_nil, if_true] at hgroups hlists ⊢
      refine ⟨hgroups, fun g => ?_⟩
      rw [hlists g]
      by_cases hg : e.1 = g
      · subst hg
        simp [blocksOf, hnil, he]
      · simp [blocksOf, hg]
    · have hempty : e.2.isEmpty = false := by simpa using he
      have hgroups' : groups (push e.1 bb groupList) = groups groupList := by
        rw [groups_push, if_pos hmem]
      have hseen'' : groups idStack ⊆ groups (push e.1 bb groupList) := by
        rw [hgroups']
        exact hseen'
      obtain ⟨hgroups, hlists⟩ := ih hnodup' hseen''
      simp only [addToOpenGroups, List.foldl_cons, hempty, Bool.false_eq_true, if_false] at hgroups hlists ⊢
      refine ⟨hgroups.trans hgroups', fun g => ?_⟩
      rw [hlists g, blocksOf_push]
      by_cases hg : e.1 = g
      · subst hg
        simp [blocksOf, hnil, he]
      · simp [blocksOf, hg, Ne.symm hg]

/-- An instruction with the exit call of its region in front. -/
def withEnd (id : Nat → Nat) : Instr → List CodeItem
  | .roiEnd g => [.endTimingEvent (id g), .instr (.roiEnd g)]
  | i => [.instr i]

/-- When every end marker finds its group open, each gets its call, and the stack loses what they close. -/
theorem recordEnds_spec (base : Nat) (groupList : BlockLists β) (l : List Instr) {idStack : BlockLists β}
    (hopen : ∀ u g v, l = u ++ .roiEnd g :: v → u.count (.roiEnd g) < (blocksOf g idStack).length) :
    (recordEnds base groupList l idStack).1 = l.flatMap (withEnd (regionID base (groups groupList))) ∧
      groups (recordEnds base groupList l idStack).2 = groups idStack ∧
      ∀ g, (blocksOf g (recordEnds base groupList l idStack).2).length + l.count (.roiEnd g) =
        (blocksOf g idStack).length := by
  induction l generalizing idStack with
  | nil => exact ⟨rfl, rfl, fun g => rfl⟩
  | cons i l ih =>
    have hskip : (∀ g, i ≠ .roiEnd g) → ∀ u g v, l = u ++ .roiEnd g :: v →
        u.count (.roiEnd g) < (blocksOf g idStack).length := by
      intro hi u g v heq
      have h := hopen (i :: u) g v (by rw [heq]; rfl)
      rwa [List.count_cons_of_ne (hi g)] at h
    cases i with
    | roiBegin g =>
      obtain ⟨hcode, hgroups, hlen⟩ := ih (hskip (by simp))
      refine ⟨?_, hgroups, fun g' => ?_⟩
      · simp only [recordEnds, hcode]
        rfl
      · rw [List.count_cons_of_ne (by simp)]
        exact hlen g'
    | other =>
      obtain ⟨hcode, hgroups, hlen⟩ := ih (hskip (by simp))
      refine ⟨?_, hgroups, fun g' => ?_⟩
      · simp only [recordEnds, hcode]
        rfl
      · rw [List.count_cons_of_ne (by simp)]
        exact hlen g'
    | roiEnd g =>
      have hpos : 0 < (blocksOf g idStack).length := hopen [] g l rfl
      have hempty : (blocksOf g idStack).isEmpty = false := by
        rw [List.isEmpty_eq_false_iff]
        exact List.ne_nil_of_length_pos hpos
      have hrest : ∀ u g' v, l = u ++ .roiEnd g' :: v →
          u.count (.roiEnd g') < (blocksOf g' (pop g idStack)).length := by
        intro u g' v heq
        have h := hopen (.roiEnd g :: u) g' v (by rw [heq]; rfl)
        rw [blocksOf_pop]
        by_cases hg : g' = g
        · subst hg
          rw [List.count_cons_self] at h
          simp only [if_true, List.length_dropLast]
          omega
        · rw [List.count_cons_of_ne (by simpa using Ne.symm hg)] at h
          simpa [hg] using h
      obtain ⟨hcode, hgroups, hlen⟩ := ih hrest
      refine ⟨?_, ?_, fun g' => ?_⟩
      · simp only [recordEnds, hempty, Bool.false_eq_true, if_false, hcode]
        rfl
      · simp only [recordEnds, hempty, Bool.false_eq_true, if_false, hgroups, groups_pop]
      · have h := hlen g'
        simp only [recordEnds, hempty, Bool.false_eq_true, if_false]
        rw [blocksOf_pop] at h
        by_cases hg : g' = g
        · subst hg
          simp only [if_true, List.length_dropLast] at h
          rw [List.count_cons_self]
          omega
        · rw [List.count_cons_of_ne (by simpa using Ne.symm hg)]
          simpa [hg] using h

/-- The group is open in the block `x` when the walk behind it has executed `t`: it was open on arrival, or the block
has a begin marker of it. -/
def OpenIn (f : MarkedFunction β) (t : List Instr) (x : β) (g : Nat) : Prop :=
  0 < openDepth g t + (f.instrs x).count (.roiBegin g)

/-- The stack holds the open begin markers of `t`. -/
structure OpenStack (t : List Instr) (idStack groupList : BlockLists β) : Prop extends KeysOk idStack groupList where
  length : ∀ g, (blocksOf g idStack).length + t.count (.roiEnd g) = t.count (.roiBegin g)

variable [DecidableEq β]

/-- What `recordBlock` does to a block reached over the instructions `t`. -/
structure BlockRecorded (f : MarkedFunction β) (base : Nat) (bb : β) (t : List Instr) (s : RecordState β)
    (r : BlockLists β × RecordState β) : Prop where
  stack : OpenStack (t ++ f.instrs bb) r.1 r.2.groupList
  order : groups s.groupList <+: groups r.2.groupList
  mem : ∀ g, g ∈ groups r.2.groupList ↔ g ∈ groups s.groupList ∨ .roiBegin g ∈ f.instrs bb
  lists : ∀ g, blocksOf g r.2.groupList = blocksOf g s.groupList ∨
    blocksOf g r.2.groupList = blocksOf g s.groupList ++ [bb]
  joined : ∀ g, blocksOf g r.2.groupList = blocksOf g s.groupList ++ [bb] ↔ OpenIn f t bb g
  code : r.2.code = Function.update s.code bb
    ((f.instrs bb).flatMap (withEnd (regionID base (groups r.2.groupList))))
  visited : r.2.visited = bb :: s.visited

theorem blockRecorded_recordBlock (f : MarkedFunction β) (base : Nat) (bb : β) {idStack : BlockLists β}
    {s : RecordState β} {t : List Instr} (h : OpenStack t idStack s.groupList)
    (hopen : NoUnopened (t ++ f.instrs bb)) :
    BlockRecorded f base bb t s (recordBlock f base bb idStack s) := by
  have hbegins := beginsRecorded_foldl bb (f.instrs bb) (s := (idStack, s.groupList)) h.toKeysOk
  unfold recordBlock
  generalize (f.instrs bb).foldl (recordBegin bb) (idStack, s.groupList) = r at hbegins
  obtain ⟨hgroups, hlists⟩ := addToOpenGroups_spec bb hbegins.keys.stack hbegins.keys.seen
  -- an end marker of the block finds its group open: begin markers before it are on the stack
  have hfound : ∀ u g v, f.instrs bb = u ++ .roiEnd g :: v → u.count (.roiEnd g) < (blocksOf g r.1).length := by
    intro u g v heq
    have hlt := hopen (t ++ u) g v (by rw [heq, List.append_assoc])
    have hlen := h.length g
    have hopened := hbegins.opened g
    rw [List.count_append, List.count_append] at hlt
    rw [heq, List.count_append] at hopened
    dsimp only at hopened
    omega
  have hends := recordEnds_spec base (addToOpenGroups bb r.1 r.2) (f.instrs bb) hfound
  obtain ⟨hcode, hstack, hlen⟩ := hends
  dsimp only
  refine ⟨⟨⟨?_, ?_, ?_⟩, fun g => ?_⟩, ?_, fun g => ?_, fun g => ?_, fun g => ?_, ?_, rfl⟩
  · rw [hstack]
    exact hbegins.keys.stack
  · rw [hgroups]
    exact hbegins.keys.list
  · rw [hstack, hgroups]
    exact hbegins.keys.seen
  · have hleft := hlen g
    have hopened := hbegins.opened g
    have hbefore := h.length g
    dsimp only at hopened ⊢
    rw [List.count_append, List.count_append]
    omega
  · rw [hgroups]
    exact hbegins.order
  · rw [hgroups]
    exact hbegins.mem g
  · rw [hlists g, hbegins.lists g]
    split
    · exact .inl (List.append_nil _)
    · exact .inr rfl
  · rw [hlists g, hbegins.lists g, List.append_cancel_left_eq]
    have hopened := hbegins.opened g
    have hbefore := h.length g
    dsimp only at hopened
    unfold OpenIn openDepth
    by_cases hnil : blocksOf g r.1 = []
    · rw [hnil, List.length_nil] at hopened
      rw [if_pos hnil]
      refine iff_of_false (List.cons_ne_nil _ _).symm ?_
      omega
    · have hpos := List.length_pos_iff.mpr hnil
      simp only [hnil, if_false, true_iff]
      omega
  · rw [hcode]

/-! ### The whole walk -/

/-- The walk of `recordPragmaRegions`. -/
def recordWalk (f : MarkedFunction β) (base : Nat) : DepthFirst (RecordState β) β (BlockLists β) where
  visited := RecordState.visited
  visit := recordBlock f base
  succs := fun _ => f.graph.succs

theorem recordPragmaRegions_eq_walk (f : MarkedFunction β) (base fuel : Nat) (bb : β) (idStack : BlockLists β)
    (s : RecordState β) :
    recordPragmaRegions f base fuel bb idStack s = (recordWalk f base).walk fuel bb idStack s := by
  induction fuel generalizing bb idStack s with
  | zero => rfl
  | succ fuel ih =>
    simp only [recordPragmaRegions, ih]
    rfl

/-- The block list is handed on with the walk that leads to the block: the stack is what the walk has left open. -/
private def Arrives (f : MarkedFunction β) (x : β) (idStack : BlockLists β) (s : RecordState β) : Prop :=
  ∃ u, f.graph.Walk f.graph.entry (u ++ [x]) x ∧ OpenStack (f.trace u) idStack s.groupList

/-- What holds of the state between two blocks of the walk. -/
private structure RecordInv (f : MarkedFunction β) (base : Nat) (s : RecordState β) : Prop where
  reachable : ∀ x ∈ s.visited, f.graph.Reachable x
  nodup : (groups s.groupList).Nodup
  mem_groups : ∀ g, g ∈ groups s.groupList ↔ ∃ x ∈ s.visited, .roiBegin g ∈ f.instrs x
  lists_nodup : ∀ g, (blocksOf g s.groupList).Nodup
  lists_visited : ∀ g, ∀ x ∈ blocksOf g s.groupList, x ∈ s.visited
  arrival : ∀ x ∈ s.visited, ∃ u, f.graph.Walk f.graph.entry (u ++ [x]) x ∧
    ∀ g, x ∈ blocksOf g s.groupList ↔ OpenIn f (f.trace u) x g
  ends_seen : ∀ x ∈ s.visited, ∀ g, .roiEnd g ∈ f.instrs x → g ∈ groups s.groupList
  code : ∀ x ∈ s.visited, s.code x = (f.instrs x).flatMap (withEnd (regionID base (groups s.groupList)))
  first_seen : ∀ g ∈ groups s.groupList, ∃ u x, f.graph.Walk f.graph.entry (u ++ [x]) x ∧ .roiBegin g ∈ f.instrs x ∧
    ∀ g', 0 < openDepth g' (f.trace u) → (groups s.groupList).idxOf g' < (groups s.groupList).idxOf g

omit [DecidableEq β] in
theorem OpenStack.mem_groups_of_ne_nil {t : List Instr} {idStack groupList : BlockLists β}
    (h : OpenStack t idStack groupList) {g : Nat} (hg : blocksOf g idStack ≠ []) : g ∈ groups groupList := by
  by_contra hnot
  exact hg (blocksOf_eq_nil fun hmem => hnot (h.seen hmem))

omit [DecidableEq β] in
/-- A group that is open has been seen. -/
theorem OpenStack.mem_groups_of_openDepth {t : List Instr} {idStack groupList : BlockLists β}
    (h : OpenStack t idStack groupList) {g : Nat} (hg : 0 < openDepth g t) : g ∈ groups groupList := by
  refine h.mem_groups_of_ne_nil fun hnil => ?_
  have hlen := h.length g
  rw [hnil, List.length_nil] at hlen
  unfold openDepth at hg
  omega

omit [DecidableEq β] in
/-- An end marker that is not unopened has a begin marker of its group on the stack or in its own block. -/
private theorem mem_groups_of_end {f : MarkedFunction β} {x : β} {t : List Instr} {idStack groupList : BlockLists β}
    (h : OpenStack t idStack groupList) (hopen : NoUnopened (t ++ f.instrs x)) {g : Nat}
    (hg : .roiEnd g ∈ f.instrs x) : g ∈ groups groupList ∨ .roiBegin g ∈ f.instrs x := by
  obtain ⟨u, v, huv⟩ := List.append_of_mem hg
  have hlt := hopen (t ++ u) g v (by rw [huv, List.append_assoc])
  rw [List.count_append, List.count_append] at hlt
  have hlen := h.length g
  by_cases hnil : blocksOf g idStack = []
  · rw [hnil, List.length_nil] at hlen
    have hpos : 0 < u.count (.roiBegin g) := by omega
    right
    rw [huv]
    exact List.mem_append_left _ (List.count_pos_iff.mp hpos)
  · exact .inl (h.mem_groups_of_ne_nil hnil)

omit [DecidableEq β] in
/-- Groups seen later do not change the id of a group seen before. -/
private theorem idxOf_eq_of_append {l m : List Nat} (h : l <+: m) {g : Nat} (hg : g ∈ l) : m.idxOf g = l.idxOf g := by
  obtain ⟨k, rfl⟩ := h
  rw [List.idxOf_append, if_pos hg]

omit [DecidableEq β] in
/-- A group seen later has a greater index than the groups seen before. -/
private theorem idxOf_lt_of_append {l m : List Nat} (h : l <+: m) {g g' : Nat} (hg : g ∉ l) (hg' : g' ∈ l) :
    m.idxOf g' < m.idxOf g := by
  obtain ⟨k, rfl⟩ := h
  rw [List.idxOf_append, if_pos hg', List.idxOf_append, if_neg hg]
  have hlt := List.idxOf_lt_length_of_mem hg'
  omega

omit [DecidableEq β] in
private theorem flatMap_withEnd_congr {l : List Instr} {id id' : Nat → Nat}
    (h : ∀ g, .roiEnd g ∈ l → id g = id' g) : l.flatMap (withEnd id) = l.flatMap (withEnd id') := by
  refine List.flatMap_congr fun i hi => ?_
  cases i with
  | roiEnd g => simp only [withEnd, h g hi]
  | roiBegin g => rfl
  | other => rfl

namespace BlockRecorded

variable {f : MarkedFunction β} {base : Nat} {bb : β} {t : List Instr} {s : RecordState β}
  {r : BlockLists β × RecordState β}

theorem mem_visited (h : BlockRecorded f base bb t s r) {x : β} : x ∈ r.2.visited ↔ x = bb ∨ x ∈ s.visited := by
  rw [h.visited, List.mem_cons]

theorem groups_subset (h : BlockRecorded f base bb t s r) : groups s.groupList ⊆ groups r.2.groupList :=
  h.order.subset

/-- The block joins the lists of the groups open in it, and the lists lose nothing. -/
theorem mem_blocksOf (h : BlockRecorded f base bb t s r) (g : Nat) (x : β) :
    x ∈ blocksOf g r.2.groupList ↔ x ∈ blocksOf g s.groupList ∨ x = bb ∧ OpenIn f t bb g := by
  rcases h.lists g with heq | heq
  · have hnot : ¬ OpenIn f t bb g := by
      rw [← h.joined g, heq]
      simp
    simp [heq, hnot]
  · have hin := (h.joined g).mp heq
    simp [heq, hin]

theorem nodup_blocksOf (h : BlockRecorded f base bb t s r) {g : Nat} (hnodup : (blocksOf g s.groupList).Nodup)
    (hnew : bb ∉ blocksOf g s.groupList) : (blocksOf g r.2.groupList).Nodup := by
  rcases h.lists g with heq | heq
  · rw [heq]
    exact hnodup
  · rw [heq]
    refine List.Nodup.append hnodup (List.nodup_singleton bb) ?_
    intro x hx hxb
    rw [List.mem_singleton] at hxb
    exact hnew (hxb ▸ hx)

/-- The code of another block stays, and its calls keep their region ids. -/
theorem code_of_ne (h : BlockRecorded f base bb t s r) {x : β} (hne : x ≠ bb)
    (hends : ∀ g, .roiEnd g ∈ f.instrs x → g ∈ groups s.groupList)
    (hcode : s.code x = (f.instrs x).flatMap (withEnd (regionID base (groups s.groupList)))) :
    r.2.code x = (f.instrs x).flatMap (withEnd (regionID base (groups r.2.groupList))) := by
  rw [h.code, Function.update_of_ne hne, hcode]
  refine flatMap_withEnd_congr fun g hg => ?_
  rw [regionID, regionID, idxOf_eq_of_append h.order (hends g hg)]

end BlockRecorded

/-- A group seen in the block comes behind the groups open on arrival; for the others nothing changes. -/
private theorem RecordInv.first_seen_next {f : MarkedFunction β} {base : Nat} {bb : β} {idStack : BlockLists β}
    {s : RecordState β} {r : BlockLists β × RecordState β} {u : List β} (hinv : RecordInv f base s)
    (hu : f.graph.Walk f.graph.entry (u ++ [bb]) bb) (hstack : OpenStack (f.trace u) idStack s.groupList)
    (hblock : BlockRecorded f base bb (f.trace u) s r) {g : Nat} (hg : g ∈ groups r.2.groupList) :
    ∃ v x, f.graph.Walk f.graph.entry (v ++ [x]) x ∧ .roiBegin g ∈ f.instrs x ∧
      ∀ g', 0 < openDepth g' (f.trace v) → (groups r.2.groupList).idxOf g' < (groups r.2.groupList).idxOf g := by
  by_cases hold : g ∈ groups s.groupList
  · obtain ⟨v, x, hv, hbegin, hfirst⟩ := hinv.first_seen g hold
    refine ⟨v, x, hv, hbegin, fun g' hg' => ?_⟩
    have hlt := hfirst g' hg'
    have hold' : g' ∈ groups s.groupList :=
      List.idxOf_lt_length_iff.mp (lt_trans hlt (List.idxOf_lt_length_of_mem hold))
    rw [idxOf_eq_of_append hblock.order hold, idxOf_eq_of_append hblock.order hold']
    exact hlt
  · have hbegin : .roiBegin g ∈ f.instrs bb := ((hblock.mem g).mp hg).resolve_left hold
    exact ⟨u, bb, hu, hbegin, fun g' hg' =>
      idxOf_lt_of_append hblock.order hold (hstack.mem_groups_of_openDepth hg')⟩

/-- One block keeps the invariant. -/
private theorem RecordInv.next {f : MarkedFunction β} {base : Nat} {bb : β} {idStack : BlockLists β}
    {s : RecordState β} {r : BlockLists β × RecordState β} {u : List β} (hinv : RecordInv f base s)
    (hbb : bb ∉ s.visited) (hu : f.graph.Walk f.graph.entry (u ++ [bb]) bb)
    (hstack : OpenStack (f.trace u) idStack s.groupList) (hopen : NoUnopened (f.trace u ++ f.instrs bb))
    (hblock : BlockRecorded f base bb (f.trace u) s r) : RecordInv f base r.2 := by
  have hnew : ∀ g, bb ∉ blocksOf g s.groupList := fun g hmem => hbb (hinv.lists_visited g bb hmem)
  refine ⟨fun x hx => ?_, hblock.stack.list, fun g => ?_, fun g => ?_, fun g x hx => ?_, fun x hx => ?_,
    fun x hx g hg => ?_, fun x hx => ?_, fun g hg => hinv.first_seen_next hu hstack hblock hg⟩
  · rcases hblock.mem_visited.mp hx with rfl | hx
    · exact ⟨_, hu⟩
    · exact hinv.reachable x hx
  · rw [hblock.mem, hinv.mem_groups, hblock.visited]
    constructor
    · rintro (⟨x, hx, hg⟩ | hg)
      · exact ⟨x, List.mem_cons_of_mem bb hx, hg⟩
      · exact ⟨bb, List.mem_cons_self, hg⟩
    · rintro ⟨x, hx, hg⟩
      rcases List.mem_cons.mp hx with rfl | hx
      · exact .inr hg
      · exact .inl ⟨x, hx, hg⟩
  · exact hblock.nodup_blocksOf (hinv.lists_nodup g) (hnew g)
  · rw [hblock.mem_visited]
    rcases (hblock.mem_blocksOf g x).mp hx with hx | ⟨rfl, -⟩
    · exact .inr (hinv.lists_visited g x hx)
    · exact .inl rfl
  · rcases hblock.mem_visited.mp hx with rfl | hx
    · refine ⟨u, hu, fun g => ?_⟩
      rw [hblock.mem_blocksOf]
      simp [hnew g]
    · obtain ⟨v, hv, hiff⟩ := hinv.arrival x hx
      refine ⟨v, hv, fun g => ?_⟩
      have hne : x ≠ bb := fun heq => hbb (heq ▸ hx)
      rw [hblock.mem_blocksOf, ← hiff g]
      simp [hne]
  · rcases hblock.mem_visited.mp hx with rfl | hx
    · rw [hblock.mem]
      exact mem_groups_of_end hstack hopen hg
    · exact hblock.groups_subset (hinv.ends_seen x hx g hg)
  · rcases hblock.mem_visited.mp hx with rfl | hx
    · rw [hblock.code, Function.update_self]
    · exact hblock.code_of_ne (fun heq => hbb (heq ▸ hx)) (hinv.ends_seen x hx) (hinv.code x hx)

/-- One block keeps the invariant and what waits, and hands its stack on. -/
private theorem sound_recordWalk {f : MarkedFunction β} (hwell : WellNested f) (base : Nat) :
    (recordWalk f base).Sound (RecordInv f base) (Arrives f) := by
  have hblock : ∀ {bb : β} {idStack : BlockLists β} {s : RecordState β} {u : List β},
      f.graph.Walk f.graph.entry (u ++ [bb]) bb → OpenStack (f.trace u) idStack s.groupList →
        NoUnopened (f.trace u ++ f.instrs bb) ∧
          BlockRecorded f base bb (f.trace u) s (recordBlock f base bb idStack s) := by
    intro bb idStack s u hu hstack
    have hopen := hwell.noUnopened hu
    rw [MarkedFunction.trace_append, MarkedFunction.trace_singleton] at hopen
    exact ⟨hopen, blockRecorded_recordBlock f base bb hstack hopen⟩
  refine ⟨fun _ _ _ => rfl, ?_, ?_, ?_, fun _ _ _ _ _ => rfl⟩
  · rintro bb idStack s hbb ⟨u, hu, hstack⟩ hinv
    obtain ⟨hopen, hrecorded⟩ := hblock hu hstack
    exact hinv.next hbb hu hstack hopen hrecorded
  · rintro bb idStack s hbb ⟨u, hu, hstack⟩ hinv child hchild
    refine ⟨u ++ [bb], hu.concat hchild (.single child), ?_⟩
    rw [MarkedFunction.trace_append, MarkedFunction.trace_singleton]
    exact (hblock hu hstack).2.stack
  · rintro bb idStack s hbb ⟨u, hu, hstack⟩ hinv x stk ⟨v, hv, hstk⟩
    obtain ⟨-, hrecorded⟩ := hblock hu hstack
    exact ⟨v, hv, ⟨⟨hstk.stack, hrecorded.stack.list, fun g hg => hrecorded.groups_subset (hstk.seen hg)⟩,
      hstk.length⟩⟩

omit [DecidableEq β] in
/-- The regions of a function: the groups with a reachable begin marker, each with the reachable blocks in which it is
open, and every end marker with the exit call of its region in front. -/
structure Recorded (f : MarkedFunction β) (base : Nat) (s : RecordState β) : Prop where
  nodup : (groups s.groupList).Nodup
  mem_groups : ∀ g, g ∈ groups s.groupList ↔ ∃ x, f.graph.Reachable x ∧ .roiBegin g ∈ f.instrs x
  lists_nodup : ∀ g, (blocksOf g s.groupList).Nodup
  reachable : ∀ g, ∀ x ∈ blocksOf g s.groupList, f.graph.Reachable x
  mem_blocksOf : ∀ {u x}, f.graph.Walk f.graph.entry (u ++ [x]) x → ∀ g,
    x ∈ blocksOf g s.groupList ↔ OpenIn f (f.trace u) x g
  code : ∀ x, f.graph.Reachable x → s.code x = (f.instrs x).flatMap (withEnd (regionID base (groups s.groupList)))
  first_seen : ∀ g ∈ groups s.groupList, ∃ u x, f.graph.Walk f.graph.entry (u ++ [x]) x ∧ .roiBegin g ∈ f.instrs x ∧
    ∀ g', 0 < openDepth g' (f.trace u) → (groups s.groupList).idxOf g' < (groups s.groupList).idxOf g

omit [DecidableEq β] in
/-- How often a group is open on arrival at a block does not depend on the path. -/
theorem openDepth_congr {f : MarkedFunction β} (hwell : WellNested f) {u v : List β} {x : β}
    (hu : f.graph.Walk f.graph.entry (u ++ [x]) x) (hv : f.graph.Walk f.graph.entry (v ++ [x]) x) (g : Nat) :
    openDepth g (f.trace u) = openDepth g (f.trace v) := by
  have hsame := hwell.same_depth hu hv g
  have hopenu := hwell.noUnopened hu
  have hopenv := hwell.noUnopened hv
  simp only [MarkedFunction.trace_append, MarkedFunction.trace_singleton] at hsame hopenu hopenv
  have hle1 := hopenu.left.count_le g
  have hle2 := hopenv.left.count_le g
  have hle3 := hopenu.count_le g
  have hle4 := hopenv.count_le g
  simp only [openDepth, List.count_append] at *
  omega

/-- On properly nested markers `recordPragmaRegions` ends and records the regions. -/
theorem recordPragmaRegions_recorded {f : MarkedFunction β} (hwell : WellNested f) (base : Nat) {blocks : List β}
    (hentry : f.graph.entry ∈ blocks) (hblocks : ∀ x ∈ blocks, ∀ y ∈ f.graph.succs x, y ∈ blocks) :
    ∃ s, recordFunction f base blocks.length = some s ∧ Recorded f base s := by
  have hsound := sound_recordWalk hwell base
  have harrives : Arrives f f.graph.entry [] ⟨[], [], fun b => (f.instrs b).map .instr⟩ :=
    ⟨[], .single _, ⟨⟨by simp, by simp, by simp⟩, by simp [blocksOf]⟩⟩
  have hstart : RecordInv f base ⟨[], [], fun b => (f.instrs b).map .instr⟩ :=
    ⟨by simp, by simp, by simp, by simp [blocksOf], by simp [blocksOf], by simp, by simp, by simp, by simp⟩
  have hlisted : ∀ x stk s, Arrives f x stk s → RecordInv f base s → x ∈ blocks := by
    rintro x stk s ⟨u, hu, hstk⟩ hinv
    exact hu.mem_of_closed hblocks hentry
  obtain ⟨s, hs⟩ := hsound.exists_walk blocks hlisted le_rfl List.not_mem_nil harrives hstart
  refine ⟨s, (recordPragmaRegions_eq_walk f base _ _ _ _).trans hs, ?_⟩
  obtain ⟨hwalked, hmem⟩ := hsound.walk List.not_mem_nil harrives hstart hs
  have hinv := hwalked.holds
  -- the visited blocks are the reachable ones
  have hvisited : ∀ x, f.graph.Reachable x → x ∈ s.visited := by
    rintro x ⟨w, hw⟩
    refine hw.mem_of_closed (fun y hy z hz => ?_) hmem
    rcases hwalked.closed y hy with hnil | hsucc
    · exact absurd hnil List.not_mem_nil
    · exact hsucc z hz
  refine ⟨hinv.nodup, fun g => ?_, hinv.lists_nodup, fun g x hx => hinv.reachable x (hinv.lists_visited g x hx),
    fun {u x} hu g => ?_, fun x hx => hinv.code x (hvisited x hx), hinv.first_seen⟩
  · rw [hinv.mem_groups]
    constructor
    · rintro ⟨x, hx, hg⟩
      exact ⟨x, hinv.reachable x hx, hg⟩
    · rintro ⟨x, hx, hg⟩
      exact ⟨x, hvisited x hx, hg⟩
  · obtain ⟨v, hv, hiff⟩ := hinv.arrival x (hvisited x ⟨_, hu⟩)
    rw [hiff g, OpenIn, OpenIn, openDepth_congr hwell hu hv g]

end ZRay.Pass
