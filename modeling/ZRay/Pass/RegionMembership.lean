import ZRay.Pass.CounterIds
import ZRay.Pass.Regions
import ZRay.Pass.SplitBlocks

/-!
# Which blocks belong to a region

`runOnFunction` splits the blocks, records the regions, and numbers them behind those of the functions before.  The
only thing asked of the markers is that all paths to a point have the same groups open; end markers of groups that are
not open are ignored, and groups may stay open at an exit.  After the split a block has its begin marker first and its
end marker last, so `recordPragmaRegions`, which looks at the begin markers first, keeps the stack of open groups
(`sound_memberWalk`), and with the same groups open on all paths its result does not depend on the path that reaches a
block first.
-/

namespace ZRay.Pass

open FlowGraph BlockLists

variable {α β : Type*}

/-! ### Open groups -/

/-- The open groups behind an instruction, innermost first: an end marker closes the innermost begin marker of its
group, and is ignored when there is none. -/
def stepOpen (stk : List Nat) : Instr → List Nat
  | .roiBegin g => g :: stk
  | .roiEnd g => stk.erase g
  | .other => stk

/-- The stack of open groups behind the instructions. -/
def openGroups (t : List Instr) : List Nat := t.foldl stepOpen []

/-- All paths to a block arrive with the same stack of open groups, and so do those to the points inside it. -/
def SameOpenGroups (f : MarkedFunction β) : Prop :=
  ∀ {u v x}, f.graph.Walk f.graph.entry (u ++ [x]) x → f.graph.Walk f.graph.entry (v ++ [x]) x →
    openGroups (f.trace u) = openGroups (f.trace v)

/-- The group is open in the block: on arrival, or because its begin marker is there. -/
def OpenInBlock (f : MarkedFunction β) (x : β) (g : Nat) : Prop :=
  ∃ u, f.graph.Walk f.graph.entry (u ++ [x]) x ∧ (g ∈ openGroups (f.trace u) ∨ .roiBegin g ∈ f.instrs x)

theorem openGroups_append (t l : List Instr) : openGroups (t ++ l) = l.foldl stepOpen (openGroups t) :=
  List.foldl_append

theorem count_stepOpen (stk : List Nat) (i : Instr) (g : Nat) : (stepOpen stk i).count g =
    stk.count g + [i].count (.roiBegin g) - [i].count (.roiEnd g) := by
  cases i with
  | roiBegin h =>
    by_cases hg : h = g
    · subst hg
      simp [stepOpen]
    · simp [stepOpen, hg]
  | roiEnd h =>
    by_cases hg : h = g
    · subst hg
      simp [stepOpen]
    · simp [stepOpen, hg, List.count_erase_of_ne (Ne.symm hg)]
  | other => simp [stepOpen]

private theorem count_foldl_stepOpen_of_noBegin {l : List Instr} (stk : List Nat) (g : Nat)
    (h : .roiBegin g ∉ l) : (l.foldl stepOpen stk).count g = stk.count g - l.count (.roiEnd g) := by
  induction l generalizing stk with
  | nil => simp
  | cons i l ih =>
    simp only [List.mem_cons, not_or] at h
    have hnone : [i].count (.roiBegin g) = 0 := List.count_eq_zero_of_not_mem (by simpa using h.1)
    rw [List.foldl_cons, ih _ h.2, count_stepOpen, hnone, List.count_cons (l := l), ← List.count_singleton (b := i)]
    omega

/-- In a piece the begin marker comes before the end marker. -/
theorem count_foldl_stepOpen {l : List Instr} (h : IsPiece l) (stk : List Nat) (g : Nat) :
    (l.foldl stepOpen stk).count g = stk.count g + l.count (.roiBegin g) - l.count (.roiEnd g) := by
  cases l with
  | nil => simp
  | cons i l =>
    have hnone : .roiBegin g ∉ l := by
      intro hmem
      obtain ⟨u, v, rfl⟩ := List.append_of_mem hmem
      have hnil := h.begin_first (i :: u) g v rfl
      simp at hnil
    have hzero : l.count (.roiBegin g) = 0 := List.count_eq_zero_of_not_mem hnone
    have hcons : ∀ a : Instr, (i :: l).count a = [i].count a + l.count a := fun a => by
      rw [← List.count_append, List.singleton_append]
    rw [List.foldl_cons, count_foldl_stepOpen_of_noBegin _ _ hnone, count_stepOpen, hcons, hcons, hzero]
    omega

/-! ### One block -/

/-- An instruction with the exit call of its region in front, if it is an end marker of an open group. -/
def withOpenEnd (isOpen : Nat → Bool) (id : Nat → Nat) : Instr → List CodeItem
  | .roiEnd g => if isOpen g then [.endTimingEvent (id g), .instr (.roiEnd g)] else [.instr (.roiEnd g)]
  | i => [.instr i]

/-- Each end marker takes a begin marker off the stack, as long as there is one. -/
theorem groups_recordEnds (base : Nat) (groupList : BlockLists β) (l : List Instr) (idStack : BlockLists β) :
    groups (recordEnds base groupList l idStack).2 = groups idStack ∧ ∀ g,
      (blocksOf g (recordEnds base groupList l idStack).2).length =
        (blocksOf g idStack).length - l.count (.roiEnd g) := by
  induction l generalizing idStack with
  | nil => exact ⟨rfl, fun g => by simp [recordEnds]⟩
  | cons i l ih =>
    cases i with
    | roiBegin h =>
      obtain ⟨hgroups, hlen⟩ := ih idStack
      exact ⟨hgroups, fun g => by rw [List.count_cons_of_ne (by simp)]; exact hlen g⟩
    | other =>
      obtain ⟨hgroups, hlen⟩ := ih idStack
      exact ⟨hgroups, fun g => by rw [List.count_cons_of_ne (by simp)]; exact hlen g⟩
    | roiEnd h =>
      by_cases hempty : (blocksOf h idStack).isEmpty
      · obtain ⟨hgroups, hlen⟩ := ih idStack
        simp only [recordEnds, hempty, if_true]
        refine ⟨hgroups, fun g => ?_⟩
        rw [hlen g]
        by_cases hg : h = g
        · subst hg
          have hzero : (blocksOf h idStack).length = 0 := by simpa using hempty
          omega
        · rw [List.count_cons_of_ne (by simpa using hg)]
      · obtain ⟨hgroups, hlen⟩ := ih (pop h idStack)
        simp only [recordEnds, hempty, Bool.false_eq_true, if_false]
        refine ⟨hgroups.trans (groups_pop h idStack), fun g => ?_⟩
        rw [hlen g, blocksOf_pop]
        by_cases hg : h = g
        · subst hg
          rw [if_pos rfl, List.length_dropLast, List.count_cons_self]
          omega
        · rw [if_neg (Ne.symm hg), List.count_cons_of_ne (by simpa using hg)]

/-- In a piece the end marker comes last, so it finds the stack as it is. -/
theorem code_recordEnds (base : Nat) (groupList : BlockLists β) {l : List Instr} (h : IsPiece l)
    (idStack : BlockLists β) : (recordEnds base groupList l idStack).1 =
      l.flatMap (withOpenEnd (fun g => !(blocksOf g idStack).isEmpty) (regionID base (groups groupList))) := by
  have hlast : ∀ u g v, l = u ++ .roiEnd g :: v → v = [] := h.end_last
  clear h
  induction l with
  | nil => rfl
  | cons i l ih =>
    have hrest := ih fun u g v heq => hlast (i :: u) g v (by rw [heq]; rfl)
    cases i with
    | roiBegin h => simp [recordEnds, withOpenEnd, hrest]
    | other => simp [recordEnds, withOpenEnd, hrest]
    | roiEnd h =>
      have hnil : l = [] := hlast [] h l rfl
      subst hnil
      cases hempty : (blocksOf h idStack).isEmpty <;> simp [recordEnds, withOpenEnd, hempty]

/-- The stack holds the open groups behind `t`, each as often as it is open. -/
structure HoldsOpen (t : List Instr) (idStack groupList : BlockLists β) : Prop extends KeysOk idStack groupList where
  length : ∀ g, (blocksOf g idStack).length = (openGroups t).count g

theorem HoldsOpen.mem_groups {t : List Instr} {idStack groupList : BlockLists β} (h : HoldsOpen t idStack groupList)
    {g : Nat} (hg : g ∈ openGroups t) : g ∈ groups groupList := by
  by_contra hnot
  have hlen := h.length g
  rw [blocksOf_eq_nil fun hmem => hnot (h.seen hmem)] at hlen
  have hpos := List.count_pos_iff.mpr hg
  rw [← hlen] at hpos
  exact absurd hpos (by simp)

variable [DecidableEq β]

/-- What `recordBlock` does to a piece reached over the instructions `t`. -/
structure PieceRecorded (f : MarkedFunction β) (base : Nat) (bb : β) (t : List Instr) (s : RecordState β)
    (r : BlockLists β × RecordState β) : Prop where
  stack : HoldsOpen (t ++ f.instrs bb) r.1 r.2.groupList
  order : groups s.groupList <+: groups r.2.groupList
  mem : ∀ g, g ∈ groups r.2.groupList ↔ g ∈ groups s.groupList ∨ .roiBegin g ∈ f.instrs bb
  lists : ∀ g, blocksOf g r.2.groupList = blocksOf g s.groupList ++
    if g ∈ openGroups t ∨ .roiBegin g ∈ f.instrs bb then [bb] else []
  code : r.2.code = Function.update s.code bb ((f.instrs bb).flatMap
    (withOpenEnd (fun g => g ∈ openGroups t ∨ .roiBegin g ∈ f.instrs bb) (regionID base (groups r.2.groupList))))

theorem pieceRecorded_recordBlock (f : MarkedFunction β) (base : Nat) (bb : β) {idStack : BlockLists β}
    {s : RecordState β} {t : List Instr} (h : HoldsOpen t idStack s.groupList) (hpiece : IsPiece (f.instrs bb)) :
    PieceRecorded f base bb t s (recordBlock f base bb idStack s) := by
  have hbegins := beginsRecorded_foldl bb (f.instrs bb) (s := (idStack, s.groupList)) h.toKeysOk
  unfold recordBlock
  generalize (f.instrs bb).foldl (recordBegin bb) (idStack, s.groupList) = r at hbegins
  obtain ⟨hgroups, hlists⟩ := addToOpenGroups_spec bb hbegins.keys.stack hbegins.keys.seen
  obtain ⟨hstack, hlen⟩ := groups_recordEnds base (addToOpenGroups bb r.1 r.2) (f.instrs bb) r.1
  have hcode := code_recordEnds base (addToOpenGroups bb r.1 r.2) hpiece r.1
  -- a list is empty exactly when the group is neither open on arrival nor opened by the block
  have hopen : ∀ g, blocksOf g r.1 = [] ↔ ¬ (g ∈ openGroups t ∨ .roiBegin g ∈ f.instrs bb) := by
    intro g
    have hopened := hbegins.opened g
    dsimp only at hopened
    rw [← List.length_eq_zero_iff, hopened, h.length g, ← List.count_pos_iff, ← List.count_pos_iff]
    omega
  dsimp only
  refine ⟨⟨⟨?_, ?_, ?_⟩, fun g => ?_⟩, ?_, fun g => ?_, fun g => ?_, ?_⟩
  · rw [hstack]
    exact hbegins.keys.stack
  · rw [hgroups]
    exact hbegins.keys.list
  · rw [hstack, hgroups]
    exact hbegins.keys.seen
  · have hopened := hbegins.opened g
    dsimp only at hopened
    rw [hlen g, openGroups_append, count_foldl_stepOpen hpiece, hopened, h.length g]
  · rw [hgroups]
    exact hbegins.order
  · rw [hgroups]
    exact hbegins.mem g
  · rw [hlists g, hbegins.lists g]
    congr 1
    by_cases hg : g ∈ openGroups t ∨ .roiBegin g ∈ f.instrs bb
    · rw [if_pos hg, if_neg fun hnil => (hopen g).mp hnil hg]
    · rw [if_neg hg, if_pos ((hopen g).mpr hg)]
  · have hisOpen : (fun g => !(blocksOf g r.1).isEmpty) =
        fun g => decide (g ∈ openGroups t ∨ .roiBegin g ∈ f.instrs bb) := by
      funext g
      rw [Bool.eq_iff_iff, decide_eq_true_eq, Bool.not_eq_true', List.isEmpty_eq_false_iff, Ne, hopen g, not_not]
    rw [hcode, hisOpen]

/-! ### The whole walk -/

/-- The stack is handed on with the path that leads to the block. -/
private def ArrivesOpen (f : MarkedFunction β) (x : β) (idStack : BlockLists β) (s : RecordState β) : Prop :=
  ∃ u, f.graph.Walk f.graph.entry (u ++ [x]) x ∧ HoldsOpen (f.trace u) idStack s.groupList

/-- What holds of the state between two blocks. -/
private structure MemberInv (f : MarkedFunction β) (base : Nat) (s : RecordState β) : Prop where
  nodup : (groups s.groupList).Nodup
  reachable : ∀ x ∈ s.visited, f.graph.Reachable x
  mem_groups : ∀ g, g ∈ groups s.groupList ↔ ∃ x ∈ s.visited, .roiBegin g ∈ f.instrs x
  lists_nodup : ∀ g, (blocksOf g s.groupList).Nodup
  lists_visited : ∀ g, ∀ x ∈ blocksOf g s.groupList, x ∈ s.visited
  lists_groups : ∀ g, ∀ x ∈ blocksOf g s.groupList, g ∈ groups s.groupList
  arrival : ∀ x ∈ s.visited, ∃ u, f.graph.Walk f.graph.entry (u ++ [x]) x ∧
    ∀ g, x ∈ blocksOf g s.groupList ↔ g ∈ openGroups (f.trace u) ∨ .roiBegin g ∈ f.instrs x
  code : ∀ x ∈ s.visited, s.code x = (f.instrs x).flatMap
    (withOpenEnd (fun g => x ∈ blocksOf g s.groupList) (regionID base (groups s.groupList)))

omit [DecidableEq β] in
/-- Groups seen later do not change the id of a group seen before. -/
theorem regionID_of_extended (base : Nat) {l m : List Nat} (h : l <+: m) {g : Nat} (hg : g ∈ l) :
    regionID base m g = regionID base l g := by
  obtain ⟨k, rfl⟩ := h
  rw [regionID, regionID, List.idxOf_append, if_pos hg]

omit [DecidableEq β] in
/-- The code depends only on which groups are open, and on the ids of those. -/
theorem flatMap_withOpenEnd_congr {l : List Instr} {isOpen isOpen' : Nat → Bool} {id id' : Nat → Nat}
    (h : ∀ g, isOpen g = isOpen' g) (hid : ∀ g, isOpen g = true → id g = id' g) :
    l.flatMap (withOpenEnd isOpen id) = l.flatMap (withOpenEnd isOpen' id') := by
  refine List.flatMap_congr fun i _ => ?_
  cases i with
  | roiEnd g =>
    simp only [withOpenEnd, ← h g]
    split
    · rename_i hopen
      rw [hid g hopen]
    · rfl
  | roiBegin g => rfl
  | other => rfl

private theorem PieceRecorded.mem_blocksOf {f : MarkedFunction β} {base : Nat} {bb : β} {t : List Instr}
    {s : RecordState β} {r : BlockLists β × RecordState β} (h : PieceRecorded f base bb t s r) (g : Nat) (x : β) :
    x ∈ blocksOf g r.2.groupList ↔ x ∈ blocksOf g s.groupList ∨
      x = bb ∧ (g ∈ openGroups t ∨ .roiBegin g ∈ f.instrs bb) := by
  rw [h.lists g, List.mem_append]
  split
  · rename_i hopen
    simp [hopen]
  · rename_i hopen
    simp [hopen]

/-- One block keeps the invariant. -/
private theorem MemberInv.next {f : MarkedFunction β} {base : Nat} {bb : β} {idStack : BlockLists β}
    {s : RecordState β} {r : BlockLists β × RecordState β} {u : List β} (hinv : MemberInv f base s)
    (hbb : bb ∉ s.visited) (hu : f.graph.Walk f.graph.entry (u ++ [bb]) bb)
    (hstack : HoldsOpen (f.trace u) idStack s.groupList) (hblock : PieceRecorded f base bb (f.trace u) s r)
    (hvisited : r.2.visited = bb :: s.visited) : MemberInv f base r.2 := by
  have hmem : ∀ x, x ∈ r.2.visited ↔ x = bb ∨ x ∈ s.visited := fun x => by rw [hvisited, List.mem_cons]
  have hnew : ∀ g, bb ∉ blocksOf g s.groupList := fun g hin => hbb (hinv.lists_visited g bb hin)
  have hne : ∀ x ∈ s.visited, x ≠ bb := fun x hx heq => hbb (heq ▸ hx)
  -- a group open in the block has been seen
  have hseen : ∀ g, g ∈ openGroups (f.trace u) ∨ .roiBegin g ∈ f.instrs bb → g ∈ groups r.2.groupList := by
    rintro g (hg | hg)
    · exact hblock.order.subset (hstack.mem_groups hg)
    · exact (hblock.mem g).mpr (.inr hg)
  refine ⟨hblock.stack.list, fun x hx => ?_, fun g => ?_, fun g => ?_, fun g x hx => ?_, fun g x hx => ?_,
    fun x hx => ?_, fun x hx => ?_⟩
  · rcases (hmem x).mp hx with rfl | hx
    · exact ⟨_, hu⟩
    · exact hinv.reachable x hx
  · rw [hblock.mem, hinv.mem_groups]
    constructor
    · rintro (⟨x, hx, hg⟩ | hg)
      · exact ⟨x, (hmem x).mpr (.inr hx), hg⟩
      · exact ⟨bb, (hmem bb).mpr (.inl rfl), hg⟩
    · rintro ⟨x, hx, hg⟩
      rcases (hmem x).mp hx with rfl | hx
      · exact .inr hg
      · exact .inl ⟨x, hx, hg⟩
  · rw [hblock.lists g]
    split
    · exact List.Nodup.append (hinv.lists_nodup g) (List.nodup_singleton bb) (by simpa using hnew g)
    · rw [List.append_nil]
      exact hinv.lists_nodup g
  · rw [hmem]
    rcases (hblock.mem_blocksOf g x).mp hx with hx | ⟨rfl, -⟩
    · exact .inr (hinv.lists_visited g x hx)
    · exact .inl rfl
  · rcases (hblock.mem_blocksOf g x).mp hx with hx | ⟨-, hg⟩
    · exact hblock.order.subset (hinv.lists_groups g x hx)
    · exact hseen g hg
  · rcases (hmem x).mp hx with rfl | hx
    · refine ⟨u, hu, fun g => ?_⟩
      rw [hblock.mem_blocksOf]
      simp [hnew g]
    · obtain ⟨v, hv, hiff⟩ := hinv.arrival x hx
      refine ⟨v, hv, fun g => ?_⟩
      rw [hblock.mem_blocksOf, ← hiff g]
      simp [hne x hx]
  · rcases (hmem x).mp hx with rfl | hx
    · rw [hblock.code, Function.update_self]
      refine flatMap_withOpenEnd_congr (fun g => ?_) fun _ _ => rfl
      simp [hblock.mem_blocksOf, hnew g]
    · rw [hblock.code, Function.update_of_ne (hne x hx), hinv.code x hx]
      refine flatMap_withOpenEnd_congr (fun g => ?_) fun g hg => ?_
      · simp [hblock.mem_blocksOf, hne x hx]
      · exact (regionID_of_extended base hblock.order (hinv.lists_groups g x (by simpa using hg))).symm

private theorem sound_memberWalk {f : MarkedFunction β} (hpieces : ∀ x, f.graph.Reachable x → IsPiece (f.instrs x))
    (base : Nat) : (recordWalk f base).Sound (MemberInv f base) (ArrivesOpen f) := by
  have hblock : ∀ {bb : β} {idStack : BlockLists β} {s : RecordState β} {u : List β},
      f.graph.Walk f.graph.entry (u ++ [bb]) bb → HoldsOpen (f.trace u) idStack s.groupList →
        PieceRecorded f base bb (f.trace u) s (recordBlock f base bb idStack s) :=
    fun hu hstack => pieceRecorded_recordBlock f base _ hstack (hpieces _ ⟨_, hu⟩)
  refine ⟨fun _ _ _ => rfl, ?_, ?_, ?_, fun _ _ _ _ _ => rfl⟩
  · rintro bb idStack s hbb ⟨u, hu, hstack⟩ hinv
    exact hinv.next hbb hu hstack (hblock hu hstack) rfl
  · rintro bb idStack s hbb ⟨u, hu, hstack⟩ hinv child hchild
    refine ⟨u ++ [bb], hu.concat hchild (.single child), ?_⟩
    rw [MarkedFunction.trace_append, MarkedFunction.trace_singleton]
    exact (hblock hu hstack).stack
  · rintro bb idStack s hbb ⟨u, hu, hstack⟩ hinv x stk ⟨v, hv, hstk⟩
    have hrecorded := hblock hu hstack
    exact ⟨v, hv, ⟨⟨hstk.stack, hrecorded.stack.list, fun g hg => hrecorded.order.subset (hstk.seen hg)⟩,
      hstk.length⟩⟩

/-- The groups of a function and their blocks: each block in which the group is open once, and no other; every end
marker of an open group has the exit call in front. -/
structure Members (f : MarkedFunction β) (base : Nat) (s : RecordState β) : Prop where
  nodup : (groups s.groupList).Nodup
  mem_groups : ∀ g, g ∈ groups s.groupList ↔ ∃ x, f.graph.Reachable x ∧ .roiBegin g ∈ f.instrs x
  lists_nodup : ∀ g, (blocksOf g s.groupList).Nodup
  mem_blocksOf : ∀ x g, x ∈ blocksOf g s.groupList ↔ OpenInBlock f x g
  lists_groups : ∀ g, ∀ x ∈ blocksOf g s.groupList, g ∈ groups s.groupList
  code : ∀ x, f.graph.Reachable x → ∃ isOpen,
    s.code x = (f.instrs x).flatMap (withOpenEnd isOpen (regionID base (groups s.groupList))) ∧
      ∀ g, isOpen g = true ↔ OpenInBlock f x g

omit [DecidableEq β] in
private theorem arrivesOpen_entry (f : MarkedFunction β) :
    ArrivesOpen f f.graph.entry [] ⟨[], [], fun b => (f.instrs b).map .instr⟩ :=
  ⟨[], .single _, ⟨⟨by simp, by simp, by simp⟩, by simp [blocksOf, openGroups]⟩⟩

private theorem memberInv_start (f : MarkedFunction β) (base : Nat) :
    MemberInv f base ⟨[], [], fun b => (f.instrs b).map .instr⟩ :=
  ⟨by simp, by simp, by simp, by simp [blocksOf], by simp [blocksOf], by simp [blocksOf], by simp, by simp⟩

/-- `recordPragmaRegions`, on split blocks and with the same groups open on all paths. -/
theorem members_of_recordFunction {f : MarkedFunction β} (hpieces : ∀ x, f.graph.Reachable x → IsPiece (f.instrs x))
    (hsame : SameOpenGroups f) {base fuel : Nat} {s : RecordState β} (hrun : recordFunction f base fuel = some s) :
    Members f base s := by
  have hwalk := (recordPragmaRegions_eq_walk f base _ _ _ _).symm.trans hrun
  obtain ⟨hwalked, hmem⟩ := (sound_memberWalk hpieces base).walk List.not_mem_nil (arrivesOpen_entry f)
    (memberInv_start f base) hwalk
  have hinv := hwalked.holds
  have hvisited : ∀ x, f.graph.Reachable x → x ∈ s.visited := by
    rintro x ⟨w, hw⟩
    refine hw.mem_of_closed (fun y hy z hz => ?_) hmem
    rcases hwalked.closed y hy with hnil | hsucc
    · exact absurd hnil List.not_mem_nil
    · exact hsucc z hz
  -- the block is in the list over the path that reached it first, and so over every path
  have hiff : ∀ x g, x ∈ blocksOf g s.groupList ↔ OpenInBlock f x g := by
    intro x g
    constructor
    · intro hx
      obtain ⟨u, hu, hopen⟩ := hinv.arrival x (hinv.lists_visited g x hx)
      exact ⟨u, hu, (hopen g).mp hx⟩
    · rintro ⟨v, hv, hopen⟩
      obtain ⟨u, hu, hmem⟩ := hinv.arrival x (hvisited x ⟨_, hv⟩)
      rw [hmem g, hsame hu hv]
      exact hopen
  refine ⟨hinv.nodup, fun g => ?_, hinv.lists_nodup, hiff, hinv.lists_groups,
    fun x hx => ⟨_, hinv.code x (hvisited x hx), fun g => by rw [decide_eq_true_eq, hiff x g]⟩⟩
  · rw [hinv.mem_groups]
    constructor
    · rintro ⟨x, hx, hg⟩
      exact ⟨x, hinv.reachable x hx, hg⟩
    · rintro ⟨x, hx, hg⟩
      exact ⟨x, hvisited x hx, hg⟩

/-- `recordPragmaRegions` ends. -/
theorem exists_recordFunction {f : MarkedFunction β} (hpieces : ∀ x, f.graph.Reachable x → IsPiece (f.instrs x))
    (base : Nat) {nodes : List β} (hnodes : ∀ x, f.graph.Reachable x → x ∈ nodes) {fuel : Nat}
    (hfuel : nodes.length ≤ fuel) : ∃ s, recordFunction f base fuel = some s := by
  obtain ⟨s, hs⟩ :=
    (sound_memberWalk hpieces base).exists_walk nodes (fun x _ _ ⟨_, hu, _⟩ _ => hnodes x ⟨_, hu⟩) hfuel
    List.not_mem_nil (arrivesOpen_entry f) (memberInv_start f base)
  exact ⟨s, (recordPragmaRegions_eq_walk f base _ _ _ _).trans hs⟩

/-! ### The functions of a module -/

omit [DecidableEq β] in
/-- The pieces are reached with the same groups open on all paths, as the blocks are. -/
theorem SplitInto.sameOpenGroups {f : MarkedFunction β} {f' : MarkedFunction (β × Nat)} (h : SplitInto f f')
    (hsame : SameOpenGroups f) : SameOpenGroups f' := by
  have htrace : ∀ {u y}, f'.graph.Walk f'.graph.entry (u ++ [y]) y → ∃ v,
    f.graph.Walk f.graph.entry (v ++ [y.1]) y.1 ∧
      f'.trace u = f.trace v ++ ((splitInstrs (f.instrs y.1)).take y.2).flatten := by
    intro u y hu
    obtain ⟨v, hv, -, heq⟩ := h.of_walk hu
    obtain ⟨hlt, hpiece⟩ := List.getElem?_eq_some_iff.mp (h.piece y ⟨_, hu⟩)
    refine ⟨v, hv, ?_⟩
    rw [MarkedFunction.trace_append, MarkedFunction.trace_singleton, List.take_succ_eq_append_getElem hlt,
      List.flatten_append, List.flatten_singleton, hpiece, ← List.append_assoc] at heq
    exact List.append_cancel_right heq
  intro u v y hu hv
  obtain ⟨u', hu', htu⟩ := htrace hu
  obtain ⟨v', hv', htv⟩ := htrace hv
  rw [htu, htv, openGroups_append, openGroups_append, hsame hu' hv']

/-- A function of the module; a declaration has no blocks. -/
structure SourceFunction (α β : Type*) where
  name : α
  blocks : List β
  code : MarkedFunction β
  entry_mem : blocks ≠ [] → code.graph.entry ∈ blocks
  succs_mem : ∀ x ∈ blocks, ∀ y ∈ code.graph.succs x, y ∈ blocks

/-- `detectPragma`. -/
def SourceFunction.detectPragma (F : SourceFunction α β) : Bool :=
  F.blocks.any fun b => (F.code.instrs b).any Instr.isBegin

structure SourceModule (α β : Type*) where
  functions : List (SourceFunction α β)
  names_nodup : (functions.map SourceFunction.name).Nodup

/-- What is left of a function with markers: its split blocks, and their code with the exit calls. -/
structure ParsedFunction (β : Type*) where
  split : MarkedFunction (β × Nat)
  code : β × Nat → List CodeItem

/-- `PRList`, and the functions that have been parsed. -/
structure IdentifyState (α β : Type*) where
  prList : List (PragmaRegion α (β × Nat)) := []
  parsed : List (SourceFunction α β × ParsedFunction β) := []

/-- The body of the loop over `BasicBlockGroupList`: the region gets the next id. -/
def pushRegion {γ : Type*} (F : α) (prList : List (PragmaRegion α γ)) (group : Nat × List γ) :
    List (PragmaRegion α γ) :=
  prList ++ [{ pragmaRegionID := prList.length, groupID := group.1, F := F, bbList := group.2 }]

/-- `runOnFunction` of a selective scan. -/
def runOnFunction (fuel : Nat) (s : IdentifyState α β) (F : SourceFunction α β) : Option (IdentifyState α β) :=
  if F.blocks.isEmpty || !F.detectPragma then some s
  else
    (splitInstrumentedBlocks F.code fuel).bind fun split =>
      (recordFunction split s.prList.length fuel).map fun r =>
        { prList := r.groupList.foldl (pushRegion F.name) s.prList
          parsed := s.parsed ++ [(F, ⟨split, r.code⟩)] }

/-- The loop of `runOnModule` that identifies the regions. -/
def identifyRegions (fuel : Nat) (m : SourceModule α β) : Option (IdentifyState α β) :=
  m.functions.foldlM (runOnFunction fuel) {}

/-- The regions of one parsed function: the split keeps its paths, each group with a begin marker has one region, with
the blocks in which it is open, and the exit calls carry the ids of the regions. -/
structure FunctionRegions (prList : List (PragmaRegion α (β × Nat))) (F : SourceFunction α β)
    (p : ParsedFunction β) : Prop where
  split : SplitInto F.code p.split
  exists_region : ∀ g, (∃ x, p.split.graph.Reachable x ∧ .roiBegin g ∈ p.split.instrs x) ↔
    ∃ PR ∈ prList, PR.F = F.name ∧ PR.groupID = g
  eq_of_group : ∀ PR ∈ prList, ∀ PR' ∈ prList, PR.F = F.name → PR'.F = F.name → PR.groupID = PR'.groupID → PR = PR'
  blocks_nodup : ∀ PR ∈ prList, PR.F = F.name → PR.bbList.Nodup
  mem_blocks : ∀ PR ∈ prList, PR.F = F.name → ∀ x, x ∈ PR.bbList ↔ OpenInBlock p.split x PR.groupID
  code : ∀ x, p.split.graph.Reachable x → ∃ isOpen id,
    p.code x = (p.split.instrs x).flatMap (withOpenEnd isOpen id) ∧ ∀ g, (isOpen g = true ↔ OpenInBlock p.split x g) ∧
      (isOpen g = true → ∃ PR ∈ prList, PR.F = F.name ∧ PR.groupID = g ∧ PR.pragmaRegionID = id g)

/-- The regions of the functions gone through so far. -/
structure RegionsIdentified (functions : List (SourceFunction α β)) (s : IdentifyState α β) : Prop where
  ids : s.prList.map PragmaRegion.pragmaRegionID = List.range s.prList.length
  ids_nodup : (s.prList.map PragmaRegion.pragmaRegionID).Nodup
  names : ∀ PR ∈ s.prList, ∃ F ∈ functions, PR.F = F.name
  parsed_iff : ∀ F ∈ functions, (∃ p, (F, p) ∈ s.parsed) ↔ F.blocks ≠ [] ∧ F.detectPragma = true
  parsed_mem : ∀ e ∈ s.parsed, e.1 ∈ functions
  regions : ∀ e ∈ s.parsed, FunctionRegions s.prList e.1 e.2

theorem foldl_pushRegion {γ : Type*} (F : α) (l : BlockLists γ) (prList : List (PragmaRegion α γ)) :
    l.foldl (pushRegion F) prList =
      prList ++ (l.zipIdx prList.length).map fun e => ⟨e.2, e.1.1, F, e.1.2⟩ := by
  induction l generalizing prList with
  | nil => simp
  | cons e l ih =>
    rw [List.foldl_cons, ih]
    simp [pushRegion, List.zipIdx_cons]

/-- The regions that are added are those of the groups, each with its blocks and the id that its exit calls have. -/
theorem mem_foldl_pushRegion {γ : Type*} {F : α} {l : BlockLists γ} (hnodup : (groups l).Nodup)
    {prList : List (PragmaRegion α γ)} {PR : PragmaRegion α γ} : PR ∈ l.foldl (pushRegion F) prList ↔
      PR ∈ prList ∨ PR.groupID ∈ groups l ∧
        PR = ⟨regionID prList.length (groups l) PR.groupID, PR.groupID, F, blocksOf PR.groupID l⟩ := by
  have hmem : ∀ e : (Nat × List γ) × Nat, e ∈ l.zipIdx prList.length ↔ e.1.1 ∈ groups l ∧
      e = ((e.1.1, blocksOf e.1.1 l), (groups l).idxOf e.1.1 + prList.length) := by
    intro e
    have hfilter : e ∈ l.zipIdx prList.length ↔ e ∈ (l.zipIdx prList.length).filter fun e' => e'.1.1 = e.1.1 := by
      simp [List.mem_filter]
    rw [hfilter, filter_zipIdx hnodup]
    split
    · rename_i hg
      simp [hg]
    · rename_i hg
      simp [hg]
  rw [foldl_pushRegion, List.mem_append, List.mem_map]
  refine or_congr_right ⟨?_, fun ⟨hg, heq⟩ => ?_⟩
  · rintro ⟨e, he, rfl⟩
    obtain ⟨hg, heq⟩ := (hmem e).mp he
    refine ⟨hg, ?_⟩
    dsimp only
    rw [regionID, Nat.add_comm, congrArg (fun e : (Nat × List γ) × Nat => e.1.2) heq,
      congrArg (fun e : (Nat × List γ) × Nat => e.2) heq]
  · refine ⟨((PR.groupID, blocksOf PR.groupID l), (groups l).idxOf PR.groupID + prList.length),
      (hmem _).mpr ⟨hg, rfl⟩, ?_⟩
    rw [heq]
    simp [regionID, Nat.add_comm]

theorem ids_foldl_pushRegion {γ : Type*} {F : α} (l : BlockLists γ) {prList : List (PragmaRegion α γ)}
    (h : prList.map PragmaRegion.pragmaRegionID = List.range prList.length) :
    (l.foldl (pushRegion F) prList).map PragmaRegion.pragmaRegionID =
      List.range (l.foldl (pushRegion F) prList).length := by
  induction l generalizing prList with
  | nil => exact h
  | cons e l ih =>
    refine ih ?_
    simp [pushRegion, h, List.range_succ]

/-- The regions of a function that has just been parsed. -/
private theorem functionRegions_new {F : SourceFunction α β} (hsame : SameOpenGroups F.code)
    {prList : List (PragmaRegion α (β × Nat))} (hfresh : ∀ PR ∈ prList, PR.F ≠ F.name) {fuel : Nat}
    {split : MarkedFunction (β × Nat)} (hsplit : splitInstrumentedBlocks F.code fuel = some split)
    {r : RecordState (β × Nat)} (hrecord : recordFunction split prList.length fuel = some r) :
    (groups r.groupList).Nodup ∧
      FunctionRegions (r.groupList.foldl (pushRegion F.name) prList) F ⟨split, r.code⟩ := by
  have hinto := splitInto_of_run hsplit
  have hmembers := members_of_recordFunction hinto.isPiece (hinto.sameOpenGroups hsame) hrecord
  -- the regions of this function are the new ones
  have hregion : ∀ PR, PR.F = F.name → (PR ∈ r.groupList.foldl (pushRegion F.name) prList ↔
      PR.groupID ∈ groups r.groupList ∧ PR = ⟨regionID prList.length (groups r.groupList) PR.groupID, PR.groupID,
        F.name, blocksOf PR.groupID r.groupList⟩) := by
    intro PR hF
    rw [mem_foldl_pushRegion hmembers.nodup]
    exact or_iff_right fun hmem => hfresh PR hmem hF
  have hblocks : ∀ PR ∈ r.groupList.foldl (pushRegion F.name) prList, PR.F = F.name →
      PR.bbList = blocksOf PR.groupID r.groupList := fun PR hPR hF =>
    congrArg PragmaRegion.bbList ((hregion PR hF).mp hPR).2
  have hnew : ∀ g ∈ groups r.groupList, (⟨regionID prList.length (groups r.groupList) g, g, F.name,
      blocksOf g r.groupList⟩ : PragmaRegion α (β × Nat)) ∈ r.groupList.foldl (pushRegion F.name) prList :=
    fun g hg => (hregion _ rfl).mpr ⟨hg, rfl⟩
  refine ⟨hmembers.nodup, hinto, fun g => ?_, fun PR hPR PR' hPR' hF hF' hg => ?_, fun PR hPR hF => ?_,
    fun PR hPR hF x => ?_, fun x hx => ?_⟩
  · rw [← hmembers.mem_groups]
    constructor
    · exact fun hg => ⟨_, hnew g hg, rfl, rfl⟩
    · rintro ⟨PR, hPR, hF, rfl⟩
      exact ((hregion PR hF).mp hPR).1
  · rw [((hregion PR hF).mp hPR).2, ((hregion PR' hF').mp hPR').2, hg]
  · rw [hblocks PR hPR hF]
    exact hmembers.lists_nodup _
  · rw [hblocks PR hPR hF]
    exact hmembers.mem_blocksOf x _
  · obtain ⟨isOpen, hcode, hopen⟩ := hmembers.code x hx
    refine ⟨isOpen, _, hcode, fun g => ⟨hopen g, fun hg => ?_⟩⟩
    have hmem := (hmembers.mem_blocksOf x g).mpr ((hopen g).mp hg)
    exact ⟨_, hnew g (hmembers.lists_groups g x hmem), rfl, rfl, rfl⟩

omit [DecidableEq β] in
/-- Regions of other functions change nothing. -/
private theorem FunctionRegions.append {F : SourceFunction α β} {p : ParsedFunction β}
    {prList prList' : List (PragmaRegion α (β × Nat))} (h : FunctionRegions prList F p)
    (hmem : ∀ PR, PR.F = F.name → (PR ∈ prList' ↔ PR ∈ prList)) : FunctionRegions prList' F p := by
  have hold : ∀ PR ∈ prList', PR.F = F.name → PR ∈ prList := fun PR hPR hF => (hmem PR hF).mp hPR
  refine ⟨h.split, fun g => ?_,
    fun PR hPR PR' hPR' hF hF' => h.eq_of_group PR (hold PR hPR hF) PR' (hold PR' hPR' hF') hF hF',
    fun PR hPR hF => h.blocks_nodup PR (hold PR hPR hF) hF, fun PR hPR hF => h.mem_blocks PR (hold PR hPR hF) hF,
    fun x hx => ?_⟩
  · rw [h.exists_region g]
    exact exists_congr fun PR => ⟨fun ⟨hPR, hF, hg⟩ => ⟨(hmem PR hF).mpr hPR, hF, hg⟩,
      fun ⟨hPR, hF, hg⟩ => ⟨(hmem PR hF).mp hPR, hF, hg⟩⟩
  · obtain ⟨isOpen, id, hcode, hopen⟩ := h.code x hx
    refine ⟨isOpen, id, hcode, fun g => ⟨(hopen g).1, fun hg => ?_⟩⟩
    obtain ⟨PR, hPR, hF, hrest⟩ := (hopen g).2 hg
    exact ⟨PR, (hmem PR hF).mpr hPR, hF, hrest⟩

/-- One function. -/
private theorem RegionsIdentified.next {fuel : Nat} {functions : List (SourceFunction α β)} {F : SourceFunction α β}
    {s s' : IdentifyState α β} (h : RegionsIdentified functions s) (hname : ∀ F' ∈ functions, F'.name ≠ F.name)
    (hsame : SameOpenGroups F.code) (hrun : runOnFunction fuel s F = some s') :
    RegionsIdentified (functions ++ [F]) s' := by
  have hnew : ∀ p, (F, p) ∉ s.parsed := fun p hp => hname F (h.parsed_mem _ hp) rfl
  unfold runOnFunction at hrun
  split at hrun
  · rename_i hskip
    obtain rfl := Option.some.inj hrun
    refine ⟨h.ids, h.ids_nodup, fun PR hPR => ?_, fun F' hF' => ?_,
      fun e he => List.mem_append_left _ (h.parsed_mem e he),
      h.regions⟩
    · obtain ⟨F', hF', heq⟩ := h.names PR hPR
      exact ⟨F', List.mem_append_left _ hF', heq⟩
    · rcases List.mem_append.mp hF' with hF' | hF'
      · exact h.parsed_iff F' hF'
      · rw [List.mem_singleton] at hF'
        subst hF'
        refine iff_of_false (fun ⟨p, hp⟩ => hnew p hp) ?_
        simpa [or_iff_not_imp_left] using hskip
  · rename_i hmarked
    obtain ⟨split, hsplit, hrest⟩ := Option.bind_eq_some_iff.mp hrun
    obtain ⟨r, hr, rfl⟩ := Option.map_eq_some_iff.mp hrest
    have hfresh : ∀ PR ∈ s.prList, PR.F ≠ F.name := by
      intro PR hPR heq
      obtain ⟨F', hF', hname'⟩ := h.names PR hPR
      exact hname F' hF' (hname'.symm.trans heq)
    obtain ⟨hnodup, hregions⟩ := functionRegions_new hsame hfresh hsplit hr
    have hids := ids_foldl_pushRegion (F := F.name) r.groupList h.ids
    refine ⟨hids, ?_, fun PR hPR => ?_, fun F' hF' => ?_, fun e he => ?_, fun e he => ?_⟩
    · rw [hids]
      exact List.nodup_range
    · rcases (mem_foldl_pushRegion hnodup).mp hPR with hPR | ⟨-, heq⟩
      · obtain ⟨F', hF', hname'⟩ := h.names PR hPR
        exact ⟨F', List.mem_append_left _ hF', hname'⟩
      · exact ⟨F, by simp, congrArg PragmaRegion.F heq⟩
    · rcases List.mem_append.mp hF' with hF' | hF'
      · rw [← h.parsed_iff F' hF']
        refine exists_congr fun p => ?_
        have hne : F' ≠ F := fun heq => hname F' hF' (congrArg SourceFunction.name heq)
        simp [hne]
      · rw [List.mem_singleton] at hF'
        subst hF'
        refine iff_of_true ⟨⟨split, r.code⟩, by simp⟩ ?_
        simpa [not_or] using hmarked
    · rcases List.mem_append.mp he with he | he
      · exact List.mem_append_left _ (h.parsed_mem e he)
      · rw [List.mem_singleton] at he
        subst he
        simp
    · rcases List.mem_append.mp he with he | he
      · refine (h.regions e he).append fun PR hF => ?_
        rw [mem_foldl_pushRegion hnodup]
        refine or_iff_left ?_
        rintro ⟨-, heq⟩
        refine hname e.1 (h.parsed_mem e he) (hF.symm.trans ?_)
        exact congrArg PragmaRegion.F heq
      · rw [List.mem_singleton] at he
        subst he
        exact hregions

private theorem regionsIdentified_foldlM {fuel : Nat} {functions rest : List (SourceFunction α β)}
    {s s' : IdentifyState α β} (h : RegionsIdentified functions s)
    (hnames : ((functions ++ rest).map SourceFunction.name).Nodup)
    (hsame : ∀ F ∈ rest, SameOpenGroups F.code) (hrun : rest.foldlM (runOnFunction fuel) s = some s') :
    RegionsIdentified (functions ++ rest) s' := by
  induction rest generalizing functions s with
  | nil =>
    simp only [List.foldlM_nil, Option.pure_def, Option.some.injEq] at hrun
    rwa [List.append_nil, ← hrun]
  | cons F rest ih =>
    rw [List.foldlM_cons, Option.bind_eq_bind] at hrun
    obtain ⟨s1, hs1, hrest⟩ := Option.bind_eq_some_iff.mp hrun
    have hname : ∀ F' ∈ functions, F'.name ≠ F.name := by
      intro F' hF' heq
      rw [List.map_append, List.nodup_append] at hnames
      exact hnames.2.2 _ (List.mem_map_of_mem hF') _ (by simp) heq
    have hnext := h.next hname (hsame F List.mem_cons_self) hs1
    rw [List.append_cons] at hnames ⊢
    exact ih hnext hnames (fun F' hF' => hsame F' (List.mem_cons_of_mem F hF')) hrest

omit [DecidableEq β] in
/-- The pieces of the blocks are all that is reached. -/
private theorem mem_pieceBlocks_of_reachable {F : SourceFunction α β} (hne : F.blocks ≠ [])
    {split : MarkedFunction (β × Nat)} (h : SplitInto F.code split) {x : β × Nat} (hx : split.graph.Reachable x) :
    x ∈ F.blocks.flatMap (pieceBlocks F.code) := by
  obtain ⟨hlt, -⟩ := List.getElem?_eq_some_iff.mp (h.piece x hx)
  obtain ⟨w, hw⟩ := hx
  obtain ⟨v, hv, -⟩ := h.of_walk hw
  exact List.mem_flatMap.mpr ⟨x.1, hv.mem_of_closed F.succs_mem (F.entry_mem hne),
    List.mem_map.mpr ⟨x.2, List.mem_range.mpr hlt, rfl⟩⟩

/-- As many nested calls as there are pieces suffice for a function. -/
private theorem exists_runOnFunction (F : SourceFunction α β) (s : IdentifyState α β) {fuel : Nat}
    (hfuel : splitCount F.code F.blocks ≤ fuel) : ∃ s', runOnFunction fuel s F = some s' := by
  unfold runOnFunction
  split
  · exact ⟨s, rfl⟩
  · rename_i hmarked
    have hne : F.blocks ≠ [] := by
      intro hnil
      simp [hnil] at hmarked
    obtain ⟨split, hsplit⟩ := exists_splitInstrumentedBlocks F.code (F.entry_mem hne) F.succs_mem hfuel
    have hinto := splitInto_of_run hsplit
    have hlen : (F.blocks.flatMap (pieceBlocks F.code)).length ≤ fuel := by
      simpa [List.length_flatMap, pieceBlocks, splitCount] using hfuel
    obtain ⟨r, hr⟩ := exists_recordFunction hinto.isPiece s.prList.length
      (fun x hx => mem_pieceBlocks_of_reachable hne hinto hx) hlen
    rw [hsplit, Option.bind_some, hr]
    exact ⟨_, rfl⟩

private theorem exists_foldlM_runOnFunction (rest : List (SourceFunction α β)) {fuel : Nat}
    (hfuel : (rest.map fun F => splitCount F.code F.blocks).sum ≤ fuel) (s : IdentifyState α β) :
    ∃ s', rest.foldlM (runOnFunction fuel) s = some s' := by
  induction rest generalizing s with
  | nil => exact ⟨s, rfl⟩
  | cons F rest ih =>
    rw [List.map_cons, List.sum_cons] at hfuel
    have hF : splitCount F.code F.blocks ≤ fuel := by omega
    obtain ⟨s1, hs1⟩ := exists_runOnFunction F s hF
    rw [List.foldlM_cons, Option.bind_eq_bind, hs1, Option.bind_some]
    exact ih (by omega) s1

/-- Where all paths to a point have the same groups open, the regions are identified, whatever the order in which the
blocks are reached: the blocks are cut at the markers, each group of a function has one region with the blocks in
which it is open, and its exit calls carry the id that the region gets. -/
theorem identifyRegions_members (m : SourceModule α β) (hsame : ∀ F ∈ m.functions, SameOpenGroups F.code) :
    (∃ fuel s, identifyRegions fuel m = some s) ∧
      ∀ fuel s, identifyRegions fuel m = some s → RegionsIdentified m.functions s := by
  constructor
  · obtain ⟨s, hs⟩ := exists_foldlM_runOnFunction m.functions le_rfl {}
    exact ⟨_, s, hs⟩
  · intro fuel s hrun
    have hstart : RegionsIdentified ([] : List (SourceFunction α β)) ({} : IdentifyState α β) :=
      ⟨rfl, by simp, by simp, by simp, by simp, by simp⟩
    exact regionsIdentified_foldlM hstart m.names_nodup hsame hrun

omit [DecidableEq β] in
/-- Stacks that fit block by block. -/
theorem SameOpenGroups.of_stacks {f : MarkedFunction β} (stk : β → List Nat) (hentry : stk f.graph.entry = [])
    (hedge : ∀ x, ∀ y ∈ f.graph.succs x, stk y = (f.instrs x).foldl stepOpen (stk x)) : SameOpenGroups f := by
  have hwalk : ∀ {a : β} {u : List β} {x : β}, f.graph.Walk a (u ++ [x]) x →
      (f.trace u).foldl stepOpen (stk a) = stk x := by
    intro a u x hw
    induction u generalizing a with
    | nil =>
      obtain ⟨v, hv⟩ := hw.exists_cons
      obtain ⟨rfl, -⟩ := List.cons.inj hv
      rfl
    | cons b u ih =>
      obtain ⟨v, hv⟩ := hw.exists_cons
      obtain ⟨rfl, -⟩ := List.cons.inj hv
      obtain ⟨c, v, hu⟩ : ∃ c v, u ++ [x] = c :: v := by
        cases u with
        | nil => exact ⟨x, [], rfl⟩
        | cons c u => exact ⟨c, u ++ [x], rfl⟩
      rw [List.cons_append, hu] at hw
      obtain ⟨hc, hrest⟩ := hw.step
      rw [← hu] at hrest
      have happ : f.trace (b :: u) = f.instrs b ++ f.trace u := rfl
      rw [happ, List.foldl_append, ← hedge b c hc]
      exact ih hrest
  intro u v x hu hv
  have hu' := hwalk hu
  have hv' := hwalk hv
  rw [hentry] at hu' hv'
  exact hu'.trans hv'.symm

/-- The blocks of a function that branches and meets again. -/
inductive MeetingBlock where
  | branch | left | right | meet
  deriving DecidableEq

/-- A branch with nested groups: group `2` is closed and opened again on one side, and the last block has an end
marker of a group that is not open. -/
def branchingFunction : MarkedFunction MeetingBlock where
  graph :=
    { entry := .branch
      succs := fun
        | .branch => [.left, .right]
        | .left => [.meet]
        | .right => [.meet]
        | .meet => [] }
  instrs := fun
    | .branch => [.roiBegin 1, .other, .roiBegin 2, .other]
    | .left => [.roiEnd 2, .other, .roiBegin 2]
    | .right => [.other]
    | .meet => [.roiEnd 2, .roiEnd 1, .roiEnd 3, .roiBegin 2, .other, .roiEnd 2]

theorem branchingFunction_sameOpenGroups : SameOpenGroups branchingFunction := by
  refine SameOpenGroups.of_stacks (fun x => if x = .branch then [] else [2, 1]) rfl fun x => ?_
  cases x <;> decide

private theorem mem_meetingBlocks (x : MeetingBlock) : x ∈ [.branch, .left, .right, .meet] := by
  cases x <;> decide

/-- The function as the only one of its module. -/
def branchingSource : SourceFunction Nat MeetingBlock where
  name := 0
  blocks := [.branch, .left, .right, .meet]
  code := branchingFunction
  entry_mem := fun _ => mem_meetingBlocks _
  succs_mem := fun _ _ y _ => mem_meetingBlocks y

def branchingModule : SourceModule Nat MeetingBlock where
  functions := [branchingSource]
  names_nodup := List.nodup_singleton _

theorem identifyRegions_members_branching : ∃ fuel s, identifyRegions fuel branchingModule = some s ∧
    RegionsIdentified branchingModule.functions s := by
  have hsame : ∀ F ∈ branchingModule.functions, SameOpenGroups F.code := by
    intro F hF
    rw [List.mem_singleton.mp hF]
    exact branchingFunction_sameOpenGroups
  obtain ⟨⟨fuel, s, hrun⟩, hall⟩ := identifyRegions_members branchingModule hsame
  exact ⟨fuel, s, hrun, hall fuel s hrun⟩

end ZRay.Pass
