import Mathlib.Data.List.GetD
import ZRay.ControlFlow.Walk
import ZRay.Nesting

/-!
# Region markers

A function as the pass reads it before it instruments anything: a flow graph whose blocks hold begin and end markers
of groups among other instructions.  `splitInstrumentedBlocks` cuts the blocks so that a begin marker comes first and
an end marker last.  The split function runs the same instructions, and markers that are properly nested on every path
stay so (`WellNested.split`).
-/

namespace ZRay.Pass

open FlowGraph Nesting

/-- An instruction as `isToolFlag` tells them apart, with the group id of a marker. -/
inductive Instr where
  | roiBegin (groupID : Nat)
  | roiEnd (groupID : Nat)
  | other
  deriving DecidableEq, Repr

structure MarkedFunction (β : Type*) where
  graph : FlowGraph β
  instrs : β → List Instr

variable {β : Type*}

/-- The instructions a walk executes. -/
def MarkedFunction.trace (f : MarkedFunction β) (w : List β) : List Instr := w.flatMap f.instrs

@[simp] theorem MarkedFunction.trace_nil (f : MarkedFunction β) : f.trace [] = [] := rfl

@[simp] theorem MarkedFunction.trace_append (f : MarkedFunction β) (u v : List β) :
    f.trace (u ++ v) = f.trace u ++ f.trace v := List.flatMap_append

@[simp] theorem MarkedFunction.trace_singleton (f : MarkedFunction β) (x : β) : f.trace [x] = f.instrs x := by
  simp [trace]

/-! ### Proper nesting -/

/-- How many begin markers of the group are open after the instructions. -/
def openDepth (g : Nat) (t : List Instr) : Nat := t.count (.roiBegin g) - t.count (.roiEnd g)

/-- No end marker comes without an open begin marker of its group. -/
def NoUnopened (t : List Instr) : Prop :=
  ∀ u g v, t = u ++ .roiEnd g :: v → u.count (.roiEnd g) < u.count (.roiBegin g)

theorem NoUnopened.left {u v : List Instr} (h : NoUnopened (u ++ v)) : NoUnopened u := by
  intro u' g v' heq
  exact h u' g (v' ++ v) (by rw [heq, List.append_assoc, List.cons_append])

theorem NoUnopened.count_le {t : List Instr} (h : NoUnopened t) (g : Nat) :
    t.count (.roiEnd g) ≤ t.count (.roiBegin g) := by
  induction t using List.reverseRecOn with
  | nil => simp
  | append_singleton t i ih =>
    have hle := ih h.left
    rw [List.count_append, List.count_append]
    by_cases hi : i = .roiEnd g
    · have hlt := h t g [] (by rw [hi])
      simp [hi]
      omega
    · have hzero : [i].count (.roiEnd g) = 0 := List.count_eq_zero_of_not_mem (by simpa using Ne.symm hi)
      omega

/-- The markers of each group are properly nested on every path: no end marker comes unopened, the depth at a block
does not depend on the path to it, and every run to an exit closes what it opens. -/
structure WellNested (f : MarkedFunction β) : Prop where
  noUnopened : ∀ {w x}, f.graph.Walk f.graph.entry w x → NoUnopened (f.trace w)
  same_depth : ∀ {w w' x}, f.graph.Walk f.graph.entry w x → f.graph.Walk f.graph.entry w' x →
    ∀ g, openDepth g (f.trace w) = openDepth g (f.trace w')
  closed : ∀ {w}, f.graph.Complete w → ∀ g, openDepth g (f.trace w) = 0

/-- Where every block reaches an exit, the paths to the exits decide the depths. -/
theorem WellNested.of_complete {f : MarkedFunction β}
    (hexit : ∀ x, f.graph.Reachable x → ∃ z r, f.graph.succs z = [] ∧ f.graph.Walk x (x :: r) z)
    (hopen : ∀ {w x}, f.graph.Walk f.graph.entry w x → NoUnopened (f.trace w))
    (hclosed : ∀ {w}, f.graph.Complete w → ∀ g, openDepth g (f.trace w) = 0) : WellNested f := by
  refine ⟨hopen, fun {w w' x} hw hw' g => ?_, hclosed⟩
  obtain ⟨z, r, hz, hr⟩ := hexit x ⟨w, hw⟩
  have hcw := hw.append hr
  have hcw' := hw'.append hr
  have h1 := hclosed ⟨z, hz, hcw⟩ g
  have h2 := hclosed ⟨z, hz, hcw'⟩ g
  have hle1 := (hopen hcw).count_le g
  have hle2 := (hopen hcw').count_le g
  have hle3 := (hopen hw).count_le g
  have hle4 := (hopen hw').count_le g
  simp only [openDepth, MarkedFunction.trace_append, List.count_append] at *
  omega

/-- The markers as brackets labelled by group ids. -/
def Instr.bracket : Instr → Bracket Nat
  | .roiBegin g => .enter g
  | .roiEnd g => .exit g
  | .other => .other

/-- The markers are properly nested across the groups too, on every path: the stack of open groups at a block does not
depend on the path to it, and every run to an exit closes what it opens. -/
structure StackNested (f : MarkedFunction β) : Prop where
  exists_stack : ∀ {w x}, f.graph.Walk f.graph.entry w x → ∃ stk, openAfter Instr.bracket [] (f.trace w) = some stk
  same_stack : ∀ {w w' x}, f.graph.Walk f.graph.entry w x → f.graph.Walk f.graph.entry w' x →
    openAfter Instr.bracket [] (f.trace w) = openAfter Instr.bracket [] (f.trace w')
  closed : ∀ {w}, f.graph.Complete w → openAfter Instr.bracket [] (f.trace w) = some []

/-- The stack holds every group as often as it is open. -/
theorem count_openAfter {t : List Instr} {stk stk' : List Nat} (h : openAfter Instr.bracket stk t = some stk')
    (g : Nat) : stk'.count g + t.count (.roiEnd g) = stk.count g + t.count (.roiBegin g) := by
  induction t generalizing stk with
  | nil =>
    simp only [openAfter, Option.some.injEq] at h
    simp [h]
  | cons i t ih =>
    cases i with
    | roiBegin g' =>
      simp only [openAfter, Instr.bracket, Bracket.apply, Option.bind_some] at h
      have hrest := ih h
      by_cases hg : g' = g
      · simp [hg] at hrest ⊢
        omega
      · simpa [hg] using hrest
    | roiEnd g' =>
      cases stk with
      | nil => simp [openAfter, Instr.bracket, Bracket.apply] at h
      | cons top stk =>
        simp only [openAfter, Instr.bracket, Bracket.apply] at h
        split at h
        · rename_i heq
          rw [Option.bind_some] at h
          have hrest := ih h
          by_cases hg : g' = g
          · simp [hg, ← heq] at hrest ⊢
            omega
          · have htop : top ≠ g := fun htop => hg (heq.trans htop)
            simpa [hg, htop] using hrest
        · simp at h
    | other =>
      simp only [openAfter, Instr.bracket, Bracket.apply, Option.bind_some] at h
      simpa using ih h

theorem noUnopened_of_openAfter {t : List Instr} {stk : List Nat} (h : openAfter Instr.bracket [] t = some stk) :
    NoUnopened t := by
  intro u g v heq
  rw [heq, openAfter_append] at h
  obtain ⟨stk', hu, hv⟩ := Option.bind_eq_some_iff.mp h
  have hcount := count_openAfter hu g
  cases stk' with
  | nil => simp [openAfter, Instr.bracket, Bracket.apply] at hv
  | cons top stk' =>
    simp only [openAfter, Instr.bracket, Bracket.apply] at hv
    split at hv
    · rename_i hg
      simp [hg] at hcount ⊢
      omega
    · simp at hv

theorem StackNested.wellNested {f : MarkedFunction β} (h : StackNested f) : WellNested f where
  noUnopened hw := by
    obtain ⟨stk, hstk⟩ := h.exists_stack hw
    exact noUnopened_of_openAfter hstk
  same_depth := by
    intro w w' x hw hw' g
    obtain ⟨stk, hstk⟩ := h.exists_stack hw
    have hstk' := (h.same_stack hw' hw).trans hstk
    have h1 := count_openAfter hstk g
    have h2 := count_openAfter hstk' g
    simp only [openDepth, List.count_nil] at *
    omega
  closed := by
    intro w hw g
    have hcount := count_openAfter (h.closed hw) g
    simp only [openDepth, List.count_nil] at *
    omega

/-- Stacks that fit block by block: `stk` on arrival, `out` behind the block. -/
theorem StackNested.of_stacks {f : MarkedFunction β} (stk out : β → List Nat) (hentry : stk f.graph.entry = [])
    (hblock : ∀ x, openAfter Instr.bracket (stk x) (f.instrs x) = some (out x))
    (hedge : ∀ x, ∀ y ∈ f.graph.succs x, stk y = out x) (hexit : ∀ x, f.graph.succs x = [] → out x = []) :
    StackNested f := by
  have hwalk : ∀ {a w x}, f.graph.Walk a w x → openAfter Instr.bracket (stk a) (f.trace w) = some (out x) := by
    intro a w x hw
    induction hw with
    | single a => simpa using hblock a
    | @cons a b _ w he _ ih =>
      show openAfter Instr.bracket (stk a) (f.instrs a ++ f.trace w) = _
      rw [openAfter_append, hblock a, Option.bind_some, ← hedge a b he, ih]
  have hstart : ∀ {w x}, f.graph.Walk f.graph.entry w x →
      openAfter Instr.bracket [] (f.trace w) = some (out x) := by
    intro w x hw
    rw [← hentry]
    exact hwalk hw
  refine ⟨fun {w x} hw => ⟨out x, hstart hw⟩, fun {w w' x} hw hw' => (hstart hw).trans (hstart hw').symm, ?_⟩
  rintro w ⟨z, hz, hw⟩
  rw [hstart hw, hexit z hz]

/-! ### Splitting the blocks -/

def Instr.isBegin : Instr → Bool
  | .roiBegin _ => true
  | _ => false

def Instr.isEnd : Instr → Bool
  | .roiEnd _ => true
  | _ => false

/-- The pieces of a block: it is cut before every begin marker that is not its first instruction and after every end
marker. -/
def splitInstrs : List Instr → List (List Instr)
  | [] => [[]]
  | i :: rest =>
    match splitInstrs rest with
    | [] => [[i]]
    | p :: ps => if i.isEnd || p.head?.any Instr.isBegin then [i] :: p :: ps else (i :: p) :: ps

theorem splitInstrs_ne_nil (l : List Instr) : splitInstrs l ≠ [] := by
  cases l with
  | nil => simp [splitInstrs]
  | cons i rest =>
    unfold splitInstrs
    split
    · simp
    · split <;> simp

theorem flatten_splitInstrs (l : List Instr) : (splitInstrs l).flatten = l := by
  induction l with
  | nil => rfl
  | cons i rest ih =>
    unfold splitInstrs
    split
    · rename_i hnil
      exact absurd hnil (splitInstrs_ne_nil rest)
    · rename_i p ps heq
      rw [heq] at ih
      split <;> simp [← ih]

/-- A begin marker comes first and an end marker last. -/
structure IsPiece (p : List Instr) : Prop where
  begin_first : ∀ u g v, p = u ++ .roiBegin g :: v → u = []
  end_last : ∀ u g v, p = u ++ .roiEnd g :: v → v = []

theorem isPiece_nil : IsPiece [] where
  begin_first := by simp
  end_last := by simp

theorem isPiece_singleton (i : Instr) : IsPiece [i] where
  begin_first u g v h := by
    cases u with
    | nil => rfl
    | cons a u => simp at h
  end_last u g v h := by
    cases u with
    | nil =>
      rw [List.nil_append, List.cons.injEq] at h
      exact h.2.symm
    | cons a u => simp at h

theorem isPiece_cons {i : Instr} {p : List Instr} (hp : IsPiece p) (hi : i.isEnd = false)
    (hhead : p.head?.any Instr.isBegin = false) : IsPiece (i :: p) where
  begin_first u g v h := by
    cases u with
    | nil => rfl
    | cons a u =>
      rw [List.cons_append, List.cons.injEq] at h
      have hnil := hp.begin_first u g v h.2
      rw [h.2, hnil] at hhead
      simp [Instr.isBegin] at hhead
  end_last u g v h := by
    cases u with
    | nil =>
      rw [List.nil_append, List.cons.injEq] at h
      rw [h.1] at hi
      simp [Instr.isEnd] at hi
    | cons a u =>
      rw [List.cons_append, List.cons.injEq] at h
      exact hp.end_last u g v h.2

theorem isPiece_of_mem_splitInstrs {l p : List Instr} (hp : p ∈ splitInstrs l) : IsPiece p := by
  induction l generalizing p with
  | nil =>
    rw [splitInstrs, List.mem_singleton] at hp
    exact hp ▸ isPiece_nil
  | cons i rest ih =>
    unfold splitInstrs at hp
    split at hp
    · rw [List.mem_singleton] at hp
      exact hp ▸ isPiece_singleton i
    · rename_i q qs heq
      split at hp
      · rcases List.mem_cons.mp hp with rfl | hp
        · exact isPiece_singleton i
        · exact ih (heq ▸ hp)
      · rename_i hcut
        simp only [Bool.or_eq_true, not_or, Bool.not_eq_true] at hcut
        rcases List.mem_cons.mp hp with rfl | hp
        · exact isPiece_cons (ih (heq ▸ List.mem_cons_self)) hcut.1 hcut.2
        · exact ih (heq ▸ List.mem_cons_of_mem q hp)

/-- `splitInstrumentedBlocks`: the piece `i` of block `b` is the block `(b, i)`. -/
def MarkedFunction.splitInstrumentedBlocks (f : MarkedFunction β) : MarkedFunction (β × Nat) where
  graph :=
    { entry := (f.graph.entry, 0)
      succs := fun x =>
        if x.2 + 1 < (splitInstrs (f.instrs x.1)).length then [(x.1, x.2 + 1)]
        else (f.graph.succs x.1).map fun c => (c, 0) }
  instrs := fun x => (splitInstrs (f.instrs x.1)).getD x.2 []

theorem isPiece_split (f : MarkedFunction β) (x : β × Nat) : IsPiece (f.splitInstrumentedBlocks.instrs x) := by
  show IsPiece ((splitInstrs (f.instrs x.1)).getD x.2 [])
  by_cases hx : x.2 < (splitInstrs (f.instrs x.1)).length
  · rw [List.getD_eq_getElem _ _ hx]
    exact isPiece_of_mem_splitInstrs (List.getElem_mem hx)
  · rw [List.getD_eq_default _ _ (by omega)]
    exact isPiece_nil

/-- The instructions a walk to the block `x` of the split function has executed when it arrives: those of a walk of
the function and the first pieces of its last block. -/
private def ArrivesSplit (f : MarkedFunction β) (x : β × Nat) (t : List Instr) : Prop :=
  x.2 < (splitInstrs (f.instrs x.1)).length ∧ ∃ w, f.graph.Walk f.graph.entry (w ++ [x.1]) x.1 ∧
    t = f.trace w ++ ((splitInstrs (f.instrs x.1)).take x.2).flatten

private theorem flatten_take_succ {l : List (List Instr)} {n : Nat} (hn : n < l.length) :
    (l.take (n + 1)).flatten = (l.take n).flatten ++ l.getD n [] := by
  rw [List.take_succ_eq_append_getElem hn, List.flatten_append, List.getD_eq_getElem _ _ hn]
  simp

private theorem ArrivesSplit.step {f : MarkedFunction β} {x y : β × Nat} {t : List Instr} (h : ArrivesSplit f x t)
    (hy : y ∈ f.splitInstrumentedBlocks.graph.succs x) :
    ArrivesSplit f y (t ++ f.splitInstrumentedBlocks.instrs x) := by
  obtain ⟨hlt, w, hw, rfl⟩ := h
  have happ : f.trace w ++ ((splitInstrs (f.instrs x.1)).take x.2).flatten ++ f.splitInstrumentedBlocks.instrs x =
      f.trace w ++ ((splitInstrs (f.instrs x.1)).take (x.2 + 1)).flatten := by
    rw [flatten_take_succ hlt, List.append_assoc]
    rfl
  rw [happ]
  have hy' : y ∈ if x.2 + 1 < (splitInstrs (f.instrs x.1)).length then [(x.1, x.2 + 1)]
      else (f.graph.succs x.1).map fun c => (c, 0) := hy
  split at hy'
  · rename_i hnext
    rw [List.mem_singleton] at hy'
    subst hy'
    exact ⟨hnext, w, hw, rfl⟩
  · -- the last piece: the walk of the function goes on to the next block
    obtain ⟨c, hc, rfl⟩ := List.mem_map.mp hy'
    have hpos : 0 < (splitInstrs (f.instrs c)).length := List.length_pos_iff.mpr (splitInstrs_ne_nil _)
    refine ⟨hpos, w ++ [x.1], hw.concat hc (.single c), ?_⟩
    have hall : (splitInstrs (f.instrs x.1)).take (x.2 + 1) = splitInstrs (f.instrs x.1) :=
      List.take_of_length_le (by omega)
    rw [hall, flatten_splitInstrs]
    simp

private theorem ArrivesSplit.walk {f : MarkedFunction β} {a x : β × Nat} {w : List (β × Nat)} {t : List Instr}
    (hw : f.splitInstrumentedBlocks.graph.Walk a w x) (h : ArrivesSplit f a t) :
    ∃ t', ArrivesSplit f x t' ∧ t ++ f.splitInstrumentedBlocks.trace w =
      t' ++ f.splitInstrumentedBlocks.instrs x := by
  induction hw generalizing t with
  | single a => exact ⟨t, h, by simp⟩
  | @cons a b _ w he _ ih =>
    obtain ⟨t', ht', heq⟩ := ih (h.step he)
    refine ⟨t', ht', ?_⟩
    rw [← heq]
    simp [MarkedFunction.trace]

/-- A walk of the split function has executed the instructions of a walk of the function, the last block up to the
piece. -/
theorem exists_walk_of_split {f : MarkedFunction β} {x : β × Nat} {w : List (β × Nat)}
    (hw : f.splitInstrumentedBlocks.graph.Walk f.splitInstrumentedBlocks.graph.entry w x) :
    x.2 < (splitInstrs (f.instrs x.1)).length ∧ ∃ v, f.graph.Walk f.graph.entry (v ++ [x.1]) x.1 ∧
      f.splitInstrumentedBlocks.trace w = f.trace v ++ ((splitInstrs (f.instrs x.1)).take (x.2 + 1)).flatten := by
  have hentry : ArrivesSplit f f.splitInstrumentedBlocks.graph.entry [] :=
    ⟨List.length_pos_iff.mpr (splitInstrs_ne_nil _), [], .single _, rfl⟩
  obtain ⟨t, ⟨hlt, v, hv, rfl⟩, heq⟩ := ArrivesSplit.walk hw hentry
  refine ⟨hlt, v, hv, ?_⟩
  rw [List.nil_append] at heq
  rw [heq, flatten_take_succ hlt, List.append_assoc]
  rfl

/-- The pieces of a block are cut between the walk up to one of them and the rest. -/
private theorem trace_eq_append_drop (f : MarkedFunction β) (v : List β) (x : β × Nat) :
    f.trace (v ++ [x.1]) = f.trace v ++ ((splitInstrs (f.instrs x.1)).take (x.2 + 1)).flatten ++
      ((splitInstrs (f.instrs x.1)).drop (x.2 + 1)).flatten := by
  rw [MarkedFunction.trace_append, MarkedFunction.trace_singleton, List.append_assoc, ← List.flatten_append,
    List.take_append_drop, flatten_splitInstrs]

/-- A run of the split function to an exit is a run of the function to an exit. -/
theorem exists_complete_of_split {f : MarkedFunction β} {w : List (β × Nat)}
    (hw : f.splitInstrumentedBlocks.graph.Complete w) :
    ∃ v, f.graph.Complete v ∧ f.splitInstrumentedBlocks.trace w = f.trace v := by
  obtain ⟨z, hz, hwalk⟩ := hw
  obtain ⟨hlt, v, hv, heq⟩ := exists_walk_of_split hwalk
  have hz' : (if z.2 + 1 < (splitInstrs (f.instrs z.1)).length then [(z.1, z.2 + 1)]
    else (f.graph.succs z.1).map fun c => (c, 0)) = [] := hz
  split at hz'
  · simp at hz'
  · have hnil : (splitInstrs (f.instrs z.1)).drop (z.2 + 1) = [] := List.drop_eq_nil_of_le (by omega)
    refine ⟨v ++ [z.1], ⟨z.1, List.map_eq_nil_iff.mp hz', hv⟩, ?_⟩
    rw [heq, trace_eq_append_drop, hnil, List.flatten_nil, List.append_nil]

/-- Splitting the blocks keeps the nesting of each group. -/
theorem WellNested.split {f : MarkedFunction β} (h : WellNested f) : WellNested f.splitInstrumentedBlocks where
  noUnopened := by
    intro w x hw
    obtain ⟨-, v, hv, heq⟩ := exists_walk_of_split hw
    have hopen := h.noUnopened hv
    rw [trace_eq_append_drop] at hopen
    rw [heq]
    exact hopen.left
  same_depth := by
    intro w w' x hw hw' g
    obtain ⟨-, v, hv, heq⟩ := exists_walk_of_split hw
    obtain ⟨-, v', hv', heq'⟩ := exists_walk_of_split hw'
    have hsame := h.same_depth hv hv' g
    have hle := (h.noUnopened hv).count_le g
    have hle' := (h.noUnopened hv').count_le g
    rw [heq, heq']
    simp only [openDepth, MarkedFunction.trace_append, MarkedFunction.trace_singleton, List.count_append] at *
    omega
  closed := by
    intro w hw g
    obtain ⟨v, hv, heq⟩ := exists_complete_of_split hw
    rw [heq]
    exact h.closed hv g

/-- Splitting the blocks keeps the nesting across the groups. -/
theorem StackNested.split {f : MarkedFunction β} (h : StackNested f) : StackNested f.splitInstrumentedBlocks := by
  -- the stacks on arrival at the block and behind the piece
  have hstack : ∀ {w x}, f.splitInstrumentedBlocks.graph.Walk f.splitInstrumentedBlocks.graph.entry w x →
      ∃ v a, f.graph.Walk f.graph.entry (v ++ [x.1]) x.1 ∧ openAfter Instr.bracket [] (f.trace v) = some a ∧
        openAfter Instr.bracket [] (f.splitInstrumentedBlocks.trace w) =
          openAfter Instr.bracket a ((splitInstrs (f.instrs x.1)).take (x.2 + 1)).flatten ∧
        ∃ stk, openAfter Instr.bracket a ((splitInstrs (f.instrs x.1)).take (x.2 + 1)).flatten = some stk := by
    intro w x hw
    obtain ⟨-, v, hv, heq⟩ := exists_walk_of_split hw
    obtain ⟨q, hq⟩ := h.exists_stack hv
    rw [trace_eq_append_drop, openAfter_append] at hq
    obtain ⟨stk, hstk, -⟩ := Option.bind_eq_some_iff.mp hq
    have hsplit := hstk
    rw [openAfter_append] at hsplit
    obtain ⟨a, ha, hrest⟩ := Option.bind_eq_some_iff.mp hsplit
    exact ⟨v, a, hv, ha, by rw [heq, hstk, hrest], stk, hrest⟩
  refine ⟨fun {w x} hw => ?_, fun {w w' x} hw hw' => ?_, fun {w} hw => ?_⟩
  · obtain ⟨v, a, -, -, heq, stk, hstk⟩ := hstack hw
    exact ⟨stk, heq.trans hstk⟩
  · obtain ⟨v, a, hv, ha, heq, -⟩ := hstack hw
    obtain ⟨v', a', hv', ha', heq', -⟩ := hstack hw'
    -- the same stack behind the block, so the same one in front of it
    have hsame := h.same_stack hv hv'
    obtain ⟨q, hq⟩ := h.exists_stack hv
    rw [hq] at hsame
    rw [MarkedFunction.trace_append, openAfter_append, ha, Option.bind_some] at hq
    rw [MarkedFunction.trace_append, openAfter_append, ha', Option.bind_some] at hsame
    rw [heq, heq', openAfter_injective hq hsame.symm]
  · obtain ⟨v, hv, heq⟩ := exists_complete_of_split hw
    rw [heq]
    exact h.closed hv

end ZRay.Pass
