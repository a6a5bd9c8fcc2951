import Mathlib
import ZRay.DepthFirst
import ZRay.Pass.Markers

/-!
# Splitting the blocks, depth first

`splitInstrumentedBlocks` walks over the blocks and cuts each at its first marker that is in the way; the tail is a
new block, which is visited next.  So the graph is rewritten while it is walked on.  The blocks come out as their
pieces (`MarkedFunction.splitInstrumentedBlocks`), whatever the order of the walk (`splitInstrumentedBlocks_agrees`).
-/

namespace ZRay.Pass

open FlowGraph

variable {β : Type*}

/-! ### The walk -/

/-- Where `SplitBlock` cuts the block: before a begin marker that is not its first instruction, or after an end
marker, whichever is found first.  `n` instructions come before those of the list. -/
def splitPoint (n : Nat) : List Instr → Option Nat
  | [] => none
  | i :: rest => if i.isBegin && n != 0 then some n else if i.isEnd then some (n + 1) else splitPoint (n + 1) rest

/-- `SplitBasicBlocksVisited`, and the function as it is rewritten.  The tail of the block `(b, i)` is
`(b, i + 1)`. -/
structure SplitState (β : Type*) where
  visited : List (β × Nat)
  function : MarkedFunction (β × Nat)

section

variable [DecidableEq β]

/-- `SplitBlock`: the block keeps its first instructions and branches to the tail, which gets the rest and the
terminator. -/
def splitBlock (f : MarkedFunction (β × Nat)) (bb : β × Nat) (n : Nat) : MarkedFunction (β × Nat) where
  graph :=
    { entry := f.graph.entry
      succs := Function.update (Function.update f.graph.succs (bb.1, bb.2 + 1) (f.graph.succs bb)) bb
        [(bb.1, bb.2 + 1)] }
  instrs := Function.update (Function.update f.instrs (bb.1, bb.2 + 1) ((f.instrs bb).drop n)) bb
    ((f.instrs bb).take n)

/-- The block is colored and cut. -/
def splitInstrumentedBlock (bb : β × Nat) (s : SplitState β) : SplitState β where
  visited := bb :: s.visited
  function :=
    match splitPoint 0 (s.function.instrs bb) with
    | some n => splitBlock s.function bb n
    | none => s.function

/-- The walk of `splitInstrumentedBlocks`. -/
def splitWalk (β : Type*) [DecidableEq β] : DepthFirst (SplitState β) (β × Nat) Unit where
  visited := SplitState.visited
  visit := fun bb _ s => ((), splitInstrumentedBlock bb s)
  succs := fun s => s.function.graph.succs

/-- The function before it is split. -/
def unsplit (f : MarkedFunction β) : MarkedFunction (β × Nat) where
  graph :=
    { entry := (f.graph.entry, 0)
      succs := fun x => (f.graph.succs x.1).map fun c => (c, 0) }
  instrs := fun x => f.instrs x.1

/-- `splitInstrumentedBlocks`, for at most `fuel` nested calls. -/
def splitInstrumentedBlocks (f : MarkedFunction β) (fuel : Nat) : Option (MarkedFunction (β × Nat)) :=
  ((splitWalk β).walk fuel (f.graph.entry, 0) () ⟨[], unsplit f⟩).map SplitState.function

end

/-! ### One cut -/

private theorem splitPoint_add (n k : Nat) (l : List Instr) :
    splitPoint (n + 1 + k) l = (splitPoint (n + 1) l).map (· + k) := by
  induction l generalizing n with
  | nil => rfl
  | cons i rest ih =>
    unfold splitPoint
    split
    · rename_i hbegin
      have hcond : (i.isBegin && n + 1 != 0) = true := by simpa using hbegin
      rw [if_pos hcond]
      rfl
    · rename_i hbegin
      have hcond : ¬ (i.isBegin && n + 1 != 0) = true := by simpa using hbegin
      rw [if_neg hcond]
      split
      · show some (n + 1 + k + 1) = some (n + 1 + 1 + k)
        congr 1
        omega
      · rw [← ih (n + 1)]
        congr 1
        omega

/-- Behind the first instruction a begin marker is in the way also at the front. -/
private theorem splitPoint_one (l : List Instr) :
    splitPoint 1 l = if l.head?.any Instr.isBegin then some 1 else (splitPoint 0 l).map (· + 1) := by
  cases l with
  | nil => rfl
  | cons i rest =>
    by_cases hbegin : i.isBegin
    · simp [splitPoint, hbegin]
    · have hshift := splitPoint_add 0 1 rest
      by_cases hend : i.isEnd
      · simp [splitPoint, hbegin, hend]
      · simp [splitPoint, hbegin, hend, ← hshift]

/-- The first piece starts as the block does. -/
private theorem head?_splitInstrs (l : List Instr) : ∃ p ps, splitInstrs l = p :: ps ∧ p.head? = l.head? := by
  cases l with
  | nil => exact ⟨[], [], rfl, rfl⟩
  | cons i rest =>
    unfold splitInstrs
    split
    · exact ⟨[i], [], rfl, rfl⟩
    · rename_i p ps _
      split
      · exact ⟨[i], p :: ps, rfl, rfl⟩
      · exact ⟨i :: p, ps, rfl, rfl⟩

/-- The pieces of a block are what the first cut leaves and the pieces of the tail. -/
theorem splitInstrs_eq (l : List Instr) : splitInstrs l =
    match splitPoint 0 l with
    | some n => l.take n :: splitInstrs (l.drop n)
    | none => [l] := by
  induction l with
  | nil => rfl
  | cons i rest ih =>
    obtain ⟨p, ps, hpieces, hhead⟩ := head?_splitInstrs rest
    have hfirst : splitPoint 0 (i :: rest) = if i.isEnd then some 1 else splitPoint 1 rest := by
      simp [splitPoint]
    have hsplit : splitInstrs (i :: rest) =
        if i.isEnd || rest.head?.any Instr.isBegin then [i] :: p :: ps else (i :: p) :: ps := by
      rw [splitInstrs, hpieces]
      simp only [hhead]
    rw [hfirst, hsplit, splitPoint_one]
    by_cases hend : i.isEnd
    · simp [hend, hpieces]
    · by_cases hbegin : rest.head?.any Instr.isBegin
      · simp [hend, hbegin, hpieces]
      · simp only [hend, hbegin, Bool.or_false, Bool.false_eq_true, if_false]
        rw [hpieces] at ih
        cases hcut : splitPoint 0 rest with
        | none =>
          rw [hcut] at ih
          simp only [List.cons.injEq] at ih
          simp [ih.1, ih.2]
        | some n =>
          rw [hcut] at ih
          simp only [List.cons.injEq] at ih
          simp [ih.1, ih.2]

/-! ### The whole walk -/

variable [DecidableEq β]

/-- The pieces of a block that has been split. -/
private abbrev pieces (f : MarkedFunction β) (b : β) : List (List Instr) := splitInstrs (f.instrs b)

/-- The block is the next one of its pieces, or visited. -/
private def Cut (f : MarkedFunction β) (x : β × Nat) (s : SplitState β) : Prop :=
  x.2 < (pieces f x.1).length ∧ (x.2 = 0 ∨ (x.1, x.2 - 1) ∈ s.visited)

/-- What holds between two blocks: the visited ones are pieces, and the next one holds the pieces to come. -/
private structure SplitInv (f : MarkedFunction β) (s : SplitState β) : Prop where
  entry : s.function.graph.entry = (f.graph.entry, 0)
  cut : ∀ x ∈ s.visited, Cut f x s
  instrs : ∀ x ∈ s.visited, s.function.instrs x = f.splitInstrumentedBlocks.instrs x
  succs : ∀ x ∈ s.visited, s.function.graph.succs x = f.splitInstrumentedBlocks.graph.succs x
  next_instrs : ∀ x, Cut f x s → x ∉ s.visited → splitInstrs (s.function.instrs x) = (pieces f x.1).drop x.2
  next_succs : ∀ x, Cut f x s → x ∉ s.visited → s.function.graph.succs x = (f.graph.succs x.1).map fun c => (c, 0)

omit [DecidableEq β] in
/-- The piece behind one that is not visited is not visited. -/
private theorem SplitInv.next_notMem {f : MarkedFunction β} {s : SplitState β} (h : SplitInv f s) {bb : β × Nat}
    (hbb : bb ∉ s.visited) : (bb.1, bb.2 + 1) ∉ s.visited := by
  intro hmem
  rcases (h.cut _ hmem).2 with hzero | hprev
  · simp at hzero
  · exact hbb hprev

omit [DecidableEq β] in
private theorem Cut.mono {f : MarkedFunction β} {x bb : β × Nat} {s s' : SplitState β}
    (hvisited : s'.visited = bb :: s.visited) (h : Cut f x s) : Cut f x s' := by
  refine ⟨h.1, h.2.imp_right fun hmem => ?_⟩
  rw [hvisited]
  exact List.mem_cons_of_mem bb hmem

omit [DecidableEq β] in
/-- What is next behind a visit was next before, or is the piece behind the one visited. -/
private theorem Cut.of_visit {f : MarkedFunction β} {x bb : β × Nat} {s s' : SplitState β}
    (hvisited : s'.visited = bb :: s.visited) (h : Cut f x s') (hx : x ≠ (bb.1, bb.2 + 1)) : Cut f x s := by
  refine ⟨h.1, ?_⟩
  rcases h.2 with hzero | hmem
  · exact .inl hzero
  · rw [hvisited] at hmem
    rcases List.mem_cons.mp hmem with heq | hmem
    · by_cases hzero : x.2 = 0
      · exact .inl hzero
      · refine absurd ?_ hx
        rw [← heq]
        exact Prod.ext rfl (by simp; omega)
    · exact .inr hmem

/-- What one visit does. -/
private structure BlockSplit (f : MarkedFunction β) (bb : β × Nat) (s s' : SplitState β) : Prop where
  visited : s'.visited = bb :: s.visited
  entry : s'.function.graph.entry = s.function.graph.entry
  instrs : s'.function.instrs bb = f.splitInstrumentedBlocks.instrs bb
  succs : s'.function.graph.succs bb = f.splitInstrumentedBlocks.graph.succs bb
  next : bb.2 + 1 < (pieces f bb.1).length →
    splitInstrs (s'.function.instrs (bb.1, bb.2 + 1)) = (pieces f bb.1).drop (bb.2 + 1) ∧
      s'.function.graph.succs (bb.1, bb.2 + 1) = (f.graph.succs bb.1).map fun c => (c, 0)
  others : ∀ x, x ≠ bb → x ≠ (bb.1, bb.2 + 1) → s'.function.instrs x = s.function.instrs x ∧
    s'.function.graph.succs x = s.function.graph.succs x

private theorem blockSplit {f : MarkedFunction β} {bb : β × Nat} {s : SplitState β} (h : SplitInv f s)
    (hbb : bb ∉ s.visited) (hcut : Cut f bb s) : BlockSplit f bb s (splitInstrumentedBlock bb s) := by
  have hlt := hcut.1
  have hnext := h.next_instrs bb hcut hbb
  have hsuccs := h.next_succs bb hcut hbb
  have hpiece : (pieces f bb.1).drop bb.2 = (pieces f bb.1)[bb.2] :: (pieces f bb.1).drop (bb.2 + 1) :=
    List.drop_eq_getElem_cons hlt
  have hinstrs : f.splitInstrumentedBlocks.instrs bb = (pieces f bb.1)[bb.2] := List.getD_eq_getElem _ _ hlt
  have hstatic : f.splitInstrumentedBlocks.graph.succs bb =
    if bb.2 + 1 < (pieces f bb.1).length then [(bb.1, bb.2 + 1)] else (f.graph.succs bb.1).map fun c => (c, 0) := rfl
  have hne : (bb.1, bb.2 + 1) ≠ bb := fun heq => by
    have := congrArg Prod.snd heq
    simp at this
  rw [splitInstrs_eq, hpiece] at hnext
  unfold splitInstrumentedBlock
  cases hpoint : splitPoint 0 (s.function.instrs bb) with
  | none =>
    -- the block is its own last piece
    rw [hpoint, List.cons.injEq] at hnext
    have hlast : ¬ bb.2 + 1 < (pieces f bb.1).length := by
      have hlen := congrArg List.length hnext.2
      rw [List.length_nil, List.length_drop] at hlen
      omega
    refine ⟨rfl, rfl, ?_, ?_, fun hmore => absurd hmore hlast, fun x _ _ => ⟨rfl, rfl⟩⟩
    · rw [hinstrs]
      exact hnext.1
    · rw [hstatic, if_neg hlast]
      exact hsuccs
  | some n =>
    rw [hpoint, List.cons.injEq] at hnext
    have hmore : bb.2 + 1 < (pieces f bb.1).length := by
      by_contra hlast
      have hnil : (pieces f bb.1).drop (bb.2 + 1) = [] := List.drop_eq_nil_of_le (by omega)
      exact splitInstrs_ne_nil _ (hnext.2.trans hnil)
    refine ⟨rfl, rfl, ?_, ?_, fun _ => ⟨?_, ?_⟩, fun x hx hx' => ⟨?_, ?_⟩⟩
    · rw [hinstrs, ← hnext.1]
      exact Function.update_self _ _ _
    · rw [hstatic, if_pos hmore]
      exact Function.update_self _ _ _
    · rw [← hnext.2]
      exact congrArg splitInstrs ((Function.update_of_ne hne _ _).trans (Function.update_self _ _ _))
    · rw [← hsuccs]
      exact (Function.update_of_ne hne _ _).trans (Function.update_self _ _ _)
    · exact (Function.update_of_ne hx _ _).trans (Function.update_of_ne hx' _ _)
    · exact (Function.update_of_ne hx _ _).trans (Function.update_of_ne hx' _ _)

private theorem SplitInv.visit {f : MarkedFunction β} {bb : β × Nat} {s s' : SplitState β} (h : SplitInv f s)
    (hbb : bb ∉ s.visited) (hcut : Cut f bb s) (hblock : BlockSplit f bb s s') : SplitInv f s' := by
  have hvisited := hblock.visited
  have hmem : ∀ x, x ∈ s'.visited ↔ x = bb ∨ x ∈ s.visited := fun x => by rw [hvisited, List.mem_cons]
  have hother : ∀ x ∈ s.visited, x ≠ bb ∧ x ≠ (bb.1, bb.2 + 1) := fun x hx =>
    ⟨fun heq => hbb (heq ▸ hx), fun heq => h.next_notMem hbb (heq ▸ hx)⟩
  -- a block that is next and not the tail was next before
  have hbefore : ∀ x, Cut f x s' → x ∉ s'.visited → x ≠ (bb.1, bb.2 + 1) → Cut f x s ∧ x ∉ s.visited ∧ x ≠ bb :=
    fun x hx hnot htail => ⟨hx.of_visit hvisited htail, fun hxs => hnot ((hmem x).mpr (.inr hxs)),
      fun heq => hnot ((hmem x).mpr (.inl heq))⟩
  refine ⟨hblock.entry.trans h.entry, fun x hx => ?_, fun x hx => ?_, fun x hx => ?_, fun x hx hnot => ?_,
    fun x hx hnot => ?_⟩
  · rcases (hmem x).mp hx with rfl | hx
    · exact hcut.mono hvisited
    · exact (h.cut x hx).mono hvisited
  · rcases (hmem x).mp hx with rfl | hx
    · exact hblock.instrs
    · rw [(hblock.others x (hother x hx).1 (hother x hx).2).1, h.instrs x hx]
  · rcases (hmem x).mp hx with rfl | hx
    · exact hblock.succs
    · rw [(hblock.others x (hother x hx).1 (hother x hx).2).2, h.succs x hx]
  · by_cases htail : x = (bb.1, bb.2 + 1)
    · subst htail
      exact (hblock.next hx.1).1
    · obtain ⟨hold, hnew, hne⟩ := hbefore x hx hnot htail
      rw [(hblock.others x hne htail).1, h.next_instrs x hold hnew]
  · by_cases htail : x = (bb.1, bb.2 + 1)
    · subst htail
      exact (hblock.next hx.1).2
    · obtain ⟨hold, hnew, hne⟩ := hbefore x hx hnot htail
      rw [(hblock.others x hne htail).2, h.next_succs x hold hnew]

private theorem sound_splitWalk (f : MarkedFunction β) :
    (splitWalk β).Sound (SplitInv f) fun x _ s => Cut f x s ∧ f.graph.Reachable x.1 where
  marks _ _ _ := rfl
  visit hbb hcut h := h.visit hbb hcut.1 (blockSplit h hbb hcut.1)
  hand := by
    intro bb _ s hbb ⟨hcut, w, hw⟩ h child hchild
    have hchild' : child ∈ (splitInstrumentedBlock bb s).function.graph.succs bb := hchild
    rw [(blockSplit h hbb hcut).succs] at hchild'
    have hsuccs : child ∈ if bb.2 + 1 < (pieces f bb.1).length then [(bb.1, bb.2 + 1)]
      else (f.graph.succs bb.1).map fun c => (c, 0) := hchild'
    split at hsuccs
    · rename_i hmore
      rw [List.mem_singleton] at hsuccs
      subst hsuccs
      exact ⟨⟨hmore, .inr List.mem_cons_self⟩, w, hw⟩
    · obtain ⟨c, hc, rfl⟩ := List.mem_map.mp hsuccs
      exact ⟨⟨List.length_pos_iff.mpr (splitInstrs_ne_nil _), .inl rfl⟩, _, hw.concat hc (.single c)⟩
  keep := by
    intro bb _ s _ _ _ x _ ⟨hx, hreach⟩
    have hcut : Cut f x (splitInstrumentedBlock bb s) := hx.mono rfl
    exact ⟨hcut, hreach⟩
  stay := by
    intro bb _ s hbb ⟨hcut, _⟩ h x hx
    exact ((blockSplit h hbb hcut).others x (fun heq => hbb (heq ▸ hx)) fun heq => h.next_notMem hbb (heq ▸ hx)).2

omit [DecidableEq β] in
private theorem cut_entry (f : MarkedFunction β) :
    Cut f (f.graph.entry, 0) ⟨[], unsplit f⟩ ∧ f.graph.Reachable f.graph.entry :=
  ⟨⟨List.length_pos_iff.mpr (splitInstrs_ne_nil _), .inl rfl⟩, _, .single _⟩

omit [DecidableEq β] in
private theorem splitInv_unsplit (f : MarkedFunction β) : SplitInv f ⟨[], unsplit f⟩ := by
  refine ⟨rfl, by simp, by simp, by simp, fun x hx _ => ?_, fun x _ _ => rfl⟩
  rcases hx.2 with hzero | hmem
  · rw [hzero]
    rfl
  · simp at hmem

/-- The two functions have the same blocks as far as they are reached. -/
structure Agrees {γ : Type*} (f f' : MarkedFunction γ) : Prop where
  entry : f.graph.entry = f'.graph.entry
  instrs : ∀ x, f.graph.Reachable x → f.instrs x = f'.instrs x
  succs : ∀ x, f.graph.Reachable x → f.graph.succs x = f'.graph.succs x

/-- `splitInstrumentedBlocks` leaves the blocks in their pieces. -/
theorem splitInstrumentedBlocks_agrees {f : MarkedFunction β} {fuel : Nat} {f' : MarkedFunction (β × Nat)}
    (hrun : splitInstrumentedBlocks f fuel = some f') : Agrees f' f.splitInstrumentedBlocks := by
  obtain ⟨s, hs, rfl⟩ := Option.map_eq_some_iff.mp hrun
  obtain ⟨hwalked, hmem⟩ := (sound_splitWalk f).walk List.not_mem_nil (cut_entry f) (splitInv_unsplit f) hs
  have hinv := hwalked.holds
  have hvisited : ∀ x, s.function.graph.Reachable x → x ∈ s.visited := by
    rintro x ⟨w, hw⟩
    refine hw.mem_of_closed (fun y hy z hz => ?_) (hinv.entry ▸ hmem)
    rcases hwalked.closed y hy with hnil | hsucc
    · exact absurd hnil List.not_mem_nil
    · exact hsucc z hz
  exact ⟨hinv.entry, fun x hx => hinv.instrs x (hvisited x hx), fun x hx => hinv.succs x (hvisited x hx)⟩

/-- How many blocks splitting makes. -/
def splitCount (f : MarkedFunction β) (blocks : List β) : Nat :=
  (blocks.map fun b => (splitInstrs (f.instrs b)).length).sum

/-- The walk ends. -/
theorem exists_splitInstrumentedBlocks (f : MarkedFunction β) {blocks : List β} (hentry : f.graph.entry ∈ blocks)
    (hblocks : ∀ x ∈ blocks, ∀ y ∈ f.graph.succs x, y ∈ blocks) {fuel : Nat} (hfuel : splitCount f blocks ≤ fuel) :
    ∃ f', splitInstrumentedBlocks f fuel = some f' := by
  have hnodes : ∀ x : β × Nat, ∀ (_ : Unit) (s : SplitState β), Cut f x s ∧ f.graph.Reachable x.1 → SplitInv f s →
      x ∈ blocks.flatMap fun b => (List.range (pieces f b).length).map fun i => (b, i) := by
    rintro ⟨b, i⟩ _ s ⟨hcut, w, hw⟩ _
    exact List.mem_flatMap.mpr ⟨b, hw.mem_of_closed hblocks hentry,
      List.mem_map.mpr ⟨i, List.mem_range.mpr hcut.1, rfl⟩⟩
  have hlen : (blocks.flatMap fun b => (List.range (pieces f b).length).map fun i => (b, i)).length ≤ fuel := by
    simpa [List.length_flatMap, splitCount] using hfuel
  obtain ⟨s, hs⟩ := (sound_splitWalk f).exists_walk _ hnodes hlen List.not_mem_nil (cut_entry f) (splitInv_unsplit f)
  exact ⟨s.function, by rw [splitInstrumentedBlocks, hs, Option.map_some]⟩

/-! ### The paths -/

omit [DecidableEq β] in
theorem Agrees.walk {γ : Type*} {f f' : MarkedFunction γ} (h : Agrees f f') {w : List γ} {x : γ} :
    f.graph.Walk f.graph.entry w x ↔ f'.graph.Walk f'.graph.entry w x := by
  have hforth : ∀ {a w x}, f.graph.Walk a w x → f.graph.Reachable a → f'.graph.Walk a w x := by
    intro a w x hw
    induction hw with
    | single a => exact fun _ => .single a
    | @cons a b _ w he _ ih =>
      rintro ⟨v, hv⟩
      refine .cons ?_ (ih ⟨v ++ [b], hv.concat he (.single b)⟩)
      rw [← h.succs a ⟨v, hv⟩]
      exact he
  have hback : ∀ {a w x}, f'.graph.Walk a w x → f.graph.Reachable a → f.graph.Walk a w x := by
    intro a w x hw
    induction hw with
    | single a => exact fun _ => .single a
    | @cons a b _ w he _ ih =>
      rintro ⟨v, hv⟩
      rw [← h.succs a ⟨v, hv⟩] at he
      exact .cons he (ih ⟨v ++ [b], hv.concat he (.single b)⟩)
  constructor
  · intro hw
    rw [← h.entry]
    exact hforth hw ⟨_, .single _⟩
  · intro hw
    rw [← h.entry] at hw
    exact hback hw ⟨_, .single _⟩

omit [DecidableEq β] in
theorem Agrees.trace {γ : Type*} {f f' : MarkedFunction γ} (h : Agrees f f') {w : List γ} {x : γ}
    (hw : f.graph.Walk f.graph.entry w x) : f.trace w = f'.trace w :=
  List.flatMap_congr fun y hy => h.instrs y (hw.reachable_of_mem hy)

/-- The pieces of a block, in order. -/
def pieceBlocks (f : MarkedFunction β) (b : β) : List (β × Nat) :=
  (List.range (splitInstrs (f.instrs b)).length).map fun i => (b, i)

/-- The blocks are cut at the markers, and every path runs through the pieces of its blocks, with the same
instructions. -/
structure SplitInto (f : MarkedFunction β) (f' : MarkedFunction (β × Nat)) : Prop where
  isPiece : ∀ x, f'.graph.Reachable x → IsPiece (f'.instrs x)
  piece : ∀ x, f'.graph.Reachable x → (splitInstrs (f.instrs x.1))[x.2]? = some (f'.instrs x)
  walk : ∀ {w x}, f.graph.Walk f.graph.entry w x → ∃ y, y.1 = x ∧
    f'.graph.Walk f'.graph.entry (w.flatMap (pieceBlocks f)) y ∧ f'.trace (w.flatMap (pieceBlocks f)) = f.trace w
  of_walk : ∀ {w y}, f'.graph.Walk f'.graph.entry w y → ∃ v, f.graph.Walk f.graph.entry (v ++ [y.1]) y.1 ∧
    w = v.flatMap (pieceBlocks f) ++ (pieceBlocks f y.1).take (y.2 + 1) ∧
    f'.trace w = f.trace v ++ ((splitInstrs (f.instrs y.1)).take (y.2 + 1)).flatten

omit [DecidableEq β] in
private theorem take_pieceBlocks_succ {f : MarkedFunction β} {b : β} {i : Nat}
    (hi : i < (splitInstrs (f.instrs b)).length) :
    (pieceBlocks f b).take (i + 1) = (pieceBlocks f b).take i ++ [(b, i)] := by
  have hlen : i < (pieceBlocks f b).length := by simpa [pieceBlocks] using hi
  rw [List.take_succ_eq_append_getElem hlen]
  simp [pieceBlocks]

omit [DecidableEq β] in
private theorem trace_take_pieceBlocks {f : MarkedFunction β} {b : β} {i : Nat}
    (hi : i ≤ (splitInstrs (f.instrs b)).length) :
    f.splitInstrumentedBlocks.trace ((pieceBlocks f b).take i) = ((splitInstrs (f.instrs b)).take i).flatten := by
  induction i with
  | zero => rfl
  | succ i ih =>
    rw [take_pieceBlocks_succ hi, MarkedFunction.trace_append, ih (by omega), MarkedFunction.trace_singleton,
      List.take_succ_eq_append_getElem hi, List.flatten_append, List.flatten_singleton]
    exact congrArg _ (List.getD_eq_getElem _ _ hi)

omit [DecidableEq β] in
private theorem trace_pieceBlocks (f : MarkedFunction β) (b : β) :
    f.splitInstrumentedBlocks.trace (pieceBlocks f b) = f.instrs b := by
  have hall := trace_take_pieceBlocks (f := f) (b := b) le_rfl
  rwa [List.take_of_length_le (by simp [pieceBlocks]), List.take_length, flatten_splitInstrs] at hall

omit [DecidableEq β] in
private theorem trace_flatMap_pieceBlocks (f : MarkedFunction β) (w : List β) :
    f.splitInstrumentedBlocks.trace (w.flatMap (pieceBlocks f)) = f.trace w := by
  induction w with
  | nil => rfl
  | cons b w ih =>
    rw [List.flatMap_cons, MarkedFunction.trace_append, trace_pieceBlocks, ih]
    rfl

omit [DecidableEq β] in
/-- The way through the pieces of a block, from the one with index `i` on. -/
private theorem walk_pieceBlocks {f : MarkedFunction β} {b : β} {i k : Nat}
    (hk : i + k + 1 = (splitInstrs (f.instrs b)).length) :
    f.splitInstrumentedBlocks.graph.Walk (b, i) ((pieceBlocks f b).drop i) (b, i + k) := by
  have hlen : i < (pieceBlocks f b).length := by
    simp only [pieceBlocks, List.length_map, List.length_range]
    omega
  rw [List.drop_eq_getElem_cons hlen]
  have hget : (pieceBlocks f b)[i] = (b, i) := by simp [pieceBlocks]
  rw [hget]
  induction k generalizing i with
  | zero =>
    have hnil : (pieceBlocks f b).drop (i + 1) = [] :=
      List.drop_eq_nil_of_le (by simp only [pieceBlocks, List.length_map, List.length_range]; omega)
    rw [hnil]
    exact .single _
  | succ k ih =>
    have hlen' : i + 1 < (pieceBlocks f b).length := by
      simp only [pieceBlocks, List.length_map, List.length_range]
      omega
    rw [List.drop_eq_getElem_cons hlen']
    have hget' : (pieceBlocks f b)[i + 1] = (b, i + 1) := by simp [pieceBlocks]
    rw [hget']
    have hedge : (b, i + 1) ∈ f.splitInstrumentedBlocks.graph.succs (b, i) := by
      show (b, i + 1) ∈ if i + 1 < (splitInstrs (f.instrs b)).length then [(b, i + 1)]
        else (f.graph.succs b).map fun c => (c, 0)
      rw [if_pos (by omega)]
      exact List.mem_singleton_self _
    have hrest := ih (i := i + 1) (by omega) hlen' hget'
    rw [show i + 1 + k = i + (k + 1) by omega] at hrest
    exact .cons hedge hrest

omit [DecidableEq β] in
private theorem walk_split {f : MarkedFunction β} {a x : β} {w : List β} (hw : f.graph.Walk a w x) :
    f.splitInstrumentedBlocks.graph.Walk (a, 0) (w.flatMap (pieceBlocks f))
      (x, (splitInstrs (f.instrs x)).length - 1) := by
  have hblock : ∀ b, f.splitInstrumentedBlocks.graph.Walk (b, 0) (pieceBlocks f b)
      (b, (splitInstrs (f.instrs b)).length - 1) := by
    intro b
    have hpos := List.length_pos_iff.mpr (splitInstrs_ne_nil (f.instrs b))
    have h := walk_pieceBlocks (f := f) (b := b) (i := 0) (k := (splitInstrs (f.instrs b)).length - 1) (by omega)
    rwa [Nat.zero_add, List.drop_zero] at h
  induction hw with
  | single a =>
    rw [List.flatMap_cons, List.flatMap_nil, List.append_nil]
    exact hblock a
  | @cons a b _ w he _ ih =>
    rw [List.flatMap_cons]
    refine (hblock a).concat ?_ ih
    show (b, 0) ∈ if (splitInstrs (f.instrs a)).length - 1 + 1 < (splitInstrs (f.instrs a)).length then _
      else (f.graph.succs a).map fun c => (c, 0)
    rw [if_neg (by omega)]
    exact List.mem_map.mpr ⟨b, he, rfl⟩

omit [DecidableEq β] in
private theorem of_walk_split {f : MarkedFunction β} {a y : β × Nat} {w : List (β × Nat)}
    (hw : f.splitInstrumentedBlocks.graph.Walk a w y) (ha : a.2 < (splitInstrs (f.instrs a.1)).length) :
    y.2 < (splitInstrs (f.instrs y.1)).length ∧ ∃ v, f.graph.Walk a.1 (v ++ [y.1]) y.1 ∧
      (pieceBlocks f a.1).take a.2 ++ w = v.flatMap (pieceBlocks f) ++ (pieceBlocks f y.1).take (y.2 + 1) := by
  induction hw with
  | single a => exact ⟨ha, [], .single _, by rw [take_pieceBlocks_succ ha]; rfl⟩
  | @cons a b _ w he _ ih =>
    have hb : b ∈ if a.2 + 1 < (splitInstrs (f.instrs a.1)).length then [(a.1, a.2 + 1)]
      else (f.graph.succs a.1).map fun c => (c, 0) := he
    have hsucc : (pieceBlocks f a.1).take a.2 ++ a :: w = (pieceBlocks f a.1).take (a.2 + 1) ++ w := by
      rw [take_pieceBlocks_succ ha, List.append_assoc]
      rfl
    split at hb
    · rename_i hmore
      rw [List.mem_singleton] at hb
      subst hb
      obtain ⟨hy, v, hv, heq⟩ := ih hmore
      exact ⟨hy, v, hv, hsucc.trans heq⟩
    · obtain ⟨c, hc, rfl⟩ := List.mem_map.mp hb
      obtain ⟨hy, v, hv, heq⟩ := ih (List.length_pos_iff.mpr (splitInstrs_ne_nil _))
      refine ⟨hy, a.1 :: v, .cons hc hv, ?_⟩
      rw [hsucc, List.take_of_length_le (by simp only [pieceBlocks, List.length_map, List.length_range]; omega),
        List.flatMap_cons, List.append_assoc, ← heq]
      rfl

/-- `splitInstrumentedBlocks` cuts the blocks at the markers and keeps the paths. -/
theorem splitInto_of_run {f : MarkedFunction β} {fuel : Nat} {f' : MarkedFunction (β × Nat)}
    (hrun : splitInstrumentedBlocks f fuel = some f') : SplitInto f f' := by
  have hagrees := splitInstrumentedBlocks_agrees hrun
  refine ⟨fun x hx => ?_, fun x hx => ?_, fun {w x} hw => ?_, fun {w y} hw => ?_⟩
  · rw [hagrees.instrs x hx]
    exact isPiece_split f x
  · obtain ⟨w, hw⟩ := hx
    obtain ⟨hlt, -⟩ := of_walk_split (hagrees.walk.mp hw) (List.length_pos_iff.mpr (splitInstrs_ne_nil _))
    rw [hagrees.instrs x ⟨w, hw⟩, List.getElem?_eq_getElem hlt]
    exact congrArg some (List.getD_eq_getElem _ _ hlt).symm
  · have hwalk := hagrees.walk.mpr (walk_split hw)
    exact ⟨_, rfl, hwalk, (hagrees.trace hwalk).trans (trace_flatMap_pieceBlocks f w)⟩
  · have hwalk := hagrees.walk.mp hw
    obtain ⟨hy, v, hv, heq⟩ := of_walk_split hwalk (List.length_pos_iff.mpr (splitInstrs_ne_nil _))
    have hw' : w = v.flatMap (pieceBlocks f) ++ (pieceBlocks f y.1).take (y.2 + 1) := heq
    refine ⟨v, hv, hw', ?_⟩
    rw [hagrees.trace hw, hw', MarkedFunction.trace_append, trace_flatMap_pieceBlocks, trace_take_pieceBlocks hy]

end ZRay.Pass
