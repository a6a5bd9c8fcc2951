import ZRay.Pass.Coverage
import ZRay.Pass.NumberingRuns
import ZRay.Pass.TimingOnly

/-!
# Clones made before the counters

With counters, the code of a trip count stands on the edge into its loop.  No region lists the block of such an edge,
so a trip count is recorded only in a clone that was made behind the counter.  Where every cloned function with a
dynamic counter was cloned by `processRegionCalls`, no trip count is recorded, and the builds with counters and
without write the same log (`zlog_withCounters_of_early`).
-/

namespace ZRay.Pass

namespace Emission

open Clones (CallInst)

variable {α β ν χ : Type*}

/-! ### Where trip counts stand -/

/-- The functions that were cloned. -/
def PassMembers.cloned (p : PassMembers α) : List α := p.cloneFunctionMap.map Prod.fst

/-- The counter of a loop of the function is incremented by a trip count. -/
def IRState.HasDynamicCounter (s : IRState α β ν χ) (F : α) : Prop :=
  ∃ rec ∈ s.pragmaRegionLog, rec.event = .insertDynamicLoopEvent ∧ rec.functionName = F

/-- A function with a dynamic counter was cloned, and not early. -/
def ClonedLate (early : List α) (s : IRState α β ν χ) : Prop :=
  ∃ f ∈ s.cloned, f ∉ early ∧ s.HasDynamicCounter f

/-- What LLVM guarantees: loops are nested or disjoint, and splitting an edge makes a block that was not there. -/
structure LLVM.Splits (llvm : LLVM α β ν χ) [DecidableEq β] : Prop where
  loops : ∀ c, LoopsWellFormed (llvm.analysis c).loopInfo
  edgeBlock : ∀ c header, llvm.edgeBlock c header ∉ (llvm.analysis c).orderedCFG

/-- While the functions `working` are instrumented: the blocks `listed`, which are recorded, hold no trip count, and
neither do the pending clones and the blocks that were recorded. -/
structure Apart (m : IRModule α β ν χ) (early : List α) (working : α → Prop) (listed : α → β → Prop)
    (s : IRState α β ν χ) : Prop where
  early_subset : early ⊆ s.cloned
  pending_subset : s.pendingFunctionClones ⊆ s.cloned
  pending_nodup : s.pendingFunctionClones.Nodup
  counter : ∀ F x, (s.code F x).HasTripCount → s.HasDynamicCounter F
  listed_clear : ∀ F x, listed F x → ¬ (s.code F x).HasTripCount
  listed_mem : ∀ F x, listed F x → x ∈ (m.llvm.analysis (s.cfg F)).orderedCFG
  listed_ne : ∀ F x, listed F x → ∀ f, f ∉ s.cloned → m.cloneName f ≠ F
  pending_clear : ∀ key ∈ s.pendingFunctionClones, ¬ working (m.cloneName key) → ∀ x,
    ¬ (s.code (m.cloneName key) x).HasTripCount
  turns : ∀ rec ∈ s.pragmaRegionLog, ∀ t ∈ rec.turns, ¬ t.block.HasTripCount

/-- A step that keeps trip counts apart, unless it clones a function late. -/
structure Keeps (m : IRModule α β ν χ) (early : List α) (working : α → Prop) (listed : α → β → Prop)
    (s s' : IRState α β ν χ) : Prop where
  cloned : s.cloned ⊆ s'.cloned
  pending : s.pendingFunctionClones ⊆ s'.pendingFunctionClones
  log : s.pragmaRegionLog ⊆ s'.pragmaRegionLog
  apart : ¬ ClonedLate early s' → Apart m early working listed s → Apart m early working listed s'

section

variable {m : IRModule α β ν χ} {early : List α} {working : α → Prop} {listed : α → β → Prop}
  {s s' s'' : IRState α β ν χ}

theorem ClonedLate.mono (h : ClonedLate early s) (hcloned : s.cloned ⊆ s'.cloned)
    (hlog : s.pragmaRegionLog ⊆ s'.pragmaRegionLog) : ClonedLate early s' := by
  obtain ⟨f, hf, hearly, rec, hrec, hdynamic⟩ := h
  exact ⟨f, hcloned hf, hearly, rec, hlog hrec, hdynamic⟩

theorem Keeps.refl (m : IRModule α β ν χ) (early : List α) (working : α → Prop) (listed : α → β → Prop)
    (s : IRState α β ν χ) : Keeps m early working listed s s :=
  ⟨fun _ h => h, fun _ h => h, fun _ h => h, fun _ h => h⟩

theorem Keeps.trans (h : Keeps m early working listed s s') (h' : Keeps m early working listed s' s'') :
    Keeps m early working listed s s'' where
  cloned := fun _ hf => h'.cloned (h.cloned hf)
  pending := fun _ hf => h'.pending (h.pending hf)
  log := fun _ hrec => h'.log (h.log hrec)
  apart := by
    intro hlate hs
    have hlate' : ¬ ClonedLate early s' := fun hl => hlate (hl.mono h'.cloned h'.log)
    exact h'.apart hlate (h.apart hlate' hs)

theorem Keeps.foldl {ι : Type*} {step : IRState α β ν χ → ι → IRState α β ν χ} {l : List ι}
    (hstep : ∀ s, ∀ i ∈ l, Keeps m early working listed s (step s i)) (s : IRState α β ν χ) :
    Keeps m early working listed s (l.foldl step s) := by
  induction l generalizing s with
  | nil => exact .refl m early working listed s
  | cons i l ih =>
    have hfirst := hstep s i List.mem_cons_self
    exact hfirst.trans (ih (fun s j hj => hstep s j (List.mem_cons_of_mem i hj)) _)

/-- A step that asks for functions and writes no record: what is left to see is the code. -/
theorem Keeps.of_unnumbered [DecidableEq α] {P : EmittedCall ν → Prop} {opts : PassOptions} {r : Nat}
    (h : Unnumbered P (m.ask opts r) s s')
    (happart : ¬ ClonedLate early s' → Apart m early working listed s → Apart m early working listed s') :
    Keeps m early working listed s s' := by
  obtain ⟨fs, hfs⟩ := h.asked
  obtain ⟨hcloned, hpending⟩ := CloneMembers.subset_foldl_ask opts m.cloneName r fs s.cloneMembers
  rw [← hfs] at hcloned hpending
  refine ⟨hcloned, hpending, ?_, happart⟩
  rw [h.log_eq]
  exact fun _ hrec => hrec

end

/-! ### Code without trip counts -/

/-- A step that changes the code only, and puts no trip count into it. -/
structure Leaves (s s' : IRState α β ν χ) : Prop where
  clones_eq : s'.cloneMembers = s.cloneMembers
  log_eq : s'.pragmaRegionLog = s.pragmaRegionLog
  cfg_eq : s'.cfg = s.cfg
  code : ∀ F x, (s'.code F x).HasTripCount → (s.code F x).HasTripCount

section

variable {m : IRModule α β ν χ} {early : List α} {working : α → Prop} {listed : α → β → Prop}
  {s s' s'' : IRState α β ν χ}

theorem Leaves.refl (s : IRState α β ν χ) : Leaves s s := ⟨rfl, rfl, rfl, fun _ _ h => h⟩

theorem Leaves.trans (h : Leaves s s') (h' : Leaves s' s'') : Leaves s s'' :=
  ⟨h'.clones_eq.trans h.clones_eq, h'.log_eq.trans h.log_eq, h'.cfg_eq.trans h.cfg_eq,
    fun F x hx => h.code F x (h'.code F x hx)⟩

theorem Leaves.foldl {ι : Type*} {step : IRState α β ν χ → ι → IRState α β ν χ} (hstep : ∀ s i, Leaves s (step s i))
    (l : List ι) (s : IRState α β ν χ) : Leaves s (l.foldl step s) := by
  induction l generalizing s with
  | nil => exact .refl s
  | cons i l ih => exact (hstep s i).trans (ih _)

theorem cloned_of_cloneMembers (h : s'.cloneMembers = s.cloneMembers) : s'.cloned = s.cloned :=
  congrArg (fun c : CloneMembers α => c.cloneFunctionMap.map Prod.fst) h

theorem pending_of_cloneMembers (h : s'.cloneMembers = s.cloneMembers) :
    s'.pendingFunctionClones = s.pendingFunctionClones :=
  congrArg CloneMembers.pendingFunctionClones h

/-- The graphs list more blocks, records are added, and trip counts are put where no block is listed, into a function
that is worked on and has a dynamic counter. -/
theorem Apart.change (h : Apart m early working listed s) (hclones : s'.cloneMembers = s.cloneMembers)
    (hlog : s.pragmaRegionLog ⊆ s'.pragmaRegionLog)
    (hturns : ∀ rec ∈ s'.pragmaRegionLog, rec ∈ s.pragmaRegionLog ∨ ∀ t ∈ rec.turns, ¬ t.block.HasTripCount)
    (hcfg : ∀ F x, x ∈ (m.llvm.analysis (s.cfg F)).orderedCFG → x ∈ (m.llvm.analysis (s'.cfg F)).orderedCFG)
    (hcode : ∀ F x, (s'.code F x).HasTripCount →
      (working F ∧ s'.HasDynamicCounter F ∧ x ∉ (m.llvm.analysis (s.cfg F)).orderedCFG) ∨
        (s.code F x).HasTripCount) : Apart m early working listed s' := by
  have hcloned := cloned_of_cloneMembers hclones
  have hpending := pending_of_cloneMembers hclones
  refine ⟨?_, ?_, ?_, fun F x hop => ?_, fun F x hx hop => ?_, fun F x hx => hcfg F x (h.listed_mem F x hx), ?_,
    fun key hkey hidle x hop => ?_, fun rec hrec => ?_⟩
  · rw [hcloned]
    exact h.early_subset
  · rw [hcloned, hpending]
    exact h.pending_subset
  · rw [hpending]
    exact h.pending_nodup
  · rcases hcode F x hop with ⟨-, hdynamic, -⟩ | hold
    · exact hdynamic
    · obtain ⟨rec, hrec, hdynamic⟩ := h.counter F x hold
      exact ⟨rec, hlog hrec, hdynamic⟩
  · rcases hcode F x hop with ⟨-, -, hnew⟩ | hold
    · exact hnew (h.listed_mem F x hx)
    · exact h.listed_clear F x hx hold
  · rw [hcloned]
    exact h.listed_ne
  · rw [hpending] at hkey
    rcases hcode _ x hop with ⟨hworking, -, -⟩ | hold
    · exact hidle hworking
    · exact h.pending_clear key hkey hidle x hold
  · rcases hturns rec hrec with hold | hclear
    · exact h.turns rec hold
    · exact hclear

/-- The code changes only, and holds no more trip counts. -/
theorem Apart.of_code (h : Apart m early working listed s) (hclones : s'.cloneMembers = s.cloneMembers)
    (hlog : s'.pragmaRegionLog = s.pragmaRegionLog)
    (hcfg : ∀ F x, x ∈ (m.llvm.analysis (s.cfg F)).orderedCFG → x ∈ (m.llvm.analysis (s'.cfg F)).orderedCFG)
    (hcode : ∀ F x, (s'.code F x).HasTripCount → (s.code F x).HasTripCount) : Apart m early working listed s' := by
  refine h.change hclones ?_ (fun rec hrec => .inl ?_) hcfg fun F x hop => .inr (hcode F x hop)
  · rw [hlog]
    exact fun _ hrec => hrec
  · rwa [hlog] at hrec

theorem Leaves.keeps (h : Leaves s s') : Keeps m early working listed s s' where
  cloned := by
    rw [cloned_of_cloneMembers h.clones_eq]
    exact fun _ hf => hf
  pending := by
    rw [pending_of_cloneMembers h.clones_eq]
    exact fun _ hf => hf
  log := by
    rw [h.log_eq]
    exact fun _ hrec => hrec
  apart := by
    intro _ hs
    refine hs.of_code h.clones_eq h.log_eq (fun F x hx => ?_) h.code
    rw [h.cfg_eq]
    exact hx

end

section

variable [DecidableEq α] [DecidableEq β]

/-- A block is changed. -/
theorem hasTripCount_modifyBlock {F : α} {x : β} {g : Block α ν → Block α ν} {s : IRState α β ν χ} {F' : α} {x' : β}
    (h : ((s.modifyBlock F x g).code F' x').HasTripCount) :
    F' = F ∧ x' = x ∧ (g (s.code F x)).HasTripCount ∨ (s.code F' x').HasTripCount := by
  have hcode : (s.modifyBlock F x g).code =
      Function.update s.code F (Function.update (s.code F) x (g (s.code F x))) := rfl
  rw [hcode] at h
  by_cases hF : F' = F
  · subst hF
    rw [Function.update_self] at h
    by_cases hx : x' = x
    · subst hx
      rw [Function.update_self] at h
      exact .inl ⟨rfl, rfl, h⟩
    · rw [Function.update_of_ne hx] at h
      exact .inr h
  · rw [Function.update_of_ne hF] at h
    exact .inr h

theorem leaves_setBody (F : α) (x : β) {body : List (Item α ν)} {s : IRState α β ν χ}
    (hbody : ∀ i ∈ body, i.isTripCount = true → (s.code F x).HasTripCount) : Leaves s (s.setBody F x body) := by
  refine ⟨rfl, rfl, rfl, fun F' x' hop => ?_⟩
  rcases hasTripCount_modifyBlock hop with ⟨rfl, rfl, i, hi, hop⟩ | hold
  · exact hbody i hi hop
  · exact hold

theorem leaves_append (F : α) (x : β) {i : Item α ν} (hi : i.isTripCount = false) (s : IRState α β ν χ) :
    Leaves s (s.append F x i) := by
  refine leaves_setBody F x fun j hj hop => ?_
  rcases List.mem_append.mp hj with hold | hnew
  · exact ⟨j, hold, hop⟩
  · rw [List.mem_singleton.mp hnew, hi] at hop
    exact absurd hop Bool.false_ne_true

omit [DecidableEq α] [DecidableEq β] in
theorem leaves_emit (calls : List (EmittedCall ν)) (s : IRState α β ν χ) : Leaves s (s.emit calls) :=
  ⟨rfl, rfl, rfl, fun _ _ h => h⟩

theorem leaves_insertFirst (F : α) (x : β) (call : EmittedCall ν) (s : IRState α β ν χ) :
    Leaves s (s.insertFirst F x call) := by
  refine (leaves_setBody F x fun i hi hop => ?_).trans (leaves_emit [call] _)
  rcases List.mem_cons.mp hi with rfl | hold
  · exact absurd hop Bool.false_ne_true
  · exact ⟨i, hold, hop⟩

theorem leaves_insertLast (F : α) (x : β) (call : EmittedCall ν) (s : IRState α β ν χ) :
    Leaves s (s.insertLast F x call) :=
  (leaves_append F x rfl s).trans (leaves_emit [call] _)

theorem leaves_insertThreadHandlers (opts : EmissionOptions) (m : IRModule α β ν χ) (F : α) (s : IRState α β ν χ) :
    Leaves s (insertThreadHandlers opts m F s) := by
  unfold insertThreadHandlers
  split
  · exact (leaves_insertFirst F _ _ s).trans (leaves_insertFirst F _ _ _)
  · exact leaves_insertFirst F _ _ s

theorem leaves_insertReturnEvents (m : IRModule α β ν χ) (F : α) (r : Nat) (s : IRState α β ν χ) :
    Leaves s (insertReturnEvents m F r s) := by
  refine Leaves.foldl (fun s x => ?_) _ s
  split
  · exact leaves_insertLast F x _ s
  · exact .refl s

theorem leaves_insertTimerEvents (opts : EmissionOptions) (m : IRModule α β ν χ) (PR : PragmaRegion α β)
    (isIndirect : Bool) (beginBlock endBlock : Option β) (s : IRState α β ν χ) :
    Leaves s (insertTimerEvents opts m PR isIndirect beginBlock endBlock s) := by
  unfold insertTimerEvents
  split
  · have hstart : Leaves s
        (beginBlock.elim s fun x => s.insertFirst PR.F x (.startTimingEvent PR.pragmaRegionID)) := by
      cases beginBlock with
      | none => exact .refl s
      | some x => exact leaves_insertFirst PR.F x _ s
    dsimp only
    split
    · cases endBlock with
      | none => exact hstart
      | some x => exact hstart.trans (leaves_insertLast PR.F x _ _)
    · exact hstart
  · split
    · exact (leaves_insertReturnEvents m PR.F _ s).trans (leaves_insertFirst PR.F _ _ _)
    · exact .refl s

end

/-! ### Clones that are asked for -/

section

variable [DecidableEq α] {m : IRModule α β ν χ} {early : List α} {working : α → Prop} {listed : α → β → Prop}

/-- A copy of a function holds the trip counts of the function. -/
theorem copied_cloneFunction (m : IRModule α β ν χ) (f newF : α) (s : IRState α β ν χ) :
    let s₁ := stripTimingEvents m newF (cloneFunction f newF s)
    s₁.toPassMembers = s.toPassMembers ∧ s₁.pragmaRegionLog = s.pragmaRegionLog ∧
      s₁.cfg = Function.update s.cfg newF (s.cfg f) ∧
      (∀ x, (s₁.code newF x).HasTripCount → (s.code f x).HasTripCount) ∧
      ∀ F x, F ≠ newF → (s₁.code F x).HasTripCount → (s.code F x).HasTripCount := by
  have hself : (cloneFunction f newF s).code newF = s.code f := Function.update_self _ _ _
  have hother : ∀ F, F ≠ newF → (cloneFunction f newF s).code F = s.code F := fun F hF => Function.update_of_ne hF _ _
  unfold stripTimingEvents
  split
  · refine ⟨rfl, rfl, rfl, fun x hx => ?_, fun F x hF hx => ?_⟩
    · rw [hself] at hx
      exact hx
    · rw [hother F hF] at hx
      exact hx
  · refine ⟨rfl, rfl, rfl, fun x hx => ?_, fun F x hF hx => ?_⟩
    · obtain ⟨i, hi, hop⟩ := hx
      dsimp only at hi
      rw [Function.update_self, hself] at hi
      exact ⟨i, List.mem_of_mem_filter hi, hop⟩
    · dsimp only at hx
      rw [Function.update_of_ne hF, hother F hF] at hx
      exact hx

/-- A function without trip counts is cloned. -/
theorem Apart.clone {s s' : IRState α β ν χ} (h : Apart m early working listed s) {f : α} (hkey : f ∉ s.cloned)
    (hcloned : s'.cloned = s.cloned ++ [f]) (hpending : s'.pendingFunctionClones = s.pendingFunctionClones ++ [f])
    (hlog : s'.pragmaRegionLog = s.pragmaRegionLog)
    (hcfg : s'.cfg = Function.update s.cfg (m.cloneName f) (s.cfg f))
    (hcode : ∀ F x, (s'.code F x).HasTripCount → F ≠ m.cloneName f ∧ (s.code F x).HasTripCount) :
    Apart m early working listed s' where
  early_subset := by
    rw [hcloned]
    exact fun g hg => List.mem_append_left _ (h.early_subset hg)
  pending_subset := by
    rw [hcloned, hpending]
    intro g hg
    rcases List.mem_append.mp hg with hold | hnew
    · exact List.mem_append_left _ (h.pending_subset hold)
    · exact List.mem_append_right _ hnew
  pending_nodup := by
    rw [hpending]
    refine List.nodup_append.mpr ⟨h.pending_nodup, List.nodup_singleton f, ?_⟩
    intro g hg g' hg' heq
    rw [heq, List.mem_singleton.mp hg'] at hg
    exact hkey (h.pending_subset hg)
  counter := by
    intro F x hop
    obtain ⟨rec, hrec, hdynamic⟩ := h.counter F x (hcode F x hop).2
    rw [← hlog] at hrec
    exact ⟨rec, hrec, hdynamic⟩
  listed_clear := fun F x hx hop => h.listed_clear F x hx (hcode F x hop).2
  listed_mem := by
    intro F x hx
    have hF : F ≠ m.cloneName f := fun hF => h.listed_ne F x hx f hkey hF.symm
    rw [hcfg, Function.update_of_ne hF]
    exact h.listed_mem F x hx
  listed_ne := by
    intro F x hx g hg
    rw [hcloned] at hg
    exact h.listed_ne F x hx g fun hmem => hg (List.mem_append_left _ hmem)
  pending_clear := by
    intro key hmem hidle x hop
    obtain ⟨hother, hop⟩ := hcode _ x hop
    rw [hpending] at hmem
    rcases List.mem_append.mp hmem with hold | hnew
    · exact h.pending_clear key hold hidle x hop
    · rw [List.mem_singleton.mp hnew] at hother
      exact absurd rfl hother
  turns := by
    rw [hlog]
    exact h.turns

/-- The clone holds no trip counts, or else its function has a dynamic counter and is cloned late. -/
theorem keeps_processFunctionClone (m : IRModule α β ν χ) (f : α) (r : Nat) (s : IRState α β ν χ) :
    Keeps m early working listed s (processFunctionClone m f r s).2 := by
  obtain ⟨hmembers, hlog, hcfg, hcopy, hrest⟩ := copied_cloneFunction m f (m.cloneName f) s
  unfold processFunctionClone
  split
  · exact .refl m early working listed s
  split
  · exact .refl m early working listed s
  rename_i hkey hname
  have hkey : f ∉ s.cloned := hkey
  dsimp only
  generalize stripTimingEvents m (m.cloneName f) (cloneFunction f (m.cloneName f) s) = s₁
    at hmembers hlog hcfg hcopy hrest ⊢
  have hmap : s₁.cloneFunctionMap ++ [(f, r)] = s.cloneFunctionMap ++ [(f, r)] := by rw [hmembers]
  have hpending : s₁.pendingFunctionClones ++ [f] = s.pendingFunctionClones ++ [f] := by rw [hmembers]
  rw [hmap, hpending]
  generalize hs' : ({ s₁ with
    cloneFunctionMap := s.cloneFunctionMap ++ [(f, r)]
    clonedFunctionNames := s₁.clonedFunctionNames ++ [m.cloneName f]
    pendingFunctionClones := s.pendingFunctionClones ++ [f] } : IRState α β ν χ) = s'
  have hcloned : s'.cloned = s.cloned ++ [f] := by
    rw [← hs', PassMembers.cloned, List.map_append]
    rfl
  have hpending : s'.pendingFunctionClones = s.pendingFunctionClones ++ [f] := by rw [← hs']
  have hlog : s'.pragmaRegionLog = s.pragmaRegionLog := by rw [← hs', ← hlog]
  have hcode : s'.code = s₁.code := by rw [← hs']
  constructor
  · rw [hcloned]
    exact List.subset_append_left _ _
  · rw [hpending]
    exact List.subset_append_left _ _
  · rw [hlog]
    exact fun _ hrec => hrec
  · intro hlate hs
    have hnone : ∀ x, ¬ (s.code f x).HasTripCount := by
      intro x hx
      obtain ⟨rec, hrec, hdynamic⟩ := hs.counter f x hx
      rw [← hlog] at hrec
      apply hlate
      refine ⟨f, ?_, fun hmem => hkey (hs.early_subset hmem), rec, hrec, hdynamic⟩
      rw [hcloned]
      exact List.mem_append_right _ List.mem_cons_self
    apply hs.clone hkey hcloned hpending hlog
    · rw [← hs']
      exact hcfg
    · intro F x hop
      rw [hcode] at hop
      by_cases hF : F = m.cloneName f
      · subst hF
        exact absurd (hcopy x hop) (hnone x)
      · exact ⟨hF, hrest F x hF hop⟩

theorem keeps_processCallInst (opts : PassOptions) (m : IRModule α β ν χ) (r : Nat) (c : CallInst α)
    (s : IRState α β ν χ) : Keeps m early working listed s (processCallInst opts m r c s).2 := by
  unfold processCallInst
  cases c.calledFunction with
  | none => exact .refl m early working listed s
  | some f =>
    dsimp only
    repeat' split
    all_goals first
      | exact .refl m early working listed s
      | exact keeps_processFunctionClone m _ r s

theorem keeps_processInst (opts : PassOptions) (m : IRModule α β ν χ) (r : Nat) (I : ProgramInst α ν)
    (s : IRState α β ν χ) : Keeps m early working listed s (processInst opts m r I s).2 := by
  unfold processInst
  split
  · exact .refl m early working listed s
  · exact keeps_processCallInst opts m r _ s

theorem keeps_processItem (opts : PassOptions) (m : IRModule α β ν χ) (r : Nat) (i : Item α ν)
    (s : IRState α β ν χ) : Keeps m early working listed s (processItem opts m r i s).2 := by
  cases i with
  | program I => exact keeps_processInst opts m r I s
  | emitted call => exact .refl m early working listed s
  | tripCount op id operand => exact .refl m early working listed s

theorem isTripCount_processItem (opts : PassOptions) (m : IRModule α β ν χ) (r : Nat) (i : Item α ν)
    (s : IRState α β ν χ) : (processItem opts m r i s).1.isTripCount = i.isTripCount := by
  cases i <;> rfl

/-- A processed item takes the place of the old one. -/
theorem clear_processItem (opts : PassOptions) (m : IRModule α β ν χ) (r : Nat) {i : Item α ν} (s : IRState α β ν χ)
    {done rest : List (Item α ν)} (hitems : ∀ j ∈ done ++ i :: rest, j.isTripCount = false) :
    ∀ j ∈ done ++ (processItem opts m r i s).1 :: rest, j.isTripCount = false := by
  intro j hj
  rcases List.mem_append.mp hj with hj | hj
  · exact hitems j (List.mem_append_left _ hj)
  · rcases List.mem_cons.mp hj with rfl | hj
    · rw [isTripCount_processItem]
      exact hitems i (List.mem_append_right _ List.mem_cons_self)
    · exact hitems j (List.mem_append_right _ (List.mem_cons_of_mem i hj))

variable [DecidableEq β]

theorem keeps_processTerminator (opts : PassOptions) (m : IRModule α β ν χ) (r : Nat) (F : α) (x : β)
    (s : IRState α β ν χ) : Keeps m early working listed s (processTerminator opts m r F x s) := by
  have hcall : Keeps m early working listed s (processInst opts m r (s.code F x).terminator s).2 :=
    keeps_processInst opts m r _ s
  refine hcall.trans (Leaves.keeps ⟨rfl, rfl, rfl, fun F' x' hop => ?_⟩)
  unfold processTerminator at hop
  dsimp only at hop
  rcases hasTripCount_modifyBlock hop with ⟨rfl, rfl, hop⟩ | hold
  · exact hop
  · exact hold

/-- A body without trip counts. -/
theorem leaves_setBody_clear (F : α) (x : β) {body : List (Item α ν)} (hbody : ∀ i ∈ body, i.isTripCount = false)
    (s : IRState α β ν χ) : Leaves s (s.setBody F x body) := by
  refine leaves_setBody F x fun i hi hop => ?_
  rw [hbody i hi] at hop
  exact absurd hop Bool.false_ne_true

theorem keeps_processBody (opts : PassOptions) (m : IRModule α β ν χ) (r : Nat) (F : α) (x : β)
    (rest done : List (Item α ν)) (s : IRState α β ν χ) (hitems : ∀ i ∈ done ++ rest, i.isTripCount = false) :
    Keeps m early working listed s (processBody opts m r F x done rest s) := by
  induction rest generalizing done s with
  | nil => exact .refl m early working listed s
  | cons i rest ih =>
    have hitem : Keeps m early working listed s (processItem opts m r i s).2 := keeps_processItem opts m r i s
    have hnext := clear_processItem opts m r s hitems
    refine (hitem.trans (leaves_setBody_clear F x hnext _).keeps).trans (ih _ _ ?_)
    rw [List.append_assoc, List.singleton_append]
    exact hnext

end

/-! ### Recording -/

section

variable [DecidableEq α] [DecidableEq β] {m : IRModule α β ν χ} {early : List α} {working : α → Prop}
  {listed : α → β → Prop}

omit [DecidableEq α] [DecidableEq β] in
theorem Apart.items_clear {s : IRState α β ν χ} (h : Apart m early working listed s) {F : α} {x : β}
    (hx : listed F x) : ∀ i ∈ [] ++ (s.code F x).body, i.isTripCount = false := by
  intro i hi
  by_contra hop
  exact h.listed_clear F x hx ⟨i, hi, by simpa using hop⟩

/-- The calls of a listed block are processed. -/
theorem keeps_processBlock (opts : PassOptions) (r : Nat) (F : α) {x : β} (hx : listed F x) (s : IRState α β ν χ) :
    Keeps m early working listed s (processBlock opts m r F s x) := by
  refine .of_unnumbered (unnumbered_processBlock (fun _ => True) opts m r F s x) fun hlate hs => ?_
  have hbody : Keeps m early working listed s (processBody opts m r F x [] (s.code F x).body s) :=
    keeps_processBody opts m r F x _ [] s (hs.items_clear hx)
  exact (hbody.trans (keeps_processTerminator opts m r F x _)).apart hlate hs

variable [Inhabited ν]

theorem keeps_recordBody (opts : PassOptions) (r : Nat) (F : α) (x : β) (stackAddressList : ν → Bool) (sf : UInt64)
    (rest done : List (Item α ν)) (p : ProfileData) (s : IRState α β ν χ)
    (hitems : ∀ i ∈ done ++ rest, i.isTripCount = false) :
    Keeps m early working listed s (recordBody opts m r F x stackAddressList sf done rest p s).2 := by
  induction rest generalizing done p s with
  | nil => exact .refl m early working listed s
  | cons i rest ih =>
    have hround := recordBody_cons opts m r F x stackAddressList sf done i rest p s
    dsimp only at hround
    rw [hround]
    generalize runtimeInc m stackAddressList sf i p = calls
    have hbody : ∀ j ∈ done ++ i :: (calls.map Item.emitted ++ rest), j.isTripCount = false := by
      intro j hj
      simp only [List.mem_append, List.mem_cons, List.mem_map] at hj
      rcases hj with hj | rfl | ⟨call, -, rfl⟩ | hj
      · exact hitems j (by simp [hj])
      · exact hitems j (by simp)
      · rfl
      · exact hitems j (by simp [hj])
    have hset : Keeps m early working listed s
        ((s.setBody F x (done ++ i :: (calls.map Item.emitted ++ rest))).emit calls) :=
      ((leaves_setBody_clear F x hbody s).trans (leaves_emit calls _)).keeps
    generalize (s.setBody F x (done ++ i :: (calls.map Item.emitted ++ rest))).emit calls = s₁ at hset ⊢
    have hitem : Keeps m early working listed s₁ (processItem opts m r i s₁).2 := keeps_processItem opts m r i s₁
    have hnext := clear_processItem opts m r s₁ hbody
    refine ((hset.trans hitem).trans (leaves_setBody_clear F x hnext _).keeps).trans (ih _ _ _ ?_)
    rw [List.append_assoc, List.cons_append]
    exact hnext

/-- The blocks that were recorded hold no trip counts. -/
def Recording.Clear (r : Recording α β ν χ) : Prop := ∀ t ∈ r.turns, ¬ t.block.HasTripCount

/-- A step of recording. -/
structure KeepsTurns (m : IRModule α β ν χ) (early : List α) (working : α → Prop) (listed : α → β → Prop)
    (r r' : Recording α β ν χ) : Prop where
  state : Keeps m early working listed r.state r'.state
  turns : ¬ ClonedLate early r'.state → Apart m early working listed r.state → r.Clear → r'.Clear

omit [DecidableEq α] [DecidableEq β] [Inhabited ν] in
theorem KeepsTurns.trans {r r' r'' : Recording α β ν χ} (h : KeepsTurns m early working listed r r')
    (h' : KeepsTurns m early working listed r' r'') : KeepsTurns m early working listed r r'' where
  state := h.state.trans h'.state
  turns := by
    intro hlate hs hclear
    have hlate' : ¬ ClonedLate early r'.state := fun hl => hlate (hl.mono h'.state.cloned h'.state.log)
    exact h'.turns hlate (h.state.apart hlate' hs) (h.turns hlate' hs hclear)

omit [DecidableEq α] [DecidableEq β] [Inhabited ν] in
theorem KeepsTurns.foldl {ι : Type*} {step : Recording α β ν χ → ι → Recording α β ν χ} {l : List ι}
    (hstep : ∀ r, ∀ i ∈ l, KeepsTurns m early working listed r (step r i)) (r : Recording α β ν χ) :
    KeepsTurns m early working listed r (l.foldl step r) := by
  induction l generalizing r with
  | nil => exact ⟨.refl m early working listed r.state, fun _ _ h => h⟩
  | cons i l ih =>
    have hfirst := hstep r i List.mem_cons_self
    exact hfirst.trans (ih (fun r j hj => hstep r j (List.mem_cons_of_mem i hj)) _)

/-- A listed block is recorded. -/
theorem keepsTurns_recordTagBlock (opts : PassOptions) (id : Nat) (F : α) (sf : UInt64) {x : β} (hx : listed F x)
    (r : Recording α β ν χ) : KeepsTurns m early working listed r (recordTagBlock opts m id F sf r x) := by
  have hunnumbered := unnumbered_recordTagBlock opts m id F sf r x (profileBelow_words 0 r.profile)
  refine ⟨.of_unnumbered hunnumbered fun hlate hs => ?_, fun _ hs hclear t ht => ?_⟩
  · have hbody : ∀ p, Keeps m early working listed r.state (recordBody opts m id F x
        (m.llvm.stackAddressList (r.state.cfg F)) sf [] (r.state.code F x).body p r.state).2 :=
      fun p => keeps_recordBody opts id F x _ sf _ [] p r.state (hs.items_clear hx)
    exact (((hbody _).trans (keeps_processTerminator opts m id F x _)).trans
      (leaves_insertFirst F x _ _).keeps).apart hlate hs
  · rcases List.mem_append.mp ht with hold | hnew
    · exact hclear t hold
    · rw [List.mem_singleton.mp hnew]
      exact hs.listed_clear F x hx

theorem keepsTurns_recordTagBlocks (opts : PassOptions) (id : Nat) (F : α) {pd : List β}
    (hpd : ∀ x ∈ pd, listed F x) (sf : UInt64) (r : Recording α β ν χ) :
    KeepsTurns m early working listed r (recordTagBlocks opts m id F pd sf r) :=
  .foldl (fun r x hx => keepsTurns_recordTagBlock opts id F sf (hpd x hx) r) r

theorem keepsTurns_recordCounter (opts : PassOptions) (id : Nat) (F : α) {counter : Counter β}
    (hblocks : ∀ x ∈ counter.blocks, listed F x) (r : Recording α β ν χ) :
    KeepsTurns m early working listed r (recordCounter opts m id F counter r) := by
  cases counter with
  | postDomSet blocks => exact keepsTurns_recordTagBlocks opts id F hblocks 1 r
  | dynamicLoop header blocks => exact keepsTurns_recordTagBlocks opts id F hblocks 1 r
  | scaleFactorSet header pairs =>
    refine KeepsTurns.foldl (fun r e he => ?_) r
    exact keepsTurns_recordTagBlocks opts id F (fun x hx => hblocks x (List.mem_flatMap.mpr ⟨e, he, hx⟩)) _ r

end

/-! ### Counters -/

/-- A step that puts trip counts at `places` only. -/
structure LeavesBut (places : α → β → Prop) (s s' : IRState α β ν χ) : Prop where
  clones_eq : s'.cloneMembers = s.cloneMembers
  log_eq : s'.pragmaRegionLog = s.pragmaRegionLog
  cfg_eq : s'.cfg = s.cfg
  code : ∀ F x, (s'.code F x).HasTripCount → places F x ∨ (s.code F x).HasTripCount

section

variable {places : α → β → Prop} {s s' s'' : IRState α β ν χ}

theorem Leaves.but (h : Leaves s s') (places : α → β → Prop) : LeavesBut places s s' :=
  ⟨h.clones_eq, h.log_eq, h.cfg_eq, fun F x hop => .inr (h.code F x hop)⟩

theorem LeavesBut.trans (h : LeavesBut places s s') (h' : LeavesBut places s' s'') : LeavesBut places s s'' where
  clones_eq := h'.clones_eq.trans h.clones_eq
  log_eq := h'.log_eq.trans h.log_eq
  cfg_eq := h'.cfg_eq.trans h.cfg_eq
  code := by
    intro F x hop
    rcases h'.code F x hop with hplace | hop
    · exact .inl hplace
    · exact h.code F x hop

theorem LeavesBut.foldl {ι : Type*} {step : IRState α β ν χ → ι → IRState α β ν χ}
    (hstep : ∀ s i, LeavesBut places s (step s i)) (l : List ι) (s : IRState α β ν χ) :
    LeavesBut places s (l.foldl step s) := by
  induction l generalizing s with
  | nil => exact (Leaves.refl s).but places
  | cons i l ih => exact (hstep s i).trans (ih _)

end

section

variable [DecidableEq α] [DecidableEq β]

theorem leavesBut_append {places : α → β → Prop} {F : α} {x : β} (hplace : places F x) (s : IRState α β ν χ)
    (i : Item α ν) : LeavesBut places s (s.append F x i) := by
  refine ⟨rfl, rfl, rfl, fun F' x' hop => ?_⟩
  have hop : ((s.modifyBlock F x fun b => { b with body := (s.code F x).body ++ [i] }).code F' x').HasTripCount := hop
  rcases hasTripCount_modifyBlock hop with ⟨rfl, rfl, -⟩ | hold
  · exact .inl hplace
  · exact .inr hold

/-- A trip count stands in the block of the split edge. -/
theorem leavesBut_insertDynamicLoopInc (opts : EmissionOptions) (m : IRModule α β ν χ) (F : α) (header : β)
    (p : ProfileData) (s : IRState α β ν χ) :
    LeavesBut (fun F' x => F' = F ∧ x = m.llvm.edgeBlock (s.cfg F) header) s
      (insertDynamicLoopInc opts m F header p s) := by
  unfold insertDynamicLoopInc
  dsimp only
  have hcode := Leaves.foldl (fun s (e : β × ProgramInst α ν) => leaves_append F e.1 (i := .program e.2) rfl s)
    (m.llvm.expandCodeFor (s.cfg F) header) s
  refine (hcode.but _).trans ?_
  split
  · refine LeavesBut.trans ?_ ((leaves_insertLast F _ _ _).but _)
    exact LeavesBut.foldl (fun s' i => leavesBut_append ⟨rfl, rfl⟩ s' i) _ _
  · exact (Leaves.refl _).but _

theorem leaves_insertCounterArrayInc (opts : EmissionOptions) (F : α) (x : β) (p : ProfileData)
    (s : IRState α β ν χ) : Leaves s (insertCounterArrayInc opts F x p s) := by
  unfold insertCounterArrayInc
  split
  · exact .refl s
  · exact leaves_insertFirst F x _ s

/-- Only the increment of a dynamic loop puts a trip count into the code, where no block is listed. -/
theorem leavesBut_insertInc {m : IRModule α β ν χ} (hsplits : m.llvm.Splits) (opts : EmissionOptions) (F : α)
    (counter : Counter β) (p : ProfileData) (s : IRState α β ν χ) :
    LeavesBut (fun F' x => counterEvent counter = .insertDynamicLoopEvent ∧ F' = F ∧
      x ∉ (m.llvm.analysis (s.cfg F)).orderedCFG) s (insertInc opts m F counter p s) := by
  cases counter with
  | postDomSet blocks =>
    unfold insertInc
    dsimp only
    cases blocks.head? with
    | none => exact (Leaves.refl s).but _
    | some anchor => exact (leaves_insertCounterArrayInc opts F anchor p s).but _
  | scaleFactorSet header pairs => exact (leaves_insertCounterArrayInc opts F _ p s).but _
  | dynamicLoop header blocks =>
    have hinc := leavesBut_insertDynamicLoopInc opts m F header p s
    refine ⟨hinc.clones_eq, hinc.log_eq, hinc.cfg_eq, fun F' x hop => ?_⟩
    rcases hinc.code F' x hop with ⟨rfl, rfl⟩ | hold
    · exact .inl ⟨rfl, rfl, hsplits.edgeBlock _ _⟩
    · exact .inr hold

variable [Inhabited ν] {m : IRModule α β ν χ} {early : List α} {working : α → Prop} {listed : α → β → Prop}

/-- One counter of a function that is worked on. -/
theorem keeps_emitCounter (hsplits : m.llvm.Splits) (opts : EmissionOptions) (PR : PragmaRegion α β)
    (isIndirect : Bool) (hF : working PR.F) {counter : Counter β} (hblocks : ∀ x ∈ counter.blocks, listed PR.F x)
    (s : IRState α β ν χ) : Keeps m early working listed s (emitCounter opts m PR isIndirect s counter) := by
  have hrecord : KeepsTurns m early working listed { profile := newProfile opts PR isIndirect s, state := s }
      (recordCounter opts.toPassOptions m PR.pragmaRegionID PR.F counter
        { profile := newProfile opts PR isIndirect s, state := s }) :=
    keepsTurns_recordCounter opts.toPassOptions PR.pragmaRegionID PR.F hblocks _
  unfold emitCounter
  dsimp only
  generalize recordCounter opts.toPassOptions m PR.pragmaRegionID PR.F counter
    { profile := newProfile opts PR isIndirect s, state := s } = r at hrecord ⊢
  have hinc := leavesBut_insertInc hsplits opts PR.F counter r.profile r.state
  generalize insertInc opts m PR.F counter r.profile r.state = s₁ at hinc ⊢
  generalize hs₂ : writeRecord (counterEvent counter) PR.F r.profile r.turns isIndirect s₁ = s₂
  have hclones : s₂.cloneMembers = r.state.cloneMembers := by
    rw [← hs₂]
    exact hinc.clones_eq
  have hlog : s₂.pragmaRegionLog =
      r.state.pragmaRegionLog ++ [⟨counterEvent counter, PR.F, r.profile, r.turns⟩] := by
    rw [← hs₂, ← hinc.log_eq]
    rfl
  have hcfg : s₂.cfg = r.state.cfg := by
    rw [← hs₂]
    exact hinc.cfg_eq
  have hcode : s₂.code = s₁.code := by
    rw [← hs₂]
    rfl
  have hsub : r.state.pragmaRegionLog ⊆ s₂.pragmaRegionLog := by
    rw [hlog]
    exact List.subset_append_left _ _
  refine ⟨?_, ?_, fun rec hrec => hsub (hrecord.state.log hrec), fun hlate hs => ?_⟩
  · rw [cloned_of_cloneMembers hclones]
    exact hrecord.state.cloned
  · rw [pending_of_cloneMembers hclones]
    exact hrecord.state.pending
  have hlate' : ¬ ClonedLate early r.state := by
    intro hl
    refine hlate (hl.mono ?_ hsub)
    rw [cloned_of_cloneMembers hclones]
    exact fun _ hf => hf
  have hclear := hrecord.turns hlate' hs fun t ht => absurd ht List.not_mem_nil
  refine (hrecord.state.apart hlate' hs).change hclones hsub (fun rec hrec => ?_) (fun F x hx => ?_)
    fun F x hop => ?_
  · rw [hlog] at hrec
    rcases List.mem_append.mp hrec with hold | hnew
    · exact .inl hold
    · rw [List.mem_singleton.mp hnew]
      exact .inr hclear
  · rw [hcfg]
    exact hx
  · rw [hcode] at hop
    rcases hinc.code F x hop with ⟨hevent, rfl, hnew⟩ | hold
    · refine .inl ⟨hF, ⟨⟨counterEvent counter, PR.F, r.profile, r.turns⟩, ?_, hevent, rfl⟩, hnew⟩
      rw [hlog]
      exact List.mem_append_right _ List.mem_cons_self
    · exact .inr hold

end

/-! ### Regions and clones -/

section

variable [DecidableEq α] [DecidableEq β] {m : IRModule α β ν χ} {early : List α} {working : α → Prop}
  {listed : α → β → Prop}

omit [DecidableEq β] in
theorem keeps_splitLoopEdges (PR : PragmaRegion α β) (counters : List (Counter β)) (s : IRState α β ν χ) :
    Keeps m early working listed s (splitLoopEdges m PR counters s) := by
  refine ⟨fun _ h => h, fun _ h => h, fun _ h => h, fun _ hs => ?_⟩
  refine hs.of_code rfl rfl (fun F x hx => ?_) fun _ _ hop => hop
  show x ∈ (m.llvm.analysis (Function.update s.cfg PR.F _ F)).orderedCFG
  by_cases hF : F = PR.F
  · rw [hF, Function.update_self]
    exact m.llvm.mem_splitEdges _ _ _ x (hF ▸ hx)
  · rwa [Function.update_of_ne hF]

omit [DecidableEq α] [DecidableEq β] in
/-- A step that changes the counts only. -/
theorem leaves_withMembers (s : IRState α β ν χ) (p : PassMembers α) (h : p.cloneMembers = s.cloneMembers) :
    Leaves s { s with toPassMembers := p } :=
  ⟨h, rfl, rfl, fun _ _ hop => hop⟩

variable [Inhabited ν]

/-- A region or a clone whose blocks are listed. -/
theorem keeps_instrumentPragmaRegion (hsplits : m.llvm.Splits) (opts : EmissionOptions) (isIndirect : Bool)
    {PR : PragmaRegion α β} (hF : working PR.F) (hlisted : ∀ x ∈ PR.bbList, listed PR.F x) (s : IRState α β ν χ) :
    Keeps m early working listed s (instrumentPragmaRegion opts m isIndirect s PR) := by
  unfold instrumentPragmaRegion
  split
  · exact .refl m early working listed s
  · have hfront : Keeps m early working listed s
        (if !isIndirect || m.startsWithOmp PR.F then insertThreadHandlers opts m PR.F s else s) := by
      split
      · exact (leaves_insertThreadHandlers opts m PR.F s).keeps
      · exact .refl m early working listed s
    dsimp only
    generalize (if !isIndirect || m.startsWithOmp PR.F then insertThreadHandlers opts m PR.F s else s) =
      s₁ at hfront ⊢
    have hblocks : ∀ c ∈ (InstrumentPragmaRegion opts.toPassOptions (s₁.analysis m PR.F) PR.bbList).getD [],
        ∀ x ∈ c.blocks, listed PR.F x := by
      intro c hc x hx
      have hwf : LoopsWellFormed (s₁.analysis m PR.F).loopInfo := hsplits.loops (s₁.cfg PR.F)
      cases hrun : InstrumentPragmaRegion opts.toPassOptions (s₁.analysis m PR.F) PR.bbList with
      | none =>
        rw [hrun] at hc
        exact absurd hc List.not_mem_nil
      | some counters =>
        rw [hrun] at hc
        exact hlisted x (mem_bbList_of_mem_blocks hwf hrun hc hx)
    generalize (InstrumentPragmaRegion opts.toPassOptions (s₁.analysis m PR.F) PR.bbList).getD [] = counters
      at hblocks ⊢
    have hstart : Keeps m early working listed s₁ { s₁ with regionCounterEventTotal := 0 } :=
      (leaves_withMembers s₁ { s₁.toPassMembers with regionCounterEventTotal := 0 } rfl).keeps
    have hcounters : Keeps m early working listed { s₁ with regionCounterEventTotal := 0 }
        (counters.foldl (emitCounter opts m PR isIndirect) { s₁ with regionCounterEventTotal := 0 }) :=
      .foldl (fun s c hc => keeps_emitCounter hsplits opts PR isIndirect hF (hblocks c hc) s) _
    generalize counters.foldl (emitCounter opts m PR isIndirect) { s₁ with regionCounterEventTotal := 0 } = s₂
      at hcounters ⊢
    have hevents := ((hfront.trans hstart).trans hcounters).trans ((keeps_splitLoopEdges PR counters s₂).trans
      (leaves_insertTimerEvents opts m PR isIndirect (regionBeginBlock (s₁.analysis m PR.F) PR.bbList)
        (regionEndBlock (s₁.analysis m PR.F) PR.bbList) _).keeps)
    generalize insertTimerEvents opts m PR isIndirect _ _ (splitLoopEdges m PR counters s₂) = s₃ at hevents ⊢
    split
    · exact hevents.trans (leaves_withMembers s₃
        { s₃.toPassMembers with regionCounterEventMax := s₃.regionCounterEventTotal } rfl).keeps
    · exact hevents

end

/-! ### The run -/

/-- The blocks of the functions with regions, as they are when the pass starts. -/
def IRModule.Recorded (m : IRModule α β ν χ) (F : α) (x : β) : Prop :=
  (∃ PR ∈ m.prList, PR.F = F) ∧ x ∈ (m.llvm.analysis (m.cfg F)).orderedCFG

/-- And the blocks of a clone that is about to be instrumented. -/
def IRModule.RecordedIn (m : IRModule α β ν χ) (key : α) (s : IRState α β ν χ) (F : α) (x : β) : Prop :=
  m.Recorded F x ∨ F = m.cloneName key ∧ x ∈ (m.llvm.analysis (s.cfg (m.cloneName key))).orderedCFG

/-- What holds between regions, and between clones. -/
abbrev Settled (m : IRModule α β ν χ) (early : List α) (s : IRState α β ν χ) : Prop :=
  Apart m early (fun _ => False) m.Recorded s

/-- A region or some clones are instrumented. -/
structure Advances (m : IRModule α β ν χ) (early : List α) (s s' : IRState α β ν χ) : Prop where
  cloned : s.cloned ⊆ s'.cloned
  log : s.pragmaRegionLog ⊆ s'.pragmaRegionLog
  settled : ¬ ClonedLate early s' → Settled m early s → Settled m early s'

section

variable {m : IRModule α β ν χ} {early : List α} {s s' s'' : IRState α β ν χ}

theorem Advances.refl (m : IRModule α β ν χ) (early : List α) (s : IRState α β ν χ) : Advances m early s s :=
  ⟨fun _ h => h, fun _ h => h, fun _ h => h⟩

theorem Advances.trans (h : Advances m early s s') (h' : Advances m early s' s'') : Advances m early s s'' where
  cloned := fun _ hf => h'.cloned (h.cloned hf)
  log := fun _ hrec => h'.log (h.log hrec)
  settled := by
    intro hlate hs
    have hlate' : ¬ ClonedLate early s' := fun hl => hlate (hl.mono h'.cloned h'.log)
    exact h'.settled hlate (h.settled hlate' hs)

theorem Keeps.advances (h : Keeps m early (fun _ => False) m.Recorded s s') : Advances m early s s' :=
  ⟨h.cloned, h.log, h.apart⟩

theorem settled_initial (m : IRModule α β ν χ) : Settled m [] m.initial := by
  have hnone : ∀ F x, ¬ (m.code F x).HasTripCount := by
    rintro F x ⟨i, hi, hop⟩
    have horiginal := m.code_original F x i hi
    cases i with
    | tripCount op id operand => exact horiginal
    | _ => exact absurd hop Bool.false_ne_true
  refine ⟨List.nil_subset _, List.nil_subset _, List.nodup_nil, fun F x hx => absurd hx (hnone F x),
    fun F x _ => hnone F x, fun F x hx => hx.2, fun F x hx f _ => ?_, fun key hkey => absurd hkey List.not_mem_nil,
    fun rec hrec => absurd hrec List.not_mem_nil⟩
  obtain ⟨⟨PR, hPR, rfl⟩, -⟩ := hx
  exact m.cloneName_ne PR hPR f

end

section

variable [DecidableEq α] [DecidableEq β] {m : IRModule α β ν χ}

omit [DecidableEq α] [DecidableEq β] in
theorem recorded_of_mem {PR : PragmaRegion α β} (hPR : PR ∈ m.prList) {x : β} (hx : x ∈ PR.bbList) :
    m.Recorded PR.F x :=
  ⟨⟨PR, hPR, rfl⟩, m.prList_blocks PR hPR x hx⟩

/-- Behind `processRegionCalls` there are clones, and no counters. -/
theorem settled_processRegionCalls (opts : PassOptions) (m : IRModule α β ν χ) :
    Settled m (processRegionCalls opts m m.initial).cloned (processRegionCalls opts m m.initial) := by
  have hlog : (processRegionCalls opts m m.initial).pragmaRegionLog = [] := by
    refine List.foldlRecOn m.prList _ (motive := fun s : IRState α β ν χ => s.pragmaRegionLog = []) rfl
      fun s hs PR _ => ?_
    refine List.foldlRecOn PR.bbList _ (motive := fun s : IRState α β ν χ => s.pragmaRegionLog = []) hs
      fun s hs x _ => ?_
    exact (unnumbered_processBlock (fun _ => True) opts m PR.pragmaRegionID PR.F s x).log_eq.trans hs
  have hkeeps : Keeps m [] (fun _ => False) m.Recorded m.initial (processRegionCalls opts m m.initial) :=
    .foldl (fun s PR hPR => .foldl (fun s x hx =>
      keeps_processBlock opts PR.pragmaRegionID PR.F (recorded_of_mem hPR hx) s) s) _
  have hlate : ¬ ClonedLate [] (processRegionCalls opts m m.initial) := by
    rintro ⟨f, -, -, rec, hrec, -⟩
    rw [hlog] at hrec
    exact List.not_mem_nil hrec
  exact { hkeeps.apart hlate (settled_initial m) with early_subset := fun _ hf => hf }

variable [Inhabited ν] (early : List α)

theorem advances_instrumentRegion (hsplits : m.llvm.Splits) (opts : EmissionOptions) {PR : PragmaRegion α β}
    (hPR : PR ∈ m.prList) (s : IRState α β ν χ) :
    Advances m early s (instrumentPragmaRegion opts m false s PR) := by
  have hregion : Keeps m early (fun F => F = PR.F) m.Recorded s (instrumentPragmaRegion opts m false s PR) := by
    apply keeps_instrumentPragmaRegion hsplits opts false
    · rfl
    · exact fun x hx => recorded_of_mem hPR hx
  refine ⟨hregion.cloned, hregion.log, fun hlate hs => ?_⟩
  have hend := hregion.apart hlate { hs with pending_clear := fun key hkey _ => hs.pending_clear key hkey not_false }
  exact { hend with pending_clear := fun key hkey _ => hend.pending_clear key hkey (m.cloneName_ne PR hPR key) }

omit [DecidableEq α] [DecidableEq β] [Inhabited ν] in
/-- Before a pending clone is instrumented: its blocks are listed as well. -/
theorem Apart.of_pending {s : IRState α β ν χ} (h : Settled m early s) (hinj : Function.Injective m.cloneName)
    {key : α} (hkey : key ∈ s.pendingFunctionClones) :
    Apart m early (fun F => F = m.cloneName key) (m.RecordedIn key s) s := by
  refine { h with
    listed_clear := fun F x hx => ?_
    listed_mem := fun F x hx => ?_
    listed_ne := fun F x hx f hf => ?_
    pending_clear := fun k hk _ => h.pending_clear k hk not_false }
  · rcases hx with hx | ⟨rfl, -⟩
    · exact h.listed_clear F x hx
    · exact h.pending_clear key hkey not_false x
  · rcases hx with hx | ⟨rfl, hx⟩
    · exact h.listed_mem F x hx
    · exact hx
  · rcases hx with hx | ⟨rfl, -⟩
    · exact h.listed_ne F x hx f hf
    · intro heq
      rw [hinj heq] at hf
      exact hf (h.pending_subset hkey)

omit [DecidableEq β] [Inhabited ν] in
/-- Behind it: the clone is not pending any longer. -/
theorem Apart.erase {s s' : IRState α β ν χ} (hinj : Function.Injective m.cloneName) {key : α}
    (h : Apart m early (fun F => F = m.cloneName key) (m.RecordedIn key s) s') :
    Settled m early { s' with pendingFunctionClones := s'.pendingFunctionClones.erase key } where
  early_subset := h.early_subset
  pending_subset := fun _ hk => h.pending_subset (List.mem_of_mem_erase hk)
  pending_nodup := h.pending_nodup.erase key
  counter := h.counter
  listed_clear := fun F x hx => h.listed_clear F x (.inl hx)
  listed_mem := fun F x hx => h.listed_mem F x (.inl hx)
  listed_ne := fun F x hx => h.listed_ne F x (.inl hx)
  pending_clear := by
    intro k hk _
    obtain ⟨hne, hk⟩ := h.pending_nodup.mem_erase_iff.mp hk
    exact h.pending_clear k hk fun heq => hne (hinj heq)
  turns := h.turns

omit [DecidableEq α] [DecidableEq β] [Inhabited ν] in
theorem leaves_raiseMax (s : IRState α β ν χ) : Leaves s (raiseMax s) := by
  unfold raiseMax
  split
  · exact leaves_withMembers s { s.toPassMembers with
      maxIndirect := s.indirectFunctionCounterOffset
      regionCounterEventMax := max s.regionCounterEventMax s.indirectFunctionCounterOffset } rfl
  · exact .refl s

/-- A pending clone holds no trip counts when it is instrumented, and is not pending any longer. -/
theorem advances_instrumentClone (hsplits : m.llvm.Splits) (hinj : Function.Injective m.cloneName)
    (opts : EmissionOptions) (key : α) (s : IRState α β ν χ) :
    s.cloned ⊆ (instrumentClone opts m s key).cloned ∧
      s.pragmaRegionLog ⊆ (instrumentClone opts m s key).pragmaRegionLog ∧
      (¬ ClonedLate early (instrumentClone opts m s key) → Settled m early s → key ∈ s.pendingFunctionClones →
        Settled m early (instrumentClone opts m s key) ∧
          s.pendingFunctionClones.erase key ⊆ (instrumentClone opts m s key).pendingFunctionClones) := by
  have hF : (fun F => F = m.cloneName key) (clonePR m key s).F := rfl
  have hlisted : ∀ x ∈ (clonePR m key s).bbList, m.RecordedIn key s (clonePR m key s).F x :=
    fun x hx => Or.inr ⟨rfl, hx⟩
  have hstart : Keeps m early (fun F => F = m.cloneName key) (m.RecordedIn key s) s
      { s with indirectFunctionCounterOffset := s.regionCounterEventMax } :=
    (leaves_withMembers s { s.toPassMembers with indirectFunctionCounterOffset := s.regionCounterEventMax } rfl).keeps
  have hclone := hstart.trans (keeps_instrumentPragmaRegion hsplits opts true hF hlisted _)
  unfold instrumentClone
  dsimp only
  generalize instrumentPragmaRegion opts m true _ (clonePR m key s) = s₁ at hclone ⊢
  set s₂ : IRState α β ν χ := { s₁ with pendingFunctionClones := s₁.pendingFunctionClones.erase key }
  have hlast : Keeps m early (fun _ => False) m.Recorded s₂ (raiseMax s₂) := (leaves_raiseMax s₂).keeps
  refine ⟨fun _ hf => hlast.cloned (hclone.cloned hf), fun _ hrec => hlast.log (hclone.log hrec),
    fun hlate hs hkey => ?_⟩
  have hlate₂ : ¬ ClonedLate early s₂ := fun hl => hlate (hl.mono hlast.cloned hlast.log)
  have hend := hclone.apart hlate₂ (.of_pending early hs hinj hkey)
  refine ⟨hlast.apart hlate (.erase early hinj hend), fun k hk => hlast.pending ?_⟩
  obtain ⟨hne, hk⟩ := hs.pending_nodup.mem_erase_iff.mp hk
  exact (List.mem_erase_of_ne hne).mpr (hclone.pending hk)

/-- Clones that are pending, one after the other. -/
theorem advances_instrumentClones (hsplits : m.llvm.Splits) (hinj : Function.Injective m.cloneName)
    (opts : EmissionOptions) (keys : List α) (s : IRState α β ν χ) :
    s.cloned ⊆ (keys.foldl (instrumentClone opts m) s).cloned ∧
      s.pragmaRegionLog ⊆ (keys.foldl (instrumentClone opts m) s).pragmaRegionLog ∧
      (¬ ClonedLate early (keys.foldl (instrumentClone opts m) s) → Settled m early s → keys.Nodup →
        keys ⊆ s.pendingFunctionClones → Settled m early (keys.foldl (instrumentClone opts m) s)) := by
  induction keys generalizing s with
  | nil => exact ⟨fun _ hf => hf, fun _ hrec => hrec, fun _ hs _ _ => hs⟩
  | cons key keys ih =>
    obtain ⟨hcloned, hlog, hfirst⟩ := advances_instrumentClone early hsplits hinj opts key s
    obtain ⟨hcloned', hlog', hrest⟩ := ih (instrumentClone opts m s key)
    rw [List.foldl_cons]
    refine ⟨fun _ hf => hcloned' (hcloned hf), fun _ hrec => hlog' (hlog hrec), fun hlate hs hnodup hkeys => ?_⟩
    have hlate' : ¬ ClonedLate early (instrumentClone opts m s key) := fun hl => hlate (hl.mono hcloned' hlog')
    obtain ⟨hsettled, hpending⟩ := hfirst hlate' hs (hkeys List.mem_cons_self)
    obtain ⟨hkey, hnodup⟩ := List.nodup_cons.mp hnodup
    refine hrest hlate hsettled hnodup fun k hk => hpending ?_
    have hne : k ≠ key := fun heq => hkey (heq ▸ hk)
    exact (List.mem_erase_of_ne hne).mpr (hkeys (List.mem_cons_of_mem key hk))

theorem advances_cloneRound (hsplits : m.llvm.Splits) (hinj : Function.Injective m.cloneName)
    (opts : EmissionOptions) (s : IRState α β ν χ) : Advances m early s (cloneRound opts m s) := by
  obtain ⟨hcloned, hlog, hsettled⟩ :=
    advances_instrumentClones early hsplits hinj opts s.pendingFunctionClones s
  exact ⟨hcloned, hlog, fun hlate hs => hsettled hlate hs hs.pending_nodup fun _ hk => hk⟩

omit [Inhabited ν] in
theorem leaves_initMain (opts : EmissionOptions) (m : IRModule α β ν χ) (s : IRState α β ν χ) :
    Leaves s (initMain opts m s) := by
  unfold initMain
  cases m.main with
  | none => exact .refl s
  | some main =>
    dsimp only [Option.elim]
    split
    · exact (leaves_insertFirst main _ _ s).trans (leaves_insertFirst main _ _ _)
    · exact leaves_insertFirst main _ _ s

theorem advances_instrumentRegions (hsplits : m.llvm.Splits) (opts : EmissionOptions) {l : List (PragmaRegion α β)}
    (hl : l ⊆ m.prList) (s : IRState α β ν χ) :
    Advances m early s (l.foldl (instrumentPragmaRegion opts m false) s) := by
  induction l generalizing s with
  | nil => exact .refl m early s
  | cons PR l ih =>
    have hfirst := advances_instrumentRegion early hsplits opts (hl List.mem_cons_self) s
    exact hfirst.trans (ih (fun _ hPR => hl (List.mem_cons_of_mem PR hPR)) _)

theorem advances_iterate_cloneRound (hsplits : m.llvm.Splits) (hinj : Function.Injective m.cloneName)
    (opts : EmissionOptions) (rounds : Nat) (s : IRState α β ν χ) :
    Advances m early s ((cloneRound opts m)^[rounds] s) := by
  induction rounds generalizing s with
  | zero => exact .refl m early s
  | succ rounds ih =>
    rw [Function.iterate_succ_apply]
    exact (advances_cloneRound early hsplits hinj opts s).trans (ih _)

/-- What is recorded holds no trip count, where the cloned functions with dynamic counters were cloned early. -/
theorem noTripCount_runOnModule (hsplits : m.llvm.Splits) (hinj : Function.Injective m.cloneName)
    (opts : EmissionOptions) (rounds : Nat)
    (hearly : ∀ f ∈ (runOnModule opts m rounds).cloned, (runOnModule opts m rounds).HasDynamicCounter f →
      f ∈ (processRegionCalls opts.toPassOptions m m.initial).cloned) :
    ∀ rec ∈ (runOnModule opts m rounds).pragmaRegionLog, ∀ t ∈ rec.turns, ¬ t.block.HasTripCount := by
  unfold runOnModule at hearly ⊢
  by_cases hmodified : m.modified = true
  · rw [if_pos hmodified] at hearly ⊢
    dsimp only at hearly ⊢
    set early := (processRegionCalls opts.toPassOptions m m.initial).cloned
    have hregions : Advances m early (processRegionCalls opts.toPassOptions m m.initial) (m.prList.foldl
        (instrumentPragmaRegion opts m false) (processRegionCalls opts.toPassOptions m m.initial)) :=
      advances_instrumentRegions early hsplits opts (fun _ hPR => hPR) _
    generalize m.prList.foldl (instrumentPragmaRegion opts m false)
      (processRegionCalls opts.toPassOptions m m.initial) = s at hearly hregions ⊢
    have hrounds : Advances m early s (if opts.applyFunctionCloning then (cloneRound opts m)^[rounds] s else s) := by
      split
      · exact advances_iterate_cloneRound early hsplits hinj opts rounds s
      · exact .refl m early s
    generalize (if opts.applyFunctionCloning then (cloneRound opts m)^[rounds] s else s) = s₁
      at hearly hrounds ⊢
    have hmain : Advances m early s₁ (initMain opts m s₁) := (leaves_initMain opts m s₁).keeps.advances
    have hlate : ¬ ClonedLate early (initMain opts m s₁) := by
      rintro ⟨f, hf, hlate, hdynamic⟩
      exact hlate (hearly f hf hdynamic)
    have hrun := (hregions.trans hrounds).trans hmain
    exact (hrun.settled hlate (settled_processRegionCalls opts.toPassOptions m)).turns
  · rw [if_neg hmodified]
    exact fun rec hrec => absurd hrec List.not_mem_nil

/-- The builds write the same region log when every cloned function, in which a loop has a dynamic counter, was cloned
by `processRegionCalls`, which comes before the counters. -/
theorem zlog_withCounters_of_early (hsplits : m.llvm.Splits) (hinj : Function.Injective m.cloneName)
    (opts : EmissionOptions) (rounds : Nat)
    (hearly : ∀ f ∈ (runOnModule (opts.withCounters true) m rounds).cloned,
      (runOnModule (opts.withCounters true) m rounds).HasDynamicCounter f →
        f ∈ (processRegionCalls opts.toPassOptions m m.initial).cloned) :
    (runOnModule (opts.withCounters false) m rounds).zlog m =
      (runOnModule (opts.withCounters true) m rounds).zlog m := by
  refine (zlog_withCounters_iff opts m rounds).mpr fun rec hrec f => ?_
  have hclear := noTripCount_runOnModule hsplits hinj (opts.withCounters true) rounds hearly rec hrec
  exact sum_tripCountCharge_of_clear m hclear f

end

/-! ### A loop whose function is cloned early -/

theorem loopLLVM_splits : loopLLVM.Splits where
  loops := by
    intro c
    cases c with
    | none => exact trivial
    | some splits => simp [loopLLVM, loopAnalysis, LoopsWellFormed]
  edgeBlock := by
    intro c header
    cases c with
    | none => simp [loopLLVM, loopAnalysis, loopBlocks]
    | some splits =>
      simp only [loopLLVM, loopAnalysis, loopBlocks, Option.getD_some, List.mem_cons, List.mem_append,
        List.mem_range'_1, List.not_mem_nil, or_false]
      omega

private theorem calls_earlyLoop (f : Nat) :
    ∀ i ∈ (if f = 0 then [plainCall 2] else []).map (Item.program (α := Nat) (ν := Nat)), i.IsOriginal := by
  intro i hi
  obtain ⟨I, -, rfl⟩ := List.mem_map.mp hi
  trivial

/-- Function 0 calls function 2 in its region. -/
def earlyLoop : IRModule Nat Nat Nat (Option Nat) :=
  { clonedLoop with
    code := fun f _ =>
      { body := (if f = 0 then [plainCall 2] else []).map .program
        terminator := { withCall := fun _ => { id := 3, opcode := .br } } }
    code_original := fun f _ => calls_earlyLoop f }

/-- Function 2 is cloned, and its loop has a dynamic counter: the clone was made before. -/
example : (runOnModule (EmissionOptions.withCounters {} false) earlyLoop 2).zlog earlyLoop =
    (runOnModule (EmissionOptions.withCounters {} true) earlyLoop 2).zlog earlyLoop := by
  refine zlog_withCounters_of_early loopLLVM_splits (fun f g h => Nat.add_right_cancel h) {} 2 fun f hf _ => ?_
  have hcloned : (runOnModule (EmissionOptions.withCounters {} true) earlyLoop 2).cloned =
      (processRegionCalls {} earlyLoop earlyLoop.initial).cloned := by decide +kernel
  rw [hcloned] at hf
  exact hf

end Emission

end ZRay.Pass
