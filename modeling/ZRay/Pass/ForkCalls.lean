import ZRay.Pass.Clones
import ZRay.Substring

/-!
# The microtask of a fork call

`processCallInst` finds the microtask of a `__kmpc_fork_call` in the printed call: from the first ".omp" up to the
next blank.  Where the operand is printed as a cast the name is followed by " to ", but a plain operand is followed by
a comma or a closing parenthesis, which are taken for a part of the name; a name in quotes is taken with its closing
quote; and an ".omp" in an earlier operand is taken instead.  Moreover only a cast operand is replaced.  So the call
is redirected exactly under the condition of `forkRedirected_iff`.
-/

namespace ZRay.Pass.Clones

/-! ### Printed calls -/

/-- ".omp". -/
def dotOmp : List Char := ['.', 'o', 'm', 'p']

/-- How LLVM prints a name behind the `@`: as it is, or in quotes with each character escaped.  A name without
quotes has no blank; an escaped character is never empty and holds a blank only if it is one; and the characters
of ".omp" are not escaped. -/
structure NamePrinter where
  quotes : List Char → Bool
  escape : Char → List Char
  bare_noBlank : ∀ name, quotes name = false → ' ' ∉ name
  escape_ne_nil : ∀ c, escape c ≠ []
  escape_blank : ∀ c, ' ' ∈ escape c → c = ' '
  escape_dotOmp : ∀ c ∈ dotOmp, escape c = [c]

def NamePrinter.print (p : NamePrinter) (name : List Char) : List Char :=
  if p.quotes name then '"' :: (name.flatMap p.escape ++ ['"']) else name

/-- A call of `__kmpc_fork_call`: operand 2 is the microtask, a function or a cast of one (a constant expression).
The rest is the printed call: the text in front of " @" and the microtask's name, with the first two operands, and the
text behind the name, or behind " to " where it is a cast. -/
structure ForkCall where
  before : List Char
  microtask : List Char
  isCast : Bool
  after : List Char
  plain_after : isCast = false → ∃ c text, after = c :: text ∧ (c = ',' ∨ c = ')')

/-- What `callInst->print` writes. -/
def ForkCall.print (p : NamePrinter) (callInst : ForkCall) : List Char :=
  callInst.before ++ ' ' :: '@' :: (p.print callInst.microtask ++
    if callInst.isCast then ' ' :: 't' :: 'o' :: ' ' :: callInst.after else callInst.after)

/-- The name that is cut out of the printed call. -/
def ForkCall.ompName (p : NamePrinter) (callInst : ForkCall) : Option (List Char) :=
  (findFrom dotOmp (callInst.print p)).map (·.takeWhile (· ≠ ' '))

/-- The function of the module that the name is looked up as. -/
def forkedFunction (opts : PassOptions) (p : NamePrinter) (m : IRModule (List Char)) (callInst : ForkCall)
    (s : IRState (List Char)) : Option (List Char) :=
  if opts.applyFunctionCloning then (callInst.ompName p).filter (getFunction m · s) else none

/-- `processCallInst`, for a call of `__kmpc_fork_call`. -/
def processForkCall (opts : PassOptions) (p : NamePrinter) (m : IRModule (List Char)) (pragmaRegionID : Nat)
    (callInst : ForkCall) (s : IRState (List Char)) : ForkCall × IRState (List Char) :=
  match forkedFunction opts p m callInst s with
  | none => (callInst, s)
  | some f =>
    let (newF, s) := processFunctionClone m f pragmaRegionID s
    (if callInst.isCast then { callInst with microtask := newF } else callInst, s)

/-- The call as `processCallInst` sees it when the printed name is given. -/
def ForkCall.toCallInst (p : NamePrinter) (m : IRModule (List Char)) (callInst : ForkCall) :
    CallInst (List Char) where
  calledFunction := some m.kmpcForkCall
  ompName := callInst.ompName p
  isConstantExpr := callInst.isCast

/-- The two agree: on the state, and on the name in a cast. -/
theorem processCallInst_toCallInst (opts : PassOptions) (p : NamePrinter) (m : IRModule (List Char)) (r : Nat)
    (callInst : ForkCall) (s : IRState (List Char)) (hdeclared : s.size m.kmpcForkCall = 0)
    (hintrinsic : m.isIntrinsic m.kmpcForkCall = false) :
    processCallInst opts m r (callInst.toCallInst p m) s =
      (if callInst.isCast ∧ (forkedFunction opts p m callInst s).isSome then
          { callInst.toCallInst p m with ompName := some (processForkCall opts p m r callInst s).1.microtask }
        else callInst.toCallInst p m,
        (processForkCall opts p m r callInst s).2) := by
  unfold processCallInst processForkCall forkedFunction
  simp only [ForkCall.toCallInst, hintrinsic, Bool.false_eq_true, if_false, hdeclared, if_true]
  by_cases hopt : opts.applyFunctionCloning = true
  · simp only [hopt, and_self, if_true]
    cases hname : callInst.ompName p with
    | none => simp
    | some f =>
      by_cases hf : getFunction m f s = true
      · have hfilter : (some f).filter (getFunction m · s) = some f := by rw [Option.filter_some, if_pos hf]
        simp only [hf, hfilter, if_true]
        by_cases hcast : callInst.isCast = true
        · simp [hcast]
        · simp [hcast]
      · have hfilter : (some f).filter (getFunction m · s) = none := by rw [Option.filter_some, if_neg hf]
        simp [hf, hfilter]
  · simp [hopt]

/-! ### Redirection -/

/-- The clone of a function: a clone that has none of its own counts as its own. -/
def cloneOf (m : IRModule (List Char)) (s : IRState (List Char)) (f : List Char) : List Char :=
  if f ∈ s.clonedFunctionNames ∧ f ∉ s.cloned then f else m.cloneName f

theorem processFunctionClone_fst (m : IRModule (List Char)) (f : List Char) (r : Nat) (s : IRState (List Char)) :
    (processFunctionClone m f r s).1 = cloneOf m s f := by
  unfold processFunctionClone cloneOf
  by_cases hf : f ∈ s.cloned
  · simp [hf]
  · by_cases hname : f ∈ s.clonedFunctionNames
    · simp [hf, hname]
    · simp [hf, hname]

/-- The microtask is recovered, and the operand is its clone afterwards. -/
structure ForkRedirected (opts : PassOptions) (p : NamePrinter) (m : IRModule (List Char)) (r : Nat)
    (callInst : ForkCall) (s : IRState (List Char)) : Prop where
  recovered : forkedFunction opts p m callInst s = some callInst.microtask
  operand : (processForkCall opts p m r callInst s).1.microtask = cloneOf m s callInst.microtask

section

variable {p : NamePrinter} {callInst : ForkCall}

/-- An ".omp" in front of the operand is taken for the microtask, up to the blank. -/
theorem ForkCall.ompName_of_before {t : List Char} (h : findFrom dotOmp callInst.before = some t) :
    callInst.ompName p = some (t.takeWhile (· ≠ ' ')) := by
  unfold ompName print
  rw [findFrom_append_of_some (by decide) h, Option.map_some, takeWhile_ne_append_cons]

/-- Else the name is read from the operand on. -/
theorem ForkCall.ompName_of_operand (h : findFrom dotOmp callInst.before = none) :
    callInst.ompName p = (findFrom dotOmp (p.print callInst.microtask ++
      if callInst.isCast then ' ' :: 't' :: 'o' :: ' ' :: callInst.after else callInst.after)).map
        (·.takeWhile (· ≠ ' ')) := by
  unfold ompName print
  rw [findFrom_append_of_none (by decide) (by decide) h, findFrom_cons_of_ne (by decide) (by decide)]

/-- In quotes the name comes with its closing quote, or cut at a blank of its own. -/
theorem NamePrinter.takeWhile_quoted_ne (p : NamePrinter) (name text : List Char) :
    (name.flatMap p.escape ++ '"' :: text).takeWhile (· ≠ ' ') ≠ name := by
  intro heq
  by_cases hblank : ' ' ∈ name
  · exact notMem_takeWhile_ne ' ' _ (heq ▸ hblank)
  · have hescaped : ' ' ∉ name.flatMap p.escape := by
      intro hmem
      obtain ⟨c, hc, hcblank⟩ := List.mem_flatMap.mp hmem
      exact hblank (p.escape_blank c hcblank ▸ hc)
    -- every character is at least one, and the quote is one more
    have hlong : ∀ l : List Char, l.length ≤ (l.flatMap p.escape).length := by
      intro l
      induction l with
      | nil => simp
      | cons c l ih =>
        have hpos := List.length_pos_iff.mpr (p.escape_ne_nil c)
        rw [List.flatMap_cons, List.length_append, List.length_cons]
        omega
    have hlen := congrArg List.length heq
    have hname := hlong name
    rw [takeWhile_ne_append_of_notMem hescaped, List.takeWhile_cons_of_pos (by decide), List.length_append,
      List.length_cons] at hlen
    omega

/-- Read from the operand, the name is right exactly when it is followed by a blank and has no quotes. -/
theorem ForkCall.ompName_eq_iff_of_operand (h : findFrom dotOmp callInst.before = none)
    (hname : dotOmp <+: callInst.microtask) :
    callInst.ompName p = some callInst.microtask ↔ callInst.isCast = true ∧ p.quotes callInst.microtask = false := by
  have hne : dotOmp ≠ [] := by decide
  rw [callInst.ompName_of_operand h, NamePrinter.print]
  generalize hrest : (if callInst.isCast then ' ' :: 't' :: 'o' :: ' ' :: callInst.after else callInst.after) = rest
  cases hquotes : p.quotes callInst.microtask with
  | true =>
    -- behind the quote the escaped name begins with ".omp"
    have hprefix : dotOmp <+: callInst.microtask.flatMap p.escape ++ '"' :: rest := by
      obtain ⟨tail, htail⟩ := hname
      refine ⟨tail.flatMap p.escape ++ '"' :: rest, ?_⟩
      rw [← htail, List.flatMap_append, List.append_assoc]
      congr 1
      have hself := p.escape_dotOmp
      simp only [dotOmp, List.mem_cons, List.not_mem_nil, or_false, forall_eq_or_imp, forall_eq] at hself
      obtain ⟨h1, h2, h3, h4⟩ := hself
      simp [dotOmp, h1, h2, h3, h4]
    have hprinted : '"' :: (callInst.microtask.flatMap p.escape ++ ['"']) ++ rest =
        '"' :: (callInst.microtask.flatMap p.escape ++ '"' :: rest) := by simp
    simp only [if_true, Bool.true_eq_false, and_false, iff_false]
    rw [hprinted, findFrom_cons_of_ne (by decide) hne, findFrom_of_isPrefixOf hne hprefix, Option.map_some,
      Option.some.injEq]
    exact p.takeWhile_quoted_ne _ _
  | false =>
    have hbare := p.bare_noBlank _ hquotes
    simp only [Bool.false_eq_true, if_false, and_true]
    rw [findFrom_of_isPrefixOf hne (hname.trans ⟨rest, rfl⟩), Option.map_some, Option.some.injEq,
      takeWhile_ne_append_of_notMem hbare]
    constructor
    · intro heq
      by_contra hcast
      have hplain : callInst.isCast = false := by simpa using hcast
      obtain ⟨c, text, hafter, hc⟩ := callInst.plain_after hplain
      rw [hplain, if_neg Bool.false_ne_true, hafter] at hrest
      have hcblank : c ≠ ' ' := by
        rcases hc with rfl | rfl <;> decide
      rw [← hrest, List.takeWhile_cons_of_pos (by simpa using hcblank)] at heq
      simpa using congrArg List.length heq
    · intro hcast
      rw [hcast, if_pos rfl] at hrest
      rw [← hrest]
      simp

/-- The condition on the printed call under which its microtask is read from it. -/
def NameReadable (p : NamePrinter) (callInst : ForkCall) : Prop :=
  match findFrom dotOmp callInst.before with
  | none => callInst.isCast = true ∧ p.quotes callInst.microtask = false
  | some t => t.takeWhile (· ≠ ' ') = callInst.microtask

theorem ForkCall.ompName_eq_iff (hname : dotOmp <+: callInst.microtask) :
    callInst.ompName p = some callInst.microtask ↔ NameReadable p callInst := by
  unfold NameReadable
  cases hbefore : findFrom dotOmp callInst.before with
  | none => exact callInst.ompName_eq_iff_of_operand hbefore hname
  | some t => rw [callInst.ompName_of_before hbefore, Option.some.injEq]

end

/-- For every call of `__kmpc_fork_call` with a microtask of the module: the microtask is recovered from the printed
call and its operand becomes the clone, if and only if functions are cloned, the operand is a cast or a clone already,
and the name can be read from the text. -/
theorem forkRedirected_iff (opts : PassOptions) (p : NamePrinter) (m : IRModule (List Char)) (r : Nat)
    (callInst : ForkCall) (s : IRState (List Char)) (hname : dotOmp <+: callInst.microtask)
    (hdefined : getFunction m callInst.microtask s = true) :
    ForkRedirected opts p m r callInst s ↔
      opts.applyFunctionCloning = true ∧
        (callInst.isCast = true ∨ cloneOf m s callInst.microtask = callInst.microtask) ∧ NameReadable p callInst := by
  have hforked : forkedFunction opts p m callInst s = some callInst.microtask ↔
      opts.applyFunctionCloning = true ∧ NameReadable p callInst := by
    rw [← ForkCall.ompName_eq_iff hname, forkedFunction]
    by_cases hopt : opts.applyFunctionCloning = true
    · rw [if_pos hopt, Option.filter_eq_some_iff]
      exact ⟨fun h => ⟨hopt, h.1⟩, fun h => ⟨h.2, hdefined⟩⟩
    · simp [hopt]
  have hoperand : forkedFunction opts p m callInst s = some callInst.microtask →
      ((processForkCall opts p m r callInst s).1.microtask = cloneOf m s callInst.microtask ↔
        callInst.isCast = true ∨ cloneOf m s callInst.microtask = callInst.microtask) := by
    intro h
    unfold processForkCall
    rw [h]
    dsimp only
    by_cases hcast : callInst.isCast = true
    · simp [hcast, processFunctionClone_fst]
    · simp [hcast, eq_comm]
  constructor
  · rintro ⟨hrecovered, hop⟩
    obtain ⟨hopt, hread⟩ := hforked.mp hrecovered
    exact ⟨hopt, (hoperand hrecovered).mp hop, hread⟩
  · rintro ⟨hopt, hcast, hread⟩
    have hrecovered := hforked.mpr ⟨hopt, hread⟩
    exact ⟨hrecovered, (hoperand hrecovered).mpr hcast⟩

/-! ### Two renderings -/

/-- A hexadecimal digit as LLVM writes it. -/
def hexDigit (n : Nat) : Char :=
  ['0', '1', '2', '3', '4', '5', '6', '7', '8', '9', 'A', 'B', 'C', 'D', 'E', 'F'].getD n '0'

private theorem hexDigit_ne_blank : ∀ n : Fin 16, hexDigit n ≠ ' ' := by decide

/-- LLVM's printer: letters, digits, and "-", "." and "_" need no quotes; a quoted character that is not printable, a
quote or a backslash is written as its code. -/
def llvmNames : NamePrinter where
  quotes name := name.any fun c => !(c.isAlphanum || c == '-' || c == '.' || c == '_')
  escape c :=
    if 32 ≤ c.toNat ∧ c.toNat ≤ 126 ∧ c ≠ '"' ∧ c ≠ '\\' then [c]
    else ['\\', hexDigit (c.toNat / 16 % 16), hexDigit (c.toNat % 16)]
  bare_noBlank := by
    intro name hquotes hblank
    have hall := List.any_eq_false.mp hquotes ' ' hblank
    exact hall (by decide)
  escape_ne_nil := by
    intro c
    split <;> simp
  escape_blank := by
    intro c hblank
    have hhex : ∀ n : Nat, n < 16 → hexDigit n ≠ ' ' := fun n hn => hexDigit_ne_blank ⟨n, hn⟩
    split at hblank
    · exact (List.mem_singleton.mp hblank).symm
    · simp only [List.mem_cons, List.not_mem_nil, or_false] at hblank
      rcases hblank with h | h | h
      · exact absurd h (by decide)
      · exact absurd h.symm (hhex _ (Nat.mod_lt _ (by decide)))
      · exact absurd h.symm (hhex _ (Nat.mod_lt _ (by decide)))
  escape_dotOmp := by
    intro c hc
    simp only [dotOmp, List.mem_cons, List.not_mem_nil, or_false] at hc
    rcases hc with rfl | rfl | rfl | rfl <;> exact if_pos (by decide)

/-- "__kmpc_fork_call". -/
def forkCallName : List Char := ['_', '_', 'k', 'm', 'p', 'c', '_', 'f', 'o', 'r', 'k', '_', 'c', 'a', 'l', 'l']

/-- ".omp_outlined.". -/
def outlinedName : List Char := ['.', 'o', 'm', 'p', '_', 'o', 'u', 't', 'l', 'i', 'n', 'e', 'd', '.']

/-- A module with one microtask; the number of its clone is appended to its name. -/
def forkModule : IRModule (List Char) where
  functions := [forkCallName, outlinedName]
  size := fun f => if f = outlinedName then 1 else 0
  code := fun _ => {}
  bbTags_nil := fun _ => rfl
  mem_functions := by
    intro f hf
    by_cases h : f = outlinedName
    · simp [h]
    · simp [h] at hf
  calledFunction_mem := by simp
  isIntrinsic := fun _ => false
  size_intrinsic := by simp
  kmpcForkCall := forkCallName
  onThreadExit := ['e']
  startsWithOmp := fun f => dotOmp.isPrefixOf f
  prList := []
  prList_id := rfl
  prList_blocks := by simp
  prList_nodup := by simp
  cloneName := fun f => f ++ ['1']
  cloneName_notMem := by decide
  cloneName_inj := fun f _ g _ h => List.append_cancel_right h
  orderBasicBlocks := fun f => [(f, 0)]
  orderBasicBlocks_fst := by simp
  orderBasicBlocks_nodup := by simp
  orderBasicBlocks_entry := by simp
  analysis := fun _ => ⟨[], fun _ => 1, fun _ => false, ⟨fun _ _ => false, fun _ _ => false⟩, .nil,
    fun _ => .couldNotCompute, fun _ => .couldNotCompute, fun _ => .couldNotCompute⟩
  cloneAnalysis := fun _ => ⟨[], fun _ => 1, fun _ => false, ⟨fun _ _ => false, fun _ _ => false⟩, .nil,
    fun _ => .couldNotCompute, fun _ => .couldNotCompute, fun _ => .couldNotCompute⟩
  loops_wellFormed := fun _ => trivial
  cloneLoops_wellFormed := fun _ => trivial

/-- A fork with typed pointers: the operand is a bitcast. -/
def typedFork : ForkCall where
  before := ['b', 'i', 't', 'c', 'a', 's', 't', ' ', '(', 'v', 'o', 'i', 'd', ' ', '(', ')', '*']
  microtask := outlinedName
  isCast := true
  after := ['v', 'o', 'i', 'd', ' ', '(', '.', '.', '.', ')', '*', ')', ')']
  plain_after := by simp

/-- The same fork with opaque pointers: `ptr @.omp_outlined.)`. -/
def opaqueFork : ForkCall where
  before := ['p', 't', 'r']
  microtask := outlinedName
  isCast := false
  after := [')']
  plain_after := fun _ => ⟨')', [], rfl, .inr rfl⟩

theorem forkRedirected_typedFork : ForkRedirected {} llvmNames forkModule 0 typedFork forkModule.initial := by
  have hbefore : findFrom dotOmp typedFork.before = none := by decide
  refine (forkRedirected_iff {} llvmNames forkModule 0 typedFork forkModule.initial (by decide) (by decide)).mpr
    ⟨rfl, .inl rfl, ?_⟩
  rw [NameReadable, hbefore]
  decide

/-- The plain operand is read as ".omp_outlined.)", which is no function, and stays as it is. -/
theorem not_forkRedirected_opaqueFork :
    opaqueFork.ompName llvmNames = some (outlinedName ++ [')']) ∧
      processForkCall {} llvmNames forkModule 0 opaqueFork forkModule.initial = (opaqueFork, forkModule.initial) ∧
      ¬ ForkRedirected {} llvmNames forkModule 0 opaqueFork forkModule.initial := by
  have hname : opaqueFork.ompName llvmNames = some (outlinedName ++ [')']) := by decide
  have hforked : forkedFunction {} llvmNames forkModule opaqueFork forkModule.initial = none := by
    rw [forkedFunction, hname]
    decide
  refine ⟨hname, ?_, fun h => ?_⟩
  · unfold processForkCall
    rw [hforked]
  · have hrecovered := h.recovered
    rw [hforked] at hrecovered
    simp at hrecovered

end ZRay.Pass.Clones
