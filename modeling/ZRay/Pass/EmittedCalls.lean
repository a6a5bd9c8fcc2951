import ZRay.DecimalText
import ZRay.Pass.RecordInst

/-!
# The calls of the pass

The calls that the pass puts into the code, as they print.  None of the functions has an attribute, so every call may
read and write memory, and the filter of `recordInst` takes back the load, the store and the instruction that were
recorded for a call it knows by name: the timing events and the increments (`isToolCall_toInstruction`).  All others
are recorded as calls of the program.
-/

namespace ZRay.Pass

/-- `mangleFunctionName`, for a name and the letters of its parameters. -/
def mangleFunctionName (name args : List Char) : List Char :=
  "_Z".toList ++ Nat.toDigits 10 name.length ++ name ++ args

/-- The calls that the pass inserts, with what they pass.  A size or scale factor computed at run time comes with its
operand and with the text it prints as. -/
inductive EmittedCall (ν : Type*) where
  | startTimingEvent (pragmaRegionID : Nat)
  | endTimingEvent (pragmaRegionID : Nat)
  | incrementCounterArray (pragmaRegionID postDomSetID : Nat)
  | incrementCounterArraySF (pragmaRegionID postDomSetID : Nat) (scaleFactor : Operand ν) (printed : List Char)
  | incrementLoadArray (pragmaRegionID postDomSetID : Nat) (size : Operand ν) (printed : List Char)
  | incrementStoreArray (pragmaRegionID postDomSetID : Nat) (size : Operand ν) (printed : List Char)
  | incrementLoadStoreArray (pragmaRegionID postDomSetID : Nat) (size : Operand ν) (printed : List Char)
  | bbTag (ceID scaleFactor : Nat)
  | on_thread_exit
  | on_thread_exit_monitor
  | register_thread
  | unregister_thread
  | zray_runtime_init (roiCount counterEvents : Nat)
  | start_host_proc
  deriving DecidableEq

namespace EmittedCall

variable {ν : Type*}

/-- `i64 n`. -/
def printedWord (n : Nat) : List Char := "i64 ".toList ++ Nat.toDigits 10 n

/-- A function and its arguments. -/
def printedFunction (name params : List Char) (arguments : List (List Char)) : List Char :=
  '@' :: (mangleFunctionName name params ++ '(' :: ", ".toList.intercalate arguments)

/-- What is called, and with which arguments, as it prints. -/
def printedCallee : EmittedCall ν → List Char
  | .startTimingEvent r => printedFunction "startTimingEvent".toList "m".toList [printedWord r]
  | .endTimingEvent r => printedFunction "endTimingEvent".toList "m".toList [printedWord r]
  | .incrementCounterArray r k =>
    printedFunction "incrementCounterArray".toList "mm".toList [printedWord r, printedWord k]
  | .incrementCounterArraySF r k _ printed =>
    printedFunction "incrementCounterArraySF".toList "mmm".toList
      [printedWord r, printedWord k, "i64 ".toList ++ printed]
  | .incrementLoadArray r k _ printed =>
    printedFunction "incrementLoadArray".toList "mmm".toList [printedWord r, printedWord k, "i64 ".toList ++ printed]
  | .incrementStoreArray r k _ printed =>
    printedFunction "incrementStoreArray".toList "mmm".toList [printedWord r, printedWord k, "i64 ".toList ++ printed]
  | .incrementLoadStoreArray r k _ printed =>
    printedFunction "incrementLoadStoreArray".toList "mmm".toList
      [printedWord r, printedWord k, "i64 ".toList ++ printed]
  | .bbTag ceID scaleFactor =>
    "asm sideeffect \"#BB_TAG ".toList ++ (Nat.toDigits 10 ceID ++ ' ' :: (Nat.toDigits 10 scaleFactor ++
      "\", \"\"(".toList))
  | .on_thread_exit => printedFunction "on_thread_exit".toList "v".toList []
  | .on_thread_exit_monitor => printedFunction "on_thread_exit_monitor".toList "v".toList []
  | .register_thread => printedFunction "__register_thread".toList "v".toList []
  | .unregister_thread => printedFunction "__unregister_thread".toList "v".toList []
  | .zray_runtime_init n k => printedFunction "zray_runtime_init".toList "Pvmm".toList [printedWord n, printedWord k]
  | .start_host_proc => printedFunction "__start_host_proc".toList "v".toList []

/-- The line of the call, with its debug location. -/
def printed (e : EmittedCall ν) (dbg : Option Nat) : List Char :=
  "  call void ".toList ++ (e.printedCallee ++ ')' :: dbg.elim [] fun n => ", !dbg !".toList ++ Nat.toDigits 10 n)

def word : Operand ν := .constant 1 8 false false

/-- The arguments, and behind them the callee, which is a pointer. -/
def operands : EmittedCall ν → List (Operand ν)
  | .startTimingEvent _ => [word, .constant 1 8 true true]
  | .endTimingEvent _ => [word, .constant 1 8 true true]
  | .incrementCounterArray _ _ => [word, word, .constant 1 8 true true]
  | .incrementCounterArraySF _ _ scaleFactor _ => [word, word, scaleFactor, .constant 1 8 true true]
  | .incrementLoadArray _ _ size _ => [word, word, size, .constant 1 8 true true]
  | .incrementStoreArray _ _ size _ => [word, word, size, .constant 1 8 true true]
  | .incrementLoadStoreArray _ _ size _ => [word, word, size, .constant 1 8 true true]
  | .bbTag _ _ => [.constant 0 0 true false]
  | .on_thread_exit => [.constant 1 8 true true]
  | .on_thread_exit_monitor => [.constant 1 8 true true]
  | .register_thread => [.constant 1 8 true true]
  | .unregister_thread => [.constant 1 8 true true]
  | .zray_runtime_init _ _ => [word, word, .constant 1 8 true true]
  | .start_host_proc => [.constant 1 8 true true]

/-- The call as an instruction.  It has no value, so its identity is never used. -/
def toInstruction (e : EmittedCall ν) (id : ν) (dbg : Option Nat) : Instruction ν where
  id := id
  opcode := .call
  operands := e.operands
  printed := e.printed dbg

/-- A timing event or an increment: the calls that the filter is meant for. -/
def isEvent : EmittedCall ν → Bool
  | .startTimingEvent _ | .endTimingEvent _ => true
  | .incrementCounterArray _ _ | .incrementCounterArraySF _ _ _ _ => true
  | .incrementLoadArray _ _ _ _ | .incrementStoreArray _ _ _ _ | .incrementLoadStoreArray _ _ _ _ => true
  | .bbTag _ _ => false
  | .on_thread_exit | .on_thread_exit_monitor | .register_thread | .unregister_thread => false
  | .zray_runtime_init _ _ | .start_host_proc => false

/-! ### The filter -/

theorem infix_printed {word name params : List Char} {arguments : List (List Char)} {e : EmittedCall ν}
    (h : word <:+: name) (he : e.printedCallee = printedFunction name params arguments) (dbg : Option Nat) :
    word <:+: e.printed dbg := by
  have hmangled : word <:+: mangleFunctionName name params := by
    unfold mangleFunctionName
    exact (h.trans (List.suffix_append _ _).isInfix).trans (List.prefix_append _ _).isInfix
  have hcallee : word <:+: e.printedCallee := by
    rw [he, printedFunction]
    exact (hmangled.trans (List.prefix_append _ _).isInfix).trans (List.suffix_cons _ _).isInfix
  exact (hcallee.trans (List.prefix_append _ _).isInfix).trans (List.suffix_append _ _).isInfix

/-- A text without the capitals that the names of the filter have, one each. -/
def Plain (t : List Char) : Prop := ∀ c ∈ t, c ∉ "ERCLS".toList

instance (t : List Char) : Decidable (Plain t) := List.decidableBAll (fun c => c ∉ "ERCLS".toList) t

theorem Plain.append {t t' : List Char} (h : Plain t) (h' : Plain t') : Plain (t ++ t') := by
  intro c hc
  rcases List.mem_append.mp hc with hc | hc
  · exact h c hc
  · exact h' c hc

theorem plain_toDigits (n : Nat) : Plain (Nat.toDigits 10 n) := by
  intro c hc hcap
  have hdigit := Nat.isDigit_of_mem_toDigits (b := 10) (n := n) (by decide) (by decide) hc
  revert hdigit
  fin_cases hcap <;> decide

theorem plain_printedFunction {name params : List Char} {arguments : List (List Char)} (hname : Plain name)
    (hparams : Plain params) (harguments : ∀ t ∈ arguments, Plain t) :
      Plain (printedFunction name params arguments) := by
  have hlist : Plain (", ".toList.intercalate arguments) := by
    induction arguments with
    | nil => exact fun c hc => absurd hc (by simp)
    | cons t arguments ih =>
      cases arguments with
      | nil => simpa using harguments t
      | cons t' arguments =>
        rw [List.intercalate_cons_cons, List.append_assoc]
        exact (harguments t List.mem_cons_self).append
          (Plain.append (by decide) (ih fun u hu => harguments u (List.mem_cons_of_mem _ hu)))
  have hmangled : Plain (mangleFunctionName name params) :=
    ((Plain.append (by decide) (plain_toDigits _)).append hname).append hparams
  have hopen : Plain ['@'] := by decide
  have hparen : Plain ['('] := by decide
  exact hopen.append (hmangled.append (hparen.append hlist))

theorem plain_printedWord (n : Nat) : Plain (printedWord n) := Plain.append (by decide) (plain_toDigits n)

theorem plain_printed {e : EmittedCall ν} (h : e.isEvent = false) (dbg : Option Nat) : Plain (e.printed dbg) := by
  have hcallee : Plain e.printedCallee := by
    cases e with
    | startTimingEvent _ => simp [isEvent] at h
    | endTimingEvent _ => simp [isEvent] at h
    | incrementCounterArray _ _ => simp [isEvent] at h
    | incrementCounterArraySF _ _ _ _ => simp [isEvent] at h
    | incrementLoadArray _ _ _ _ => simp [isEvent] at h
    | incrementStoreArray _ _ _ _ => simp [isEvent] at h
    | incrementLoadStoreArray _ _ _ _ => simp [isEvent] at h
    | bbTag ceID scaleFactor =>
      have hspace : Plain [' '] := by decide
      exact Plain.append (by decide) ((plain_toDigits _).append (hspace.append
        ((plain_toDigits _).append (by decide))))
    | on_thread_exit => exact plain_printedFunction (by decide) (by decide) (by simp)
    | on_thread_exit_monitor => exact plain_printedFunction (by decide) (by decide) (by simp)
    | register_thread => exact plain_printedFunction (by decide) (by decide) (by simp)
    | unregister_thread => exact plain_printedFunction (by decide) (by decide) (by simp)
    | zray_runtime_init n k =>
      exact plain_printedFunction (by decide) (by decide) (by simp [plain_printedWord])
    | start_host_proc => exact plain_printedFunction (by decide) (by decide) (by simp)
  have hclose : Plain [')'] := by decide
  have hdbg : Plain (dbg.elim [] fun n => ", !dbg !".toList ++ Nat.toDigits 10 n) := by
    cases dbg with
    | none => exact fun c hc => absurd hc (by simp)
    | some n => exact Plain.append (by decide) (plain_toDigits n)
  exact Plain.append (by decide) (hcallee.append (hclose.append hdbg))

theorem Plain.findFrom_eq_none {t word : List Char} (h : Plain t) (hword : ¬ Plain word) :
    findFrom word t = none := by
  by_contra hne
  have hpiece := isSome_findFrom.mp (Option.isSome_iff_ne_none.mpr hne)
  exact hword fun c hc => h c (hpiece.subset hc)

/-- The filter takes the events, and no other call of the pass. -/
theorem isToolCall_toInstruction (e : EmittedCall ν) (id : ν) (dbg : Option Nat) :
    (e.toInstruction id dbg).isToolCall = e.isEvent := by
  cases h : e.isEvent with
  | true =>
    have hpiece : ["TimingEvent".toList, "incrementCounterArray".toList, "incrementLoad".toList,
        "incrementStore".toList].any fun word => (findFrom word (e.printed dbg)).isSome := by
      simp only [List.any_eq_true, isSome_findFrom]
      cases e with
      | startTimingEvent _ => exact ⟨"TimingEvent".toList, by decide, infix_printed (by decide) rfl dbg⟩
      | endTimingEvent _ => exact ⟨"TimingEvent".toList, by decide, infix_printed (by decide) rfl dbg⟩
      | incrementCounterArray _ _ =>
        exact ⟨"incrementCounterArray".toList, by decide, infix_printed (by decide) rfl dbg⟩
      | incrementCounterArraySF _ _ _ _ =>
        exact ⟨"incrementCounterArray".toList, by decide, infix_printed (by decide) rfl dbg⟩
      | incrementLoadArray _ _ _ _ => exact ⟨"incrementLoad".toList, by decide, infix_printed (by decide) rfl dbg⟩
      | incrementStoreArray _ _ _ _ => exact ⟨"incrementStore".toList, by decide, infix_printed (by decide) rfl dbg⟩
      | incrementLoadStoreArray _ _ _ _ =>
          exact ⟨"incrementLoad".toList, by decide, infix_printed (by decide) rfl dbg⟩
      | bbTag _ _ => simp [isEvent] at h
      | on_thread_exit => simp [isEvent] at h
      | on_thread_exit_monitor => simp [isEvent] at h
      | register_thread => simp [isEvent] at h
      | unregister_thread => simp [isEvent] at h
      | zray_runtime_init _ _ => simp [isEvent] at h
      | start_host_proc => simp [isEvent] at h
    simp only [List.any_cons, List.any_nil, Bool.or_false, Bool.or_eq_true] at hpiece
    simp only [Instruction.isToolCall, toInstruction]
    rcases hpiece with hfound | hfound | hfound | hfound <;> simp only [hfound, Bool.or_true, Bool.true_or]
  | false =>
    have hplain := plain_printed h dbg
    simp only [Instruction.isToolCall, toInstruction]
    rw [hplain.findFrom_eq_none (by decide), hplain.findFrom_eq_none (by decide), hplain.findFrom_eq_none (by decide),
      hplain.findFrom_eq_none (by decide), hplain.findFrom_eq_none (by decide)]
    rfl

end EmittedCall

end ZRay.Pass
