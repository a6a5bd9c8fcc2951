import ZRay.DecimalText
import ZRay.Pass.Reduce
import ZRay.Substring

/-!
# Recognising the markers

`isToolFlag` and `getGroupID` read the printed call of a marker token by token: `asm`, `sideeffect`, the token with
the name of the marker, and the group id.  After `reduce` the tokens are the words of the text, so both are a scan of
the words (`isToolFlag_eq`, `getGroupID_eq`), and the padding of the text does not matter.
-/

namespace ZRay.Pass

/-- `PASS_BEGIN`. -/
def passBegin : List Char := "ZRAY_ROI_BEGIN".toList

/-- `PASS_END`. -/
def passEnd : List Char := "ZRAY_ROI_END".toList

/-- The `state` of the two loops: 0, 1 and 2. -/
inductive ScanState where
  | anyToken
  | afterAsm
  | afterSideeffect
  deriving DecidableEq, Repr

/-- The text up to the first `split`, and what `erase` leaves. -/
def nextToken (inst : List Char) : Option (List Char × List Char) :=
  (findFirst (· = ' ') inst 0).map fun pos => (inst.take pos, inst.drop (pos + 1))

theorem length_nextToken {inst token rest : List Char} (h : nextToken inst = some (token, rest)) :
    rest.length < inst.length := by
  obtain ⟨pos, hpos, heq⟩ := Option.map_eq_some_iff.mp h
  obtain ⟨-, rfl⟩ := Prod.mk.inj heq
  obtain ⟨i, hi, rfl⟩ := Option.map_eq_some_iff.mp hpos
  obtain ⟨hlt, -, -⟩ := List.findIdx?_eq_some_iff_getElem.mp hi
  simp only [List.drop_zero] at hlt
  simp only [List.length_drop]
  omega

def isToolFlagLoop (pragmaName : List Char) (state : ScanState) (inst : List Char) : Bool :=
  match _h : nextToken inst with
  | none => false
  | some (token, rest) =>
    match state with
    | .anyToken => isToolFlagLoop pragmaName (if token = "asm".toList then .afterAsm else .anyToken) rest
    | .afterAsm => if token = "sideeffect".toList then isToolFlagLoop pragmaName .afterSideeffect rest else false
    | .afterSideeffect => (findFrom pragmaName token).isSome
termination_by inst.length
decreasing_by
  · exact length_nextToken _h
  · exact length_nextToken _h

/-- `isToolFlag`. -/
def isToolFlag (inst pragmaName : List Char) : Option Bool :=
  (reduceText inst).map (isToolFlagLoop pragmaName .anyToken)

def getGroupIDLoop (state : ScanState) (inst : List Char) : Nat :=
  match _h : nextToken inst with
  | none => 0
  | some (token, rest) =>
    match state with
    | .anyToken => getGroupIDLoop (if token = "asm".toList then .afterAsm else .anyToken) rest
    | .afterAsm => if token = "sideeffect".toList then getGroupIDLoop .afterSideeffect rest else 0
    | .afterSideeffect => (atoi (rest.takeWhile (· ≠ '"')) % 2 ^ 64).toNat
termination_by inst.length
decreasing_by
  · exact length_nextToken _h
  · exact length_nextToken _h

/-- `getGroupID`; the `int` read is returned as a `size_t`. -/
def getGroupID (inst : List Char) : Option Nat := (reduceText inst).map (getGroupIDLoop .anyToken)

/-! ### The scan of the words -/

/-- The words of a text as the loops see them: the last one is no token, since no space follows it. -/
theorem nextToken_intercalate {w : List Char} (hw : ' ' ∉ w) (ws : List (List Char)) :
    nextToken ([' '].intercalate (w :: ws)) = if ws = [] then none else some (w, [' '].intercalate ws) := by
  have hspace : ∀ c ∈ w, decide (c = ' ') = false := by
    intro c hc
    simp only [decide_eq_false_iff_not]
    rintro rfl
    exact hw hc
  cases ws with
  | nil => simp [nextToken, findFirst_eq_none hspace]
  | cons w' ws =>
    have hfind := findFirst_eq_some (v := [' '].intercalate (w' :: ws)) (x := ' ') hspace (by simp)
    rw [List.intercalate_cons_cons, List.append_assoc, List.singleton_append, nextToken, hfind]
    simp [List.drop_append]

/-- The word behind `asm sideeffect` and the words behind it, as both loops find them. -/
def markerWords : ScanState → List (List Char) → Option (List Char × List (List Char))
  | _, [] => none
  | _, [_] => none
  | .anyToken, w :: w' :: ws => markerWords (if w = "asm".toList then .afterAsm else .anyToken) (w' :: ws)
  | .afterAsm, w :: w' :: ws => if w = "sideeffect".toList then markerWords .afterSideeffect (w' :: ws) else none
  | .afterSideeffect, w :: w' :: ws => some (w, w' :: ws)

section

variable {ws : List (List Char)}

theorem isToolFlagLoop_of_none {pragmaName inst : List Char} {state : ScanState} (h : nextToken inst = none) :
    isToolFlagLoop pragmaName state inst = false := by
  rw [isToolFlagLoop]
  split
  · rfl
  · simp_all

theorem isToolFlagLoop_of_some {pragmaName inst token rest : List Char} {state : ScanState}
    (h : nextToken inst = some (token, rest)) :
    isToolFlagLoop pragmaName state inst = match state with
      | .anyToken => isToolFlagLoop pragmaName (if token = "asm".toList then .afterAsm else .anyToken) rest
      | .afterAsm => if token = "sideeffect".toList then isToolFlagLoop pragmaName .afterSideeffect rest else false
      | .afterSideeffect => (findFrom pragmaName token).isSome := by
  rw [isToolFlagLoop]
  split
  · simp_all
  · next token' rest' h' =>
    obtain ⟨rfl, rfl⟩ := Prod.mk.inj (Option.some.inj (h.symm.trans h'))
    rfl

theorem isToolFlagLoop_intercalate (pragmaName : List Char) (state : ScanState) (hws : ∀ w ∈ ws, ' ' ∉ w) :
    isToolFlagLoop pragmaName state ([' '].intercalate ws) =
      (markerWords state ws).elim false fun marker => (findFrom pragmaName marker.1).isSome := by
  induction ws generalizing state with
  | nil => rw [isToolFlagLoop_of_none rfl, markerWords, Option.elim_none]
  | cons w ws ih =>
    have hnext := nextToken_intercalate (hws w List.mem_cons_self) ws
    cases ws with
    | nil => rw [isToolFlagLoop_of_none hnext, markerWords, Option.elim_none]
    | cons w' ws =>
      rw [isToolFlagLoop_of_some hnext]
      have ih := fun state => ih state fun t ht => hws t (List.mem_cons_of_mem _ ht)
      cases state with
      | anyToken => exact ih _
      | afterAsm =>
        simp only [markerWords]
        split
        · exact ih _
        · rfl
      | afterSideeffect => rfl

theorem getGroupIDLoop_of_none {inst : List Char} {state : ScanState} (h : nextToken inst = none) :
    getGroupIDLoop state inst = 0 := by
  rw [getGroupIDLoop]
  split
  · rfl
  · simp_all

theorem getGroupIDLoop_of_some {inst token rest : List Char} {state : ScanState}
    (h : nextToken inst = some (token, rest)) :
    getGroupIDLoop state inst = match state with
      | .anyToken => getGroupIDLoop (if token = "asm".toList then .afterAsm else .anyToken) rest
      | .afterAsm => if token = "sideeffect".toList then getGroupIDLoop .afterSideeffect rest else 0
      | .afterSideeffect => (atoi (rest.takeWhile (· ≠ '"')) % 2 ^ 64).toNat := by
  rw [getGroupIDLoop]
  split
  · simp_all
  · next token' rest' h' =>
    obtain ⟨rfl, rfl⟩ := Prod.mk.inj (Option.some.inj (h.symm.trans h'))
    rfl

theorem getGroupIDLoop_intercalate (state : ScanState) (hws : ∀ w ∈ ws, ' ' ∉ w) :
    getGroupIDLoop state ([' '].intercalate ws) = (markerWords state ws).elim 0 fun marker =>
      (atoi (([' '].intercalate marker.2).takeWhile (· ≠ '"')) % 2 ^ 64).toNat := by
  induction ws generalizing state with
  | nil => rw [getGroupIDLoop_of_none rfl, markerWords, Option.elim_none]
  | cons w ws ih =>
    have hnext := nextToken_intercalate (hws w List.mem_cons_self) ws
    cases ws with
    | nil => rw [getGroupIDLoop_of_none hnext, markerWords, Option.elim_none]
    | cons w' ws =>
      rw [getGroupIDLoop_of_some hnext]
      have ih := fun state => ih state fun t ht => hws t (List.mem_cons_of_mem _ ht)
      cases state with
      | anyToken => exact ih _
      | afterAsm =>
        simp only [markerWords]
        split
        · exact ih _
        · rfl
      | afterSideeffect => rfl

theorem markerWords_append {pre : List (List Char)} (hpre : "asm".toList ∉ pre) :
    markerWords .anyToken (pre ++ ws) = markerWords .anyToken ws := by
  induction pre with
  | nil => rfl
  | cons w pre ih =>
    obtain ⟨hw, hpre⟩ : "asm".toList ≠ w ∧ "asm".toList ∉ pre := by simpa only [List.mem_cons, not_or] using hpre
    rw [← ih hpre, List.cons_append]
    cases pre ++ ws with
    | nil => rfl
    | cons w' ws => rw [markerWords, if_neg (Ne.symm hw)]

/-- The loops find a word only behind the first `asm` and a `sideeffect` that follows it. -/
theorem markerWords_eq_some {token : List Char} {rest : List (List Char)}
    (h : markerWords .anyToken ws = some (token, rest)) :
    ∃ pre, "asm".toList ∉ pre ∧ ws = pre ++ "asm".toList :: "sideeffect".toList :: token :: rest := by
  induction ws with
  | nil => simp [markerWords] at h
  | cons w ws ih =>
    cases ws with
    | nil => simp [markerWords] at h
    | cons w' ws =>
      rw [markerWords] at h
      split at h
      · next hw =>
        subst hw
        cases ws with
        | nil => simp [markerWords] at h
        | cons w'' ws =>
          rw [markerWords] at h
          split at h
          · next hw =>
            subst hw
            cases ws with
            | nil => simp [markerWords] at h
            | cons w ws =>
              obtain ⟨rfl, rfl⟩ : w'' = token ∧ w :: ws = rest := by simpa [markerWords] using h
              exact ⟨[], by simp, rfl⟩
          · simp at h
      · next hw =>
        obtain ⟨pre, hpre, heq⟩ := ih h
        exact ⟨w :: pre, List.not_mem_cons_of_ne_of_not_mem (Ne.symm hw) hpre, by rw [heq, List.cons_append]⟩

end

theorem space_notMem_words {inst : List Char} : ∀ w ∈ words blanks inst, ' ' ∉ w := by
  intro w hw hspace
  exact (mem_words hw).2 ' ' hspace (by simp [blanks])

theorem isToolFlag_eq (inst pragmaName : List Char) :
    isToolFlag inst pragmaName = some ((markerWords .anyToken (words blanks inst)).elim false fun marker =>
      (findFrom pragmaName marker.1).isSome) := by
  rw [isToolFlag, reduceText, reduce_eq_words, Option.map_some,
    isToolFlagLoop_intercalate pragmaName .anyToken space_notMem_words]

theorem getGroupID_eq (inst : List Char) :
    getGroupID inst = some ((markerWords .anyToken (words blanks inst)).elim 0 fun marker =>
      (atoi (([' '].intercalate marker.2).takeWhile (· ≠ '"')) % 2 ^ 64).toNat) := by
  rw [getGroupID, reduceText, reduce_eq_words, Option.map_some,
    getGroupIDLoop_intercalate .anyToken space_notMem_words]

/-- The tokens that a marker prints: `asm sideeffect "#name n",`. -/
def printedMarker (name : List Char) (n : Nat) : List (List Char) :=
  ["asm".toList, "sideeffect".toList, '"' :: '#' :: name, Nat.toDigits 10 n ++ ['"', ',']]

section

variable {inst : List Char} {pre rest : List (List Char)} {n : Nat}

theorem markerWords_printed {name : List Char} (h : words blanks inst = pre ++ (printedMarker name n ++ rest))
    (hpre : "asm".toList ∉ pre) :
    markerWords .anyToken (words blanks inst) =
      some ('"' :: '#' :: name, (Nat.toDigits 10 n ++ ['"', ',']) :: rest) := by
  rw [h, markerWords_append hpre]
  rfl

theorem isToolFlag_printed {name : List Char} (pragmaName : List Char)
    (h : words blanks inst = pre ++ (printedMarker name n ++ rest)) (hpre : "asm".toList ∉ pre) :
    isToolFlag inst pragmaName = some (findFrom pragmaName ('"' :: '#' :: name)).isSome := by
  rw [isToolFlag_eq, markerWords_printed h hpre, Option.elim_some]

/-- The digits end at the closing quote, whatever is printed behind it. -/
private theorem takeWhile_digits (n : Nat) (t : List Char) :
    (Nat.toDigits 10 n ++ '"' :: t).takeWhile (· ≠ '"') = Nat.toDigits 10 n := by
  have hdigits : '"' ∉ Nat.toDigits 10 n := by
    intro hmem
    have := Nat.isDigit_of_mem_toDigits (b := 10) (n := n) (by decide) (by decide) hmem
    simp at this
  rw [takeWhile_ne_append_of_notMem hdigits]
  simp

theorem getGroupID_printed {name : List Char} (h : words blanks inst = pre ++ (printedMarker name n ++ rest))
    (hpre : "asm".toList ∉ pre) (hrest : rest ≠ []) (hn : n < 2 ^ 31) : getGroupID inst = some n := by
  obtain ⟨w, rest, rfl⟩ := List.exists_cons_of_ne_nil hrest
  rw [getGroupID_eq, markerWords_printed h hpre, Option.elim_some, List.intercalate_cons_cons, List.append_assoc,
    List.append_assoc, List.cons_append, takeWhile_digits, atoi_toDigits, Int.emod_eq_of_lt (by omega) (by omega),
    Int.toNat_natCast]

/-- A text is a flag only where the first `asm` is followed by `sideeffect` and then by a token with the name. -/
theorem isToolFlag_eq_false {pragmaName : List Char}
    (h : ¬ ∃ pre token rest, "asm".toList ∉ pre ∧ pragmaName <:+: token ∧
      words blanks inst = pre ++ "asm".toList :: "sideeffect".toList :: token :: rest) :
    isToolFlag inst pragmaName = some false := by
  rw [isToolFlag_eq]
  cases hmarker : markerWords .anyToken (words blanks inst) with
  | none => rfl
  | some marker =>
    obtain ⟨pre, hpre, hwords⟩ := markerWords_eq_some hmarker
    rw [Option.elim_some, Option.some_inj, Bool.eq_false_iff, Ne, isSome_findFrom]
    exact fun hname => h ⟨pre, marker.1, marker.2, hpre, hname, hwords⟩

end

/-- A printed marker, padded in any way, is taken for itself and not for the other one, and its group id is read back.
A text whose first `asm` is not followed by `sideeffect` and a token with the name is no marker. -/
theorem marker_round_trip (inst : List Char) :
    (∀ pre rest n, "asm".toList ∉ pre → rest ≠ [] → n < 2 ^ 31 →
      (words blanks inst = pre ++ (printedMarker passBegin n ++ rest) →
        isToolFlag inst passBegin = some true ∧ isToolFlag inst passEnd = some false ∧ getGroupID inst = some n) ∧
      (words blanks inst = pre ++ (printedMarker passEnd n ++ rest) →
        isToolFlag inst passEnd = some true ∧ isToolFlag inst passBegin = some false ∧ getGroupID inst = some n)) ∧
    ∀ pragmaName, (¬ ∃ pre token rest, "asm".toList ∉ pre ∧ pragmaName <:+: token ∧
        words blanks inst = pre ++ "asm".toList :: "sideeffect".toList :: token :: rest) →
      isToolFlag inst pragmaName = some false := by
  refine ⟨fun pre rest n hpre hrest hn => ⟨fun h => ?_, fun h => ?_⟩, fun pragmaName h => isToolFlag_eq_false h⟩
  · refine ⟨?_, ?_, getGroupID_printed h hpre hrest hn⟩
    · rw [isToolFlag_printed passBegin h hpre]
      decide
    · rw [isToolFlag_printed passEnd h hpre]
      decide
  · refine ⟨?_, ?_, getGroupID_printed h hpre hrest hn⟩
    · rw [isToolFlag_printed passEnd h hpre]
      decide
    · rw [isToolFlag_printed passBegin h hpre]
      decide

/-- `  call void asm sideeffect "#ZRAY_ROI_BEGIN 15", "~{flags}"()`. -/
private def printedCall : List Char :=
  "  call void asm\t sideeffect \"#ZRAY_ROI_BEGIN 15\", \"~\x7bflags\x7d\"()".toList

theorem marker_round_trip_call : isToolFlag printedCall passBegin = some true ∧
    isToolFlag printedCall passEnd = some false ∧ getGroupID printedCall = some 15 :=
  ((marker_round_trip printedCall).1 ["call".toList, "void".toList] ["\"~\x7bflags\x7d\"()".toList] 15 (by decide)
    (by decide) (by decide)).1 (by decide)

end ZRay.Pass
