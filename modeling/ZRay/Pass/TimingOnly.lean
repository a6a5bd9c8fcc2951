import ZRay.Pass.EmissionErasure

/-!
# The timing-only build

With `-zraycounters=false` the pass is meant to leave the timing events and the region log as they are, and to emit no
increment.  The timing events are the same.  An increment is emitted nevertheless when a memory intrinsic of run-time
size is recorded, and the logs differ when code of a trip count was recorded, which is there with counters only
(`timingOnly_iff`).  That happens when a function is cloned after one of its loops got a dynamic counter.
-/

namespace ZRay.Pass

open ByteStream (leBytes length_leBytes)

namespace Emission

variable {α β ν χ : Type*}

/-! ### What is compared -/

/-- The program and the timing events. -/
def Item.isTimed : Item α ν → Bool
  | .program _ => true
  | .emitted (.startTimingEvent _) | .emitted (.endTimingEvent _) => true
  | _ => false

/-- The functions with their timing events, and with no other call of the pass. -/
def IRState.timedCode (s : IRState α β ν χ) : (α → χ) × (α → β → Block α ν) :=
  (s.cfg, fun F x => { s.code F x with body := (s.code F x).body.filter Item.isTimed })

section

variable [DecidableEq α] [DecidableEq β] [Inhabited ν]

/-- The run without counters emits no increment and leaves none in the code, and has the timing events and the region
log of the run with counters. -/
structure TimingOnly (opts : EmissionOptions) (m : IRModule α β ν χ) (rounds : Nat) : Prop where
  emitted : ∀ call ∈ (runOnModule (opts.withCounters false) m rounds).emitted, call.isIncrement = false
  code : ∀ F x call, .emitted call ∈ ((runOnModule (opts.withCounters false) m rounds).code F x).body →
    call.isIncrement = false
  events : (runOnModule (opts.withCounters false) m rounds).timedCode =
    (runOnModule (opts.withCounters true) m rounds).timedCode
  zlog : (runOnModule (opts.withCounters false) m rounds).zlog m =
    (runOnModule (opts.withCounters true) m rounds).zlog m

omit [DecidableEq α] [DecidableEq β] [Inhabited ν] in
/-- The block holds an instruction of a trip count. -/
def Block.HasTripCount (b : Block α ν) : Prop := ∃ i ∈ b.body, i.isTripCount = true

omit [DecidableEq α] [DecidableEq β] in
/-- What the trip counts in a block add to a field of the profile. -/
def Turn.tripCountCharge (m : IRModule α β ν χ) (t : Turn α ν χ) (f : SummedField) : UInt64 :=
  scaledCharge (m.llvm.stackAddressList t.cfg) t.scaleFactor
    ((t.block.body.filter Item.isTripCount).map Item.toInstruction) f

/-! ### Charges -/

omit [DecidableEq α] [DecidableEq β] in
/-- What is hidden is no memory intrinsic. -/
theorem not_isUnsized_of_not_kept {i : Item α ν} (h : i.isKept = false) : ¬ i.toInstruction.IsUnsized := by
  cases i with
  | program I => simp [Item.isKept] at h
  | emitted call =>
    have htool := EmittedCall.isToolCall_toInstruction call default none
    rw [EmittedCall.isEvent_of_isIncrement (by simpa [Item.isKept] using h)] at htool
    intro hunsized
    have hfilter : (call.toInstruction default none).isToolCall = false := hunsized.2.1
    simp [htool] at hfilter
  | tripCount op id operand =>
    intro hunsized
    have hop : op.opcode = .call := hunsized.1
    cases op <;> simp [TripCountOp.opcode] at hop

omit [DecidableEq α] [DecidableEq β] in
theorem hasUnsized_erase (b : Block α ν) : b.erase.HasUnsized ↔ b.HasUnsized := by
  refine ⟨fun ⟨i, hi, hunsized⟩ => ⟨i, List.mem_of_mem_filter hi, hunsized⟩, fun ⟨i, hi, hunsized⟩ =>
    ⟨i, ?_, hunsized⟩⟩
  refine List.mem_filter.mpr ⟨hi, ?_⟩
  by_contra hhidden
  exact not_isUnsized_of_not_kept (by simpa using hhidden) hunsized

omit [DecidableEq α] [DecidableEq β] in
/-- The charge of items is that of the kept ones and that of the trip counts: increments are
recorded and cancelled. -/
theorem scaledCharge_kept (stackAddressList : ν → Bool) (sf : UInt64) (l : List (Item α ν)) (f : SummedField) :
    scaledCharge stackAddressList sf (l.map Item.toInstruction) f =
      scaledCharge stackAddressList sf ((kept l).map Item.toInstruction) f +
        scaledCharge stackAddressList sf ((l.filter Item.isTripCount).map Item.toInstruction) f := by
  induction l with
  | nil => simp [scaledCharge_nil]
  | cons i l ih =>
    rw [List.map_cons, scaledCharge_cons, ih]
    cases hi : i.isKept with
    | true =>
      have hop : i.isTripCount = false := by
        cases i with
        | tripCount op id operand => simp [Item.isKept] at hi
        | _ => rfl
      rw [kept_cons_of_pos hi, List.filter_cons_of_neg (by simp [hop]), List.map_cons, scaledCharge_cons,
        UInt64.add_assoc]
    | false =>
      rw [kept_cons_of_neg hi]
      cases i with
      | program I => simp [Item.isKept] at hi
      | emitted call =>
        have hincrement : call.isIncrement = true := by simpa [Item.isKept] using hi
        have hcharge : charge stackAddressList (Item.emitted (α := α) call).toInstruction f = 0 :=
          charge_event stackAddressList (EmittedCall.isEvent_of_isIncrement hincrement) default none f
        have hzero : sf * UInt64.ofInt 0 = 0 := UInt64.mul_zero
        rw [List.filter_cons_of_neg (by simp [Item.isTripCount]), hcharge, hzero, UInt64.zero_add]
      | tripCount op id operand =>
        rw [List.filter_cons_of_pos rfl, List.map_cons, scaledCharge_cons, ← UInt64.add_assoc,
          UInt64.add_comm (sf * _), UInt64.add_assoc]

omit [DecidableEq α] [DecidableEq β] in
theorem Turn.charge_eq (m : IRModule α β ν χ) (t : Turn α ν χ) (f : SummedField) :
    t.charge m f = t.erase.charge m f + t.tripCountCharge m f := by
  unfold Turn.charge Turn.tripCountCharge Block.instructions
  simp only [scaledCharge_append, Turn.erase, Block.erase]
  rw [scaledCharge_kept]
  ac_rfl

/-! ### The logs -/

omit [DecidableEq α] [DecidableEq β] [Inhabited ν] in
/-- The bytes of the log tell the profiles and the names of the functions, and nothing else. -/
theorem zlog_eq_iff (m : IRModule α β ν χ) (s t : IRState α β ν χ) : s.zlog m = t.zlog m ↔
    s.pragmaRegionLog.map (fun r => (r.profile, m.name r.functionName)) =
      t.pragmaRegionLog.map fun r => (r.profile, m.name r.functionName) := by
  let v : LogVars := ⟨leBytes 4 0, leBytes 8 0, length_leBytes 4 0, length_leBytes 8 0⟩
  have hread : ∀ u : IRState α β ν χ, (readRecords m.maxSize (ByteStream.ofBytes (u.zlog m)) v).map
      (fun entries => entries.1.map fun e => (e.inProfile, e.functionName)) =
        some (u.pragmaRegionLog.map fun r => (r.profile, m.name r.functionName)) := by
    intro u
    rw [IRState.zlog, readRecords_writtenLog, Option.map_some, List.map_map, List.map_map]
    rfl
  have hencode : ∀ u : IRState α β ν χ, u.zlog m =
      (u.pragmaRegionLog.map fun r => (r.profile, m.name r.functionName)).flatMap fun e =>
        e.1.toBytes (Vector.replicate 6 0) ++
          (leBytes 4 (checksum (e.1.toBytes (Vector.replicate 6 0))).toUInt32.toNat ++
            (leBytes 8 (UInt64.ofNat e.2.length).toNat ++ e.2)) := by
    intro u
    rw [IRState.zlog, writtenLog_eq, List.flatMap_map, List.flatMap_map]
    rfl
  refine ⟨fun h => ?_, fun h => by rw [hencode, hencode, h]⟩
  have hs := hread s
  rw [h, hread t, Option.some.injEq] at hs
  exact hs.symm

omit [DecidableEq α] [DecidableEq β] in
theorem sum_map_charge (m : IRModule α β ν χ) (ts : List (Turn α ν χ)) (f : SummedField) :
    (ts.map fun t => t.charge m f).sum =
      ((ts.map Turn.erase).map fun t => t.charge m f).sum + (ts.map fun t => t.tripCountCharge m f).sum := by
  induction ts with
  | nil => rfl
  | cons t ts ih =>
    simp only [List.map_cons, List.sum_cons]
    rw [ih, Turn.charge_eq]
    ac_rfl

omit [DecidableEq α] [DecidableEq β] in
/-- Records with the same erasure, the first without trip counts, have the same profile when the trip counts of the
second add up to nothing. -/
theorem profile_eq_iff {m : IRModule α β ν χ} {r r' : CounterRecord α ν χ} (h : r.erase = r'.erase)
    (hr : ∀ f, r.profile.get f = (r.turns.map fun t => t.charge m f).sum)
    (hr' : ∀ f, r'.profile.get f = (r'.turns.map fun t => t.charge m f).sum)
    (hnone : ∀ f, (r.turns.map fun t => t.tripCountCharge m f).sum = 0) :
    r.profile = r'.profile ↔ ∀ f, (r'.turns.map fun t => t.tripCountCharge m f).sum = 0 := by
  have hturns : r.turns.map Turn.erase = r'.turns.map Turn.erase := congrArg CounterRecord.turns h
  have hids : r.profile.ids = r'.profile.ids := idsOnly_eq_iff.mp (congrArg CounterRecord.profile h)
  have hget : ∀ f, r'.profile.get f = r.profile.get f + (r'.turns.map fun t => t.tripCountCharge m f).sum := by
    intro f
    rw [hr, hr', sum_map_charge m r.turns, sum_map_charge m r'.turns, hnone, hturns, UInt64.add_zero]
  refine ⟨fun heq f => ?_, fun hzero => ProfileData.ext_get hids fun f => ?_⟩
  · have hsame := hget f
    rw [heq] at hsame
    exact UInt64.left_eq_add.mp hsame
  · rw [hget, hzero, UInt64.add_zero]

omit [DecidableEq α] [DecidableEq β] in
/-- Logs with the same erasure, the first without trip counts, record by record. -/
theorem map_profile_eq_iff {m : IRModule α β ν χ} {l l' : List (CounterRecord α ν χ)}
    (h : l.map CounterRecord.erase = l'.map CounterRecord.erase)
    (hl : ∀ r ∈ l, ∀ f, r.profile.get f = (r.turns.map fun t => t.charge m f).sum)
    (hl' : ∀ r ∈ l', ∀ f, r.profile.get f = (r.turns.map fun t => t.charge m f).sum)
    (hnone : ∀ r ∈ l, ∀ f, (r.turns.map fun t => t.tripCountCharge m f).sum = 0) :
    l.map (fun r => (r.profile, m.name r.functionName)) = l'.map (fun r => (r.profile, m.name r.functionName)) ↔
      ∀ r ∈ l', ∀ f, (r.turns.map fun t => t.tripCountCharge m f).sum = 0 := by
  induction l generalizing l' with
  | nil =>
    rw [List.map_nil, eq_comm, List.map_eq_nil_iff] at h
    simp [h]
  | cons r l ih =>
    cases l' with
    | nil => simp at h
    | cons r' l' =>
      rw [List.map_cons, List.map_cons, List.cons.injEq] at h
      rw [List.forall_mem_cons] at hl hl' hnone ⊢
      have hname : r.erase.functionName = r'.erase.functionName := congrArg CounterRecord.functionName h.1
      have hname : r.functionName = r'.functionName := hname
      have hprofile := profile_eq_iff h.1 hl.1 hl'.1 hnone.1
      rw [List.map_cons, List.map_cons, List.cons.injEq, ih h.2 hl.2 hl'.2 hnone.2, Prod.mk.injEq, hname, hprofile]
      simp

omit [DecidableEq α] [DecidableEq β] in
/-- Memory intrinsics of run-time size are recorded with counters and without. -/
theorem exists_hasUnsized_erase (l : List (CounterRecord α ν χ)) :
    (∃ rec ∈ l.map CounterRecord.erase, ∃ t ∈ rec.turns, t.block.HasUnsized) ↔
      ∃ rec ∈ l, ∃ t ∈ rec.turns, t.block.HasUnsized := by
  have hturn : ∀ t : Turn α ν χ, t.erase.block.HasUnsized ↔ t.block.HasUnsized := fun t => hasUnsized_erase t.block
  simp [CounterRecord.erase, hturn]

omit [DecidableEq α] [DecidableEq β] [Inhabited ν] in
theorem timedCode_erase (s : IRState α β ν χ) : s.erase.timedCode = s.timedCode := by
  have hbody : ∀ l : List (Item α ν), (kept l).filter Item.isTimed = l.filter Item.isTimed := by
    intro l
    rw [kept, List.filter_filter]
    refine List.filter_congr fun i _ => ?_
    cases i with
    | program I => rfl
    | emitted call => cases call <;> rfl
    | tripCount op id operand => rfl
  unfold IRState.timedCode
  simp only [erase_cfg, erase_code, Block.erase, hbody]

/-! ### The two runs -/

omit [DecidableEq α] [DecidableEq β] in
/-- Turns in blocks without trip counts add nothing. -/
theorem sum_tripCountCharge_of_clear (m : IRModule α β ν χ) {turns : List (Turn α ν χ)}
    (hclear : ∀ t ∈ turns, ¬ t.block.HasTripCount) (f : SummedField) :
    (turns.map fun t => t.tripCountCharge m f).sum = 0 := by
  induction turns with
  | nil => rfl
  | cons t ts ih =>
    obtain ⟨ht, hts⟩ := List.forall_mem_cons.mp hclear
    have hnone : t.block.body.filter Item.isTripCount = [] :=
      List.filter_eq_nil_iff.mpr fun i hi hop => ht ⟨i, hi, hop⟩
    rw [List.map_cons, List.sum_cons, ih hts, Turn.tripCountCharge, hnone, List.map_nil, scaledCharge_nil]
    rfl

/-- Without counters, the records have no trip counts. -/
theorem sum_tripCountCharge (opts : EmissionOptions) (m : IRModule α β ν χ) (rounds : Nat) :
    ∀ rec ∈ (runOnModule (opts.withCounters false) m rounds).pragmaRegionLog, ∀ f,
      (rec.turns.map fun t => t.tripCountCharge m f).sum = 0 := by
  intro rec hrec f
  have hinv := inv_runOnModule (opts.withCounters false) m rounds
  refine sum_tripCountCharge_of_clear m (fun t ht => ?_) f
  rintro ⟨i, hi, hop⟩
  have hcounters : false = true := hinv.tripCounts rec hrec t ht i hi hop
  exact Bool.false_ne_true hcounters

/-- The region logs of the two builds differ exactly by the trip counts recorded. -/
theorem zlog_withCounters_iff (opts : EmissionOptions) (m : IRModule α β ν χ) (rounds : Nat) :
    (runOnModule (opts.withCounters false) m rounds).zlog m = (runOnModule (opts.withCounters true) m rounds).zlog m ↔
      ∀ rec ∈ (runOnModule (opts.withCounters true) m rounds).pragmaRegionLog, ∀ f,
        (rec.turns.map fun t => t.tripCountCharge m f).sum = 0 := by
  have hsame := erase_runOnModule opts false true m rounds
  exact (zlog_eq_iff m _ _).trans (map_profile_eq_iff (congrArg IRState.pragmaRegionLog hsame)
    (inv_runOnModule (opts.withCounters false) m rounds).profile
    (inv_runOnModule (opts.withCounters true) m rounds).profile (sum_tripCountCharge opts m rounds))

theorem timedCode_withCounters (opts : EmissionOptions) (m : IRModule α β ν χ) (rounds : Nat) :
    (runOnModule (opts.withCounters false) m rounds).timedCode =
      (runOnModule (opts.withCounters true) m rounds).timedCode := by
  rw [← timedCode_erase, ← timedCode_erase (runOnModule (opts.withCounters true) m rounds),
    erase_runOnModule opts false true m rounds]

/-- Without counters, increments are emitted for the memory intrinsics of run-time size that are recorded. -/
theorem exists_increment_iff (opts : EmissionOptions) (m : IRModule α β ν χ) (rounds : Nat) :
    (∃ call ∈ (runOnModule (opts.withCounters false) m rounds).emitted, call.isIncrement = true) ↔
      ∃ rec ∈ (runOnModule (opts.withCounters true) m rounds).pragmaRegionLog, ∃ t ∈ rec.turns,
        t.block.HasUnsized := by
  have hlog := congrArg IRState.pragmaRegionLog (erase_runOnModule opts false true m rounds)
  have hsame := exists_hasUnsized_erase (runOnModule (opts.withCounters false) m rounds).pragmaRegionLog
  have hlog : (runOnModule (opts.withCounters false) m rounds).pragmaRegionLog.map CounterRecord.erase =
    (runOnModule (opts.withCounters true) m rounds).pragmaRegionLog.map CounterRecord.erase := hlog
  rw [hlog, exists_hasUnsized_erase] at hsame
  exact ((inv_runOnModule (opts.withCounters false) m rounds).increments rfl).trans hsame.symm

/-- The build without counters is timing-only exactly when no memory intrinsic of run-time size is recorded, and the
charges of the trip counts recorded for a counter add up to nothing. -/
theorem timingOnly_iff (opts : EmissionOptions) (m : IRModule α β ν χ) (rounds : Nat) :
    TimingOnly opts m rounds ↔ ∀ rec ∈ (runOnModule (opts.withCounters true) m rounds).pragmaRegionLog,
      (∀ t ∈ rec.turns, ¬ t.block.HasUnsized) ∧ ∀ f, (rec.turns.map fun t => t.tripCountCharge m f).sum = 0 := by
  have hincrement := exists_increment_iff opts m rounds
  have hzlog := zlog_withCounters_iff opts m rounds
  have hinv := inv_runOnModule (opts.withCounters false) m rounds
  constructor
  · intro h rec hrec
    refine ⟨fun t ht hunsized => ?_, hzlog.mp h.zlog rec hrec⟩
    obtain ⟨call, hcall, hinc⟩ := hincrement.mpr ⟨rec, hrec, t, ht, hunsized⟩
    exact Bool.false_ne_true ((h.emitted call hcall).symm.trans hinc)
  · intro h
    have hnone : ∀ call ∈ (runOnModule (opts.withCounters false) m rounds).emitted, call.isIncrement = false := by
      intro call hcall
      by_contra hinc
      obtain ⟨rec, hrec, t, ht, hunsized⟩ := hincrement.mp ⟨call, hcall, by simpa using hinc⟩
      exact (h rec hrec).1 t ht hunsized
    refine ⟨hnone, fun F x call hcall => ?_, timedCode_withCounters opts m rounds,
      hzlog.mpr fun rec hrec => (h rec hrec).2⟩
    rcases hinv.code.items F x _ hcall with hcall | ⟨r, rfl⟩
    · exact hnone call hcall
    · rfl

end

/-! ### Two modules -/

/-- The blocks of a function of one block, or of one with a loop on block 1 whose entry was split so many times. -/
def loopBlocks : Option Nat → List Nat
  | none => [0]
  | some splits => 0 :: (List.range' 2 splits ++ [1])

/-- No block post-dominates another, and the trip count of the loop is known when the loop is entered. -/
def loopAnalysis (c : Option Nat) : FunctionAnalysis Nat where
  orderedCFG := loopBlocks c
  size := fun _ => 1
  detectPragma := fun _ => false
  trees := ⟨fun x y => x = y, fun x y => x = y⟩
  loopInfo := if c.isSome then .node ⟨1, [1]⟩ .nil .nil else .nil
  backedgeTakenCount := fun _ => .expression true
  beforeSplit := fun _ => .expression true
  afterSplit := fun _ => .expression true

private theorem header_mem_loopAnalysis :
    ∀ c, ∀ L ∈ (loopAnalysis c).loopInfo.nodes, L.header ∈ (loopAnalysis c).orderedCFG := by
  intro c L hL
  cases c with
  | none => exact absurd hL List.not_mem_nil
  | some splits =>
    rw [List.mem_singleton.mp hL]
    simp [loopAnalysis, loopBlocks]

private theorem mem_loopBlocks_split : ∀ c, ∀ x ∈ loopBlocks c, x ∈ loopBlocks (c.map (· + 1)) := by
  intro c x hx
  cases c with
  | none => exact hx
  | some splits =>
    simp only [loopBlocks, Option.map_some, List.mem_cons, List.mem_append, List.mem_range'_1, List.not_mem_nil,
      or_false] at hx ⊢
    omega

def loopLLVM : LLVM Nat Nat Nat (Option Nat) where
  blocks := loopBlocks
  entryBlock := fun _ => 0
  analysis := loopAnalysis
  header_mem := header_mem_loopAnalysis
  stackAddressList := fun _ _ => false
  edgeBlock := fun c _ => c.getD 0 + 2
  splitEdges := fun c _ _ => c.map (· + 1)
  mem_splitEdges := fun c _ _ => mem_loopBlocks_split c
  expandCodeFor := fun _ _ => []
  tripCount := fun _ _ => ⟨.value 5 false, false, 32, 6, 7, "%7".toList⟩

/-- `memset` of a size that is known at run time. -/
def memsetCall : ProgramInst Nat Nat where
  call := some { calledFunction := some 30 }
  withCall := fun _ =>
    { id := 0, opcode := .call, operands := [.value 1 true, .constant 1 1 false false, .value 2 false]
      printed := "call void @llvm.memset.p0i8.i64(i8* %1, i8 0, i64 %2, i1 false)".toList
      memIntrinsic := some (.memset, none) }

def plainCall (f : Nat) : ProgramInst Nat Nat where
  call := some { calledFunction := some f }
  withCall := fun _ => { id := 0, opcode := .call, printed := "call void @callee()".toList }

private theorem isOriginal_program (l : List (ProgramInst Nat Nat)) :
    ∀ i ∈ l.map (Item.program (α := Nat) (ν := Nat)), i.IsOriginal := by
  intro i hi
  obtain ⟨I, -, rfl⟩ := List.mem_map.mp hi
  trivial

private theorem mem_loopBlocks_memsetModule : ∀ PR ∈ ([⟨0, 0, 0, [0]⟩] : List (PragmaRegion Nat Nat)),
    ∀ x ∈ PR.bbList, x ∈ loopBlocks none := by
  simp [loopBlocks]

private theorem cloneName_ne_memsetModule :
    ∀ PR ∈ ([⟨0, 0, 0, [0]⟩] : List (PragmaRegion Nat Nat)), ∀ f, f + 10 ≠ PR.F := by
  simp

/-- A region of one block, which calls `memset`. -/
def memsetModule : IRModule Nat Nat Nat (Option Nat) where
  llvm := loopLLVM
  cfg := fun _ => none
  code := fun _ _ =>
    { body := [memsetCall].map .program, terminator := { withCall := fun _ => { id := 3, opcode := .ret } } }
  code_original := fun _ _ => isOriginal_program [memsetCall]
  modified := true
  prList := [⟨0, 0, 0, [0]⟩]
  prList_blocks := mem_loopBlocks_memsetModule
  cloneName := fun f => f + 10
  cloneName_ne := cloneName_ne_memsetModule
  isFunction := fun _ => false
  isIntrinsic := fun f => f = 30
  kmpcForkCall := 31
  onThreadExit := 32
  startsWithOmp := fun _ => false
  main := none
  nameOf := fun _ => []
  maxSize := 100
  name := fun _ => []
  name_le := fun _ => Nat.zero_le _

/-- The increment behind the `memset` does not ask for the switch. -/
theorem not_timingOnly_memsetModule : ¬ TimingOnly {} memsetModule 0 := by
  intro h
  have hany : ((runOnModule (EmissionOptions.withCounters {} false) memsetModule 0).emitted.any
      EmittedCall.isIncrement) = true := by decide +kernel
  obtain ⟨call, hcall, hinc⟩ := List.any_eq_true.mp hany
  exact Bool.false_ne_true ((h.emitted call hcall).symm.trans hinc)

def callsNext (f : Nat) : List (ProgramInst Nat Nat) := if f < 2 then [plainCall (f + 1)] else []

private theorem mem_loopBlocks_clonedLoop :
    ∀ PR ∈ ([⟨0, 0, 2, [0, 1]⟩, ⟨1, 0, 0, [0]⟩] : List (PragmaRegion Nat Nat)),
    ∀ x ∈ PR.bbList, x ∈ loopBlocks (if PR.F = 2 then some 0 else none) := by
  simp [loopBlocks]

private theorem cloneName_ne_clonedLoop :
    ∀ PR ∈ ([⟨0, 0, 2, [0, 1]⟩, ⟨1, 0, 0, [0]⟩] : List (PragmaRegion Nat Nat)), ∀ f, f + 10 ≠ PR.F := by
  simp

/-- Function 0 calls function 1 in a region, and that calls function 2, which has a region with a loop. -/
def clonedLoop : IRModule Nat Nat Nat (Option Nat) :=
  { memsetModule with
    cfg := fun f => if f = 2 then some 0 else none
    code := fun f _ =>
      { body := (callsNext f).map .program, terminator := { withCall := fun _ => { id := 3, opcode := .br } } }
    code_original := fun f _ => isOriginal_program (callsNext f)
    prList := [⟨0, 0, 2, [0, 1]⟩, ⟨1, 0, 0, [0]⟩]
    prList_blocks := mem_loopBlocks_clonedLoop
    cloneName_ne := cloneName_ne_clonedLoop }

/-- The clone of function 2 is made when the clone of function 1 is instrumented, and holds the trip count by then. -/
theorem not_timingOnly_clonedLoop : ¬ TimingOnly {} clonedLoop 2 := by
  intro h
  have hrec := (zlog_withCounters_iff {} clonedLoop 2).mp h.zlog
  have hcharged : ((runOnModule (EmissionOptions.withCounters {} true) clonedLoop 2).pragmaRegionLog.all fun rec =>
      (rec.turns.map fun t => t.tripCountCharge clonedLoop .totalInstCount).sum = 0) = false := by decide +kernel
  rw [List.all_eq_false] at hcharged
  obtain ⟨rec, hmem, hne⟩ := hcharged
  exact hne (by simpa using hrec rec hmem .totalInstCount)

end Emission

end ZRay.Pass
