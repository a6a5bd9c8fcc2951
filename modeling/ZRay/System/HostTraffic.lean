import ZRay.System.HostReport
import ZRay.System.ReportedTraffic
import ZRay.System.ThreadCells

/-!
# What the host log reports of a region

The pass, a thread, the poll thread and `post_process` together.  The thread runs the code of a region, the poll
thread logs its arrays now and then, and the program ends.  What `post_process` reports of the region over all epochs
of the thread, and what the thread counted after its last poll, is what the executed blocks contribute
(`epochs_eq_executed`): `sum_epochs_add_counterTotal` is about the monitor and the files, `MonitorRun.array_eq` about
the thread, and `total_applyIndirectCounts_eq_executed` about the pass.
-/

namespace ZRay

open Pass FlowGraph ByteStream PostProcess

section

variable {ι : Type*} [DecidableEq ι] {hashID : ι → UInt64} {counterWidth roiCount : UInt64} {f₀ f : HostFiles}
  {events : List (MonitorEvent ι (polledSize counterWidth roiCount))}
  {s : MonitorState ι (polledSize counterWidth roiCount)}
  {β ν : Type*} [DecidableEq β] [Inhabited ν] {nameOf : Operand ν → List Char} {opts : PassOptions}
  {cfg : RuntimeConfig} {cs : List (CountedCode β ν)}

omit [Inhabited ν] in
/-- The polled counters of a thread hold, in the row of a region, what the runs made in it add. -/
theorem holdsRuns_polled (hrun : MonitorRun hashID events s) (hperiod : cfg.samplingPeriod = 1)
    (hwidth : counterWidth.toNat = cfg.counterDimension) {t : ι} {calls : List RuntimeCall} {stk : List Nat}
    (hes : FreshRun [] calls stk) (hsets : ∀ e ∈ calls, e.SetBelow cfg.counterDimension)
    (hcalls : MakesCalls cfg t calls events) (hfits : cfg.counterDimension * roiCount.toNat ≤ 2 ^ 31)
    {r : Nat} (hr : r < roiCount.toNat) {runs : List (CountedCode β ν × List β)}
    (hmade : ((incrementsIn r [] calls).filter Increment.countsBlocks).Perm
      (runs.flatMap fun x => x.1.increments none x.2)) :
    HoldsRuns cfg (arraysOf counterWidth (s.arrays t).counterArray (s.arrays t).loadRuntimeArray
      (s.arrays t).storeRuntimeArray) r runs where
  counterDimension := hwidth
  row := by
    intro k hk
    have hsize : polledSize counterWidth roiCount = cfg.counterDimension * roiCount.toNat := by
      rw [polledSize, UInt64.toNat_mul, hwidth, Nat.mod_eq_of_lt (by omega)]
    have hrow : cfg.counterDimension * (r + 1) ≤ cfg.counterDimension * roiCount.toNat := Nat.mul_le_mul_left _ hr
    have hlt : k + cfg.counterDimension * r < polledSize counterWidth roiCount := by
      rw [hsize]
      rw [Nat.mul_succ] at hrow
      omega
    have hcell : cellAt (s.arrays t).counterArray ((k + cfg.counterDimension * r : Nat) : Int) =
        (s.arrays t).counterArray.get ⟨k + cfg.counterDimension * r, hlt⟩ := by
      rw [cellAt, if_pos (Int.natCast_nonneg _), Int.toNat_natCast, List.getD_eq_getElem _ _ (by simpa using hlt)]
      rfl
    have harray := hrun.array_eq hcalls .counterArray ⟨k + cfg.counterDimension * r, hlt⟩
    have hcount : (run cfg .initial calls).array .counterArray (k + cfg.counterDimension * r) =
        (runs.map fun x => x.1.columnValue x.2 k).sum := by
      rw [← row_of_runs hperiod hes hsets hmade hk, Nat.mul_comm r]
      rfl
    exact hcell.trans (harray.trans (congrArg UInt64.ofNat hcount))

end

/-! ### The nested loops, polled while they run and after -/

def callingInput : MainInput :=
  { emptyInput with regionLog := writtenLog ((callingCode.flatMap (·.profiles fun _ => [])).map sampleRecord) }

/-- The increments of the thread: two before the first poll, two before the second. -/
def callingEvents : List (MonitorEvent Unit (polledSize 4 1)) :=
  [.registerThread () 0] ++ [.increment () .counterArray ⟨1, by decide⟩ 1] ++
    [.increment () .counterArray ⟨3, by decide⟩ 1] ++ pollEvents 7 () 5 ++
    [.increment () .counterArray ⟨2, by decide⟩ 1] ++ [.increment () .counterArray ⟨0, by decide⟩ 1] ++
    pollEvents 7 () 9

def callingRecord (a : Vector UInt64 (polledSize 4 1)) (timeDelta : UInt64) : HostRecord (polledSize 4 1) :=
  ⟨7, a, timeDelta, Vector.replicate _ 0, Vector.replicate _ 0⟩

def firstPoll : Vector UInt64 (polledSize 4 1) := Vector.ofFn fun i => if i.val = 1 ∨ i.val = 3 then 1 else 0

theorem callingEvents_run : ∃ s, MonitorRun mainHash callingEvents s ∧
    s.records = [callingRecord firstPoll 5, callingRecord (Vector.replicate _ 1) 4] := by
  have hnil : MonitorRun mainHash ([] : List (MonitorEvent Unit (polledSize 4 1))) .initial := .nil
  have hregister := hnil.concat (e := .registerThread () 0) ⟨rfl, .inr fun _ h => by cases h⟩
  have hone := hregister.concat (e := .increment () .counterArray ⟨1, by decide⟩ 1) ⟨rfl, rfl⟩
  have htwo := hone.concat (e := .increment () .counterArray ⟨3, by decide⟩ 1) ⟨rfl, rfl⟩
  have hpoll := htwo.pollEvents rfl rfl rfl htwo.only_hash 5
  have hthree := hpoll.concat (e := .increment () .counterArray ⟨2, by decide⟩ 1) ⟨rfl, rfl⟩
  have hfour := hthree.concat (e := .increment () .counterArray ⟨0, by decide⟩ 1) ⟨rfl, rfl⟩
  have hpoll' := hfour.pollEvents rfl rfl rfl hfour.only_hash 9
  exact ⟨_, hpoll', by decide⟩

theorem callingEvents_advances (tid : UInt64) :
    (threadRecords tid [callingRecord firstPoll 5, callingRecord (Vector.replicate _ 1) 4]).IsChain Advances := by
  by_cases htid : tid = 7
  · subst htid
    exact List.isChain_pair.mpr (by decide)
  · simp [threadRecords, callingRecord, Ne.symm htid]

theorem callingEvents_makesCalls : MakesCalls ⟨1, 4⟩ () callingCalls callingEvents := by
  unfold MakesCalls
  decide

end ZRay
