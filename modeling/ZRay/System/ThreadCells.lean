import ZRay.Runtime.HostMonitor
import ZRay.Runtime.RowSelection

/-!
# A thread and the arrays that are polled

The monitor sees of a thread that it increments cells; the thread itself enters and leaves regions, and where its
increments land follows from that.  When the increments that the monitor sees are those the calls of the thread make,
in order and whatever other threads do in between, the polled arrays are those of the runtime, as words
(`MonitorRun.array_eq`).
-/

namespace ZRay

/-! ### The cells a thread increments -/

/-- An increment of a cell of an array by an amount. -/
structure Bump where
  array : RuntimeArray
  cell : Nat
  amount : Nat
  deriving DecidableEq, Repr

/-- The increments of the cells, relative to the base of the row. -/
def Increment.bumps (base : Nat) : Increment → List Bump
  | .counterArray _ k => [⟨.counterArray, k + base, 1⟩]
  | .counterArraySF _ k sf => [⟨.counterArray, k + base, sf⟩]
  | .loadArray _ k n => [⟨.loadRuntimeArray, k + base, n⟩]
  | .storeArray _ k n => [⟨.storeRuntimeArray, k + base, n⟩]
  | .loadStoreArray _ k n => [⟨.loadRuntimeArray, k + base, n⟩, ⟨.storeRuntimeArray, k + base, n⟩]

/-- The increments of cells that a call makes. -/
def ThreadState.bumps (s : ThreadState) : RuntimeCall → List Bump
  | .increment i => if s.globalDisable then [] else i.bumps s.counterBaseIndex
  | _ => []

/-- The increments of cells that the calls of a thread make. -/
def threadBumps (cfg : RuntimeConfig) : ThreadState → List RuntimeCall → List Bump
  | _, [] => []
  | s, e :: es => s.bumps e ++ threadBumps cfg (step cfg s e) es

/-- What the increments add to a cell. -/
def addedTo (a : RuntimeArray) (cell : Nat) (bumps : List Bump) : Nat :=
  ((bumps.filter fun b => b.array = a ∧ b.cell = cell).map Bump.amount).sum

def ThreadState.array (s : ThreadState) : RuntimeArray → Nat → Nat
  | .counterArray => s.counterArray
  | .loadRuntimeArray => s.loadRuntimeArray
  | .storeRuntimeArray => s.storeRuntimeArray

theorem addedTo_append (a : RuntimeArray) (cell : Nat) (u v : List Bump) :
    addedTo a cell (u ++ v) = addedTo a cell u + addedTo a cell v := by
  rw [addedTo, List.filter_append, List.map_append, List.sum_append, addedTo, addedTo]

@[simp] theorem addedTo_nil (a : RuntimeArray) (cell : Nat) : addedTo a cell [] = 0 := rfl

theorem addedTo_cons (a : RuntimeArray) (cell : Nat) (b : Bump) (bumps : List Bump) :
    addedTo a cell (b :: bumps) = (if b.array = a ∧ b.cell = cell then b.amount else 0) + addedTo a cell bumps := by
  rw [addedTo, List.filter_cons]
  by_cases h : b.array = a ∧ b.cell = cell
  · rw [if_pos (by simpa using h), if_pos h, List.map_cons, List.sum_cons, addedTo]
  · rw [if_neg (by simpa using h), if_neg h, Nat.zero_add, addedTo]

theorem bump_apply (f : Nat → Nat) (i n cell : Nat) : bump f i n cell = f cell + if i = cell then n else 0 := by
  unfold bump
  by_cases h : i = cell
  · subst h
    simp
  · simp [h, Function.update_of_ne (Ne.symm h)]

theorem array_startTimingEvent (cfg : RuntimeConfig) (r : Nat) (now : UInt64) (s : ThreadState) (a : RuntimeArray) :
    (startTimingEvent cfg r now s).array a = s.array a := by
  unfold startTimingEvent
  dsimp only
  split
  · cases a <;> rfl
  · split <;> cases a <;> rfl

theorem array_endTimingEvent (r : Nat) (now : UInt64) (s : ThreadState) (a : RuntimeArray) :
    (endTimingEvent r now s).array a = s.array a := by
  unfold endTimingEvent ThreadState.popSave
  dsimp only
  split
  · rfl
  · split
    · cases a <;> rfl
    · split <;> cases a <;> rfl

/-- A call adds its increments. -/
theorem array_step (cfg : RuntimeConfig) (s : ThreadState) (e : RuntimeCall) (a : RuntimeArray) (cell : Nat) :
    (step cfg s e).array a cell = s.array a cell + addedTo a cell (s.bumps e) := by
  cases e with
  | startTimingEvent r now => exact congrFun (array_startTimingEvent cfg r now s a) cell
  | endTimingEvent r now => exact congrFun (array_endTimingEvent r now s a) cell
  | increment i =>
    show (i.apply s).array a cell = s.array a cell + addedTo a cell (if s.globalDisable then [] else _)
    cases hoff : s.globalDisable with
    | true =>
      cases i <;>
        simp [Increment.apply, incrementCounterArray, incrementCounterArraySF, incrementLoadArray,
          incrementStoreArray, incrementLoadStoreArray, hoff]
    | false =>
      cases i <;> cases a <;>
        simp [Increment.apply, incrementCounterArray, incrementCounterArraySF, incrementLoadArray,
          incrementStoreArray, incrementLoadStoreArray, hoff, ThreadState.array, Increment.bumps, addedTo_cons,
          bump_apply]

/-- After the calls, a cell holds what was in it and what the increments added. -/
theorem array_run (cfg : RuntimeConfig) (s : ThreadState) (es : List RuntimeCall) (a : RuntimeArray) (cell : Nat) :
    (run cfg s es).array a cell = s.array a cell + addedTo a cell (threadBumps cfg s es) := by
  induction es generalizing s with
  | nil => rfl
  | cons e es ih => rw [run_cons, ih, array_step, threadBumps, addedTo_append, Nat.add_assoc]

/-! ### The increments the monitor sees -/

variable {ι : Type*} [DecidableEq ι] {hashID : ι → UInt64} {n : Nat}

/-- The increment a thread makes at an event. -/
def MonitorEvent.bumpOf (t : ι) : MonitorEvent ι n → Option (RuntimeArray × Fin n × UInt64)
  | .increment t' a cell amount => if t' = t then some (a, cell, amount) else none
  | _ => none

/-- What the thread adds to a cell at an event. -/
def MonitorEvent.addedBy (t : ι) (a : RuntimeArray) (cell : Fin n) (e : MonitorEvent ι n) : UInt64 :=
  match e.bumpOf t with
  | some (a', cell', amount) => if a' = a ∧ cell' = cell then amount else 0
  | none => 0

def ThreadArrays.array (x : ThreadArrays n) : RuntimeArray → Vector UInt64 n
  | .counterArray => x.counterArray
  | .loadRuntimeArray => x.loadRuntimeArray
  | .storeRuntimeArray => x.storeRuntimeArray

theorem array_bump (x : ThreadArrays n) (cell' cell : Fin n) (amount : UInt64) (a' a : RuntimeArray) :
    ((x.bump cell' amount a').array a).get cell =
      (x.array a).get cell + if a' = a ∧ cell' = cell then amount else 0 := by
  have hset : ∀ v : Vector UInt64 n, (v.set cell'.val (v[cell'.val] + amount)).get cell =
      v.get cell + if cell' = cell then amount else 0 := by
    intro v
    by_cases h : cell' = cell
    · subst h
      simp [Vector.get_eq_getElem]
    · have hne : cell'.val ≠ cell.val := fun hval => h (Fin.ext hval)
      simp [Vector.get_eq_getElem, h, Vector.getElem_set_ne _ _ hne]
  cases a' <;> cases a <;> simp [ThreadArrays.bump, ThreadArrays.array, hset]

/-- The arrays of a thread hold what it added to them. -/
theorem MonitorRun.array_get {events : List (MonitorEvent ι n)} {s : MonitorState ι n}
    (h : MonitorRun hashID events s) (t : ι) (a : RuntimeArray) (cell : Fin n) :
    ((s.arrays t).array a).get cell = (events.map (MonitorEvent.addedBy t a cell)).sum := by
  induction h with
  | nil => cases a <;> simp [MonitorState.initial, ThreadArrays.zero, ThreadArrays.array, Vector.get_eq_getElem]
  | @concat events s e _ he ih =>
    rw [List.map_append, List.sum_append, List.map_singleton, List.sum_singleton, ← ih]
    cases e with
    | increment t' a' cell' amount =>
      show ((Function.update s.arrays t' ((s.arrays t').bump cell' amount a') t).array a).get cell = _
      by_cases ht : t' = t
      · subst ht
        rw [Function.update_self, array_bump]
        simp [MonitorEvent.addedBy, MonitorEvent.bumpOf]
      · rw [Function.update_of_ne (Ne.symm ht)]
        simp [MonitorEvent.addedBy, MonitorEvent.bumpOf, ht]
    | pollThread t' now =>
      obtain ⟨tid, rest, roi, -, -, -, hnext⟩ := next_pollThread hashID he
      rw [hnext]
      exact (add_zero _).symm
    | registerThread t' now =>
      have harrays : (s.registerThread hashID t' now).arrays = s.arrays := by
        rw [MonitorState.registerThread]
        split <;> rfl
      show (((s.registerThread hashID t' now).arrays t).array a).get cell = _
      rw [harrays]
      exact (add_zero _).symm
    | unregisterThread t' => exact (add_zero _).symm
    | pollStart order => exact (add_zero _).symm
    | pollEnd => exact (add_zero _).symm
    | pollCheck => exact (add_zero _).symm
    | stopHostProc => exact (add_zero _).symm

/-! ### A thread that calls the runtime -/

/-- The increments of the thread among the events are those its calls make. -/
def MakesCalls (cfg : RuntimeConfig) (t : ι) (calls : List RuntimeCall) (events : List (MonitorEvent ι n)) : Prop :=
  (events.filterMap (MonitorEvent.bumpOf t)).map (fun b => (b.1, b.2.1.val, b.2.2)) =
    (threadBumps cfg .initial calls).map fun b => (b.array, b.cell, UInt64.ofNat b.amount)

theorem sum_addedBy (t : ι) (a : RuntimeArray) (cell : Fin n) (events : List (MonitorEvent ι n)) (bumps : List Bump)
    (h : (events.filterMap (MonitorEvent.bumpOf t)).map (fun b => (b.1, b.2.1.val, b.2.2)) =
      bumps.map fun b => (b.array, b.cell, UInt64.ofNat b.amount)) :
    (events.map (MonitorEvent.addedBy t a cell)).sum = UInt64.ofNat (addedTo a cell bumps) := by
  induction events generalizing bumps with
  | nil =>
    obtain rfl : bumps = [] := by simpa using h.symm
    rfl
  | cons e events ih =>
    rw [List.map_cons, List.sum_cons]
    cases hb : e.bumpOf t with
    | none =>
      rw [List.filterMap_cons_none hb] at h
      rw [ih bumps h, MonitorEvent.addedBy, hb, UInt64.zero_add]
    | some b =>
      obtain ⟨a', cell', amount⟩ := b
      rw [List.filterMap_cons_some hb, List.map_cons] at h
      cases bumps with
      | nil => simp at h
      | cons b bumps =>
        rw [List.map_cons, List.cons.injEq, Prod.mk.injEq, Prod.mk.injEq] at h
        obtain ⟨⟨rfl, hcell, rfl⟩, hrest⟩ := h
        rw [ih bumps hrest, MonitorEvent.addedBy, hb, addedTo_cons, UInt64.ofNat_add, ← hcell]
        by_cases hhit : b.array = a ∧ cell' = cell
        · simp [hhit]
        · have hval : ¬ (b.array = a ∧ cell'.val = cell.val) := fun hboth => hhit ⟨hboth.1, Fin.ext hboth.2⟩
          simp [hhit, hval]

/-- The polled arrays of a thread are those its calls leave, as words. -/
theorem MonitorRun.array_eq {cfg : RuntimeConfig} {events : List (MonitorEvent ι n)} {s : MonitorState ι n}
    (h : MonitorRun hashID events s) {t : ι} {calls : List RuntimeCall} (hcalls : MakesCalls cfg t calls events)
    (a : RuntimeArray) (cell : Fin n) :
    ((s.arrays t).array a).get cell = UInt64.ofNat ((run cfg .initial calls).array a cell) := by
  have hinitial : ThreadState.initial.array a cell = 0 := by cases a <;> rfl
  rw [h.array_get, sum_addedBy t a cell events _ hcalls, array_run, hinitial, Nat.zero_add]

end ZRay
