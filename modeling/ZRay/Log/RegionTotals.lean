import Mathlib
import ZRay.Log.ReadPdSets

/-!
# The totals of the regions

The first pass adds to a region the direct records that name it, and stores the region's id in its profile.  The
second pass adds the indirect records to the region that is stored, once for each profile of the list: a profile no
record reached still says region 0.  So a region with records gets the indirect records once, and region 0 gets them
once more for each region without (`total_finalize`).
-/

namespace ZRay

open ByteStream

/-! ### What one record adds -/

/-- A field as far as `ApplyCounter` scales it: `SplitCounters` is left out. -/
def ProfileData.scaled (p : ProfileData) (f : SummedField) : UInt64 := if f = .splitCounters then 0 else p.get f

namespace RuntimeArrays

variable (m : RuntimeArrays)

/-- The cell of a counter in a region's row. -/
def cell (postDomSetID pragmaRegionID : UInt64) : Int :=
  ((postDomSetID.toNat + m.counterDimension.toNat * pragmaRegionID.toNat : Nat) : Int)

theorem index_eq_cell {k r : UInt64} (h : k.toNat + m.counterDimension.toNat * r.toNat < 2 ^ 31) :
    m.index k r = m.cell k r := by
  have hmul : (m.counterDimension * r).toNat = m.counterDimension.toNat * r.toNat := by
    rw [UInt64.toNat_mul, Nat.mod_eq_of_lt (by omega)]
  have hadd : (k + m.counterDimension * r).toNat = k.toNat + m.counterDimension.toNat * r.toNat := by
    rw [UInt64.toNat_add, hmul, Nat.mod_eq_of_lt (by omega)]
  have hcut : (k + m.counterDimension * r).toUInt32.toNat = k.toNat + m.counterDimension.toNat * r.toNat := by
    rw [UInt64.toNat_toUInt32, hadd, Nat.mod_eq_of_lt (by omega)]
  rw [index, cell, ← hcut]
  refine BitVec.toInt_eq_toNat_of_lt (x := (k + m.counterDimension * r).toUInt32.toBitVec) ?_
  rw [UInt32.toNat_toBitVec, hcut]
  omega

/-- The runtime array a field is increased from, at a cell. -/
def runtimeCell (f : SummedField) (index : Int) : UInt64 :=
  match f with
  | .intrinsicLoad => m.loadRuntimeArray index
  | .intrinsicStore => m.storeRuntimeArray index
  | _ => 0

/-- What a record adds to a field whatever its counter says. -/
def unscaled (f : SummedField) (p : ProfileData) (index : Int) : UInt64 :=
  if f = .splitCounters then p.splitCounters else m.runtimeCell f index

/-- What a record adds to a field of the region whose cell is given. -/
def added (f : SummedField) (p : ProfileData) (index : Int) : UInt64 := (m.applyArrays p index).get f

/-- What a record is to add to a field of a region. -/
def recordTotal (f : SummedField) (p : ProfileData) (r : UInt64) : UInt64 :=
  p.get f * m.counterArray (m.cell p.postDomSetID r) + m.runtimeCell f (m.cell p.postDomSetID r)

theorem added_eq (f : SummedField) (p : ProfileData) (index : Int) :
    m.added f p index = p.scaled f * m.counterArray index + m.unscaled f p index := by
  cases f <;> simp [added, applyArrays, applyCounter, ProfileData.get, ProfileData.scaled, unscaled, runtimeCell]

theorem added_index {p : ProfileData} {r : UInt64} {f : SummedField} (hf : f ≠ .splitCounters)
    (hfits : p.postDomSetID.toNat + m.counterDimension.toNat * r.toNat < 2 ^ 31) :
    m.added f p (m.index p.postDomSetID r) = m.recordTotal f p r := by
  rw [m.added_eq, m.index_eq_cell hfits, ProfileData.scaled, if_neg hf, unscaled, if_neg hf, recordTotal]

end RuntimeArrays

namespace RegionLists

/-- A field of a region's total. -/
def total (l : RegionLists) (r : Nat) (f : SummedField) : UInt64 :=
  (l.regionProfileList.getD r ([], {})).2.get f

/-- The id stored in a region's profile. -/
def storedID (l : RegionLists) (r : Nat) : UInt64 := (l.regionProfileList.getD r ([], {})).2.pragmaRegionID

theorem getD_fresh (n r : Nat) : (fresh n).regionProfileList.getD r ([], {}) = ([], {}) := by
  rw [fresh]
  by_cases h : r < n
  · rw [List.getD_eq_getElem _ _ (by simpa using h), List.getElem_replicate]
  · rw [List.getD_eq_default _ _ (by simpa using h)]

@[simp] theorem total_fresh (n r : Nat) (f : SummedField) : (fresh n).total r f = 0 := by
  rw [total, getD_fresh, ProfileData.get_default]

@[simp] theorem storedID_fresh (n r : Nat) : (fresh n).storedID r = 0 := by
  rw [storedID, getD_fresh]

end RegionLists

/-! ### One step of either pass -/

theorem getD_modify {α : Type*} (l : List α) (f : α → α) (d : α) {i : Nat} (j : Nat) (h : i < l.length) :
    (l.modify j f).getD i d = if j = i then f (l.getD i d) else l.getD i d := by
  rw [List.getD_eq_getElem _ _ (by simpa using h), List.getElem_modify, List.getD_eq_getElem _ _ h]

@[simp] theorem length_addProfile (l : List (List UInt8 × ProfileData)) (r : UInt64) (p : ProfileData) :
    (addProfile l r p).length = l.length := by
  simp [addProfile]

theorem getD_addProfile (l : List (List UInt8 × ProfileData)) (r : UInt64) (p : ProfileData) {i : Nat}
    (h : i < l.length) :
    ((addProfile l r p).getD i ([], {})).2 =
      if r.toNat = i then (l.getD i ([], {})).2.add p else (l.getD i ([], {})).2 := by
  rw [addProfile, getD_modify _ _ _ _ h]
  split <;> rfl

/-- A direct record that passes the filter. -/
def LogEntry.direct (selected : ProfileData → Bool) (e : LogEntry) : Bool :=
  !e.inProfile.isIndirect && selected e.inProfile

section

variable (selected counted : ProfileData → Bool) (m : RuntimeArrays) (l : RegionLists) (e : LogEntry)

@[simp] theorem length_recordStep :
    (recordStep selected counted m l e).regionProfileList.length = l.regionProfileList.length := by
  unfold recordStep
  split
  · rfl
  · split
    · simp
    · rfl

theorem recordStep_of_not_direct (h : e.direct selected = false) :
    (recordStep selected counted m l e).regionProfileList = l.regionProfileList := by
  unfold recordStep
  cases hind : e.inProfile.isIndirect with
  | true => simp
  | false =>
    have hsel : selected e.inProfile = false := by simpa [LogEntry.direct, hind] using h
    simp [hsel]

/-- The profile of a region after a direct record. -/
theorem recordStep_of_direct (h : e.direct selected = true) {i : Nat} (hi : i < l.regionProfileList.length) :
    ((recordStep selected counted m l e).regionProfileList.getD i ([], {})).2 =
      if e.inProfile.pragmaRegionID.toNat = i then
        { (l.regionProfileList.getD i ([], {})).2 with
          groupNumber := e.inProfile.groupNumber
          pragmaRegionID := e.inProfile.pragmaRegionID }.add
            (m.applyArrays e.inProfile (m.index e.inProfile.postDomSetID e.inProfile.pragmaRegionID))
      else (l.regionProfileList.getD i ([], {})).2 := by
  have hind : e.inProfile.isIndirect = false := by simp [LogEntry.direct] at h; exact h.1
  have hsel : selected e.inProfile = true := by simp [LogEntry.direct] at h; exact h.2
  have hid : (m.applyArrays e.inProfile
      (m.index e.inProfile.postDomSetID e.inProfile.pragmaRegionID)).pragmaRegionID = e.inProfile.pragmaRegionID :=
        rfl
  have hgroup : (m.applyArrays e.inProfile
      (m.index e.inProfile.postDomSetID e.inProfile.pragmaRegionID)).groupNumber = e.inProfile.groupNumber := rfl
  simp only [recordStep, hind, hsel, ↓reduceIte, Bool.false_eq_true, hid, hgroup]
  rw [getD_addProfile _ _ _ (by simpa using hi), getD_modify _ _ _ _ hi]
  split <;> rfl

end

/-! ### The first pass -/

/-- A direct record of a region that passes the filter. -/
def LogEntry.directOf (selected : ProfileData → Bool) (r : Nat) (e : LogEntry) : Bool :=
  e.direct selected && e.inProfile.pragmaRegionID.toNat == r

/-- A region with a direct record that passes the filter. -/
def populated (selected : ProfileData → Bool) (es : List LogEntry) (r : Nat) : Bool :=
  es.any (LogEntry.directOf selected r)

section

variable (selected counted : ProfileData → Bool) (m : RuntimeArrays)

theorem total_recordStep (l : RegionLists) (e : LogEntry) {i : Nat} (hi : i < l.regionProfileList.length)
    (f : SummedField) :
    (recordStep selected counted m l e).total i f =
      l.total i f + if e.directOf selected i then
        m.added f e.inProfile (m.index e.inProfile.postDomSetID e.inProfile.pragmaRegionID) else 0 := by
  cases hd : e.direct selected with
  | false =>
    simp [RegionLists.total, recordStep_of_not_direct selected counted m l e hd, LogEntry.directOf, hd]
  | true =>
    rw [RegionLists.total, recordStep_of_direct selected counted m l e hd hi, RegionLists.total]
    by_cases hid : e.inProfile.pragmaRegionID.toNat = i
    · have hget : ∀ p : ProfileData, ({ p with
          groupNumber := e.inProfile.groupNumber
          pragmaRegionID := e.inProfile.pragmaRegionID } : ProfileData).get f = p.get f := by
        intro p
        cases f <;> rfl
      simp [LogEntry.directOf, hd, hid, hget, RuntimeArrays.added]
    · simp [LogEntry.directOf, hd, hid]

theorem storedID_recordStep (l : RegionLists) (e : LogEntry) {i : Nat} (hi : i < l.regionProfileList.length) :
    (recordStep selected counted m l e).storedID i =
      if e.directOf selected i then UInt64.ofNat i else l.storedID i := by
  cases hd : e.direct selected with
  | false =>
    simp [RegionLists.storedID, recordStep_of_not_direct selected counted m l e hd, LogEntry.directOf, hd]
  | true =>
    rw [RegionLists.storedID, recordStep_of_direct selected counted m l e hd hi, RegionLists.storedID]
    by_cases hid : e.inProfile.pragmaRegionID.toNat = i
    · have hof : UInt64.ofNat i = e.inProfile.pragmaRegionID := by rw [← hid, UInt64.ofNat_toNat]
      simp [LogEntry.directOf, hd, hid, ProfileData.add, hof]
    · simp [LogEntry.directOf, hd, hid]

theorem indirectProfiles_recordStep (l : RegionLists) (e : LogEntry) :
    (recordStep selected counted m l e).indirectProfiles =
      l.indirectProfiles ++ if e.inProfile.isIndirect then [(e.functionName, e.inProfile)] else [] := by
  cases h : e.inProfile.isIndirect with
  | true => simp [recordStep, h]
  | false => cases hsel : selected e.inProfile <;> simp [recordStep, h, hsel]

/-- The lists after the first pass, from any lists. -/
theorem foldl_recordStep (es : List LogEntry) (l : RegionLists) :
    let l' := es.foldl (recordStep selected counted m) l
    l'.regionProfileList.length = l.regionProfileList.length ∧
      l'.indirectProfiles = l.indirectProfiles ++
        (es.filter (·.inProfile.isIndirect)).map (fun e => (e.functionName, e.inProfile)) ∧
      ∀ i < l.regionProfileList.length,
        (∀ f, l'.total i f = l.total i f + ((es.filter (LogEntry.directOf selected i)).map fun e =>
          m.added f e.inProfile (m.index e.inProfile.postDomSetID e.inProfile.pragmaRegionID)).sum) ∧
        l'.storedID i = if populated selected es i then UInt64.ofNat i else l.storedID i := by
  induction es generalizing l with
  | nil => simp [populated]
  | cons e es ih =>
    obtain ⟨hlen, hind, hi⟩ := ih (recordStep selected counted m l e)
    refine ⟨by rw [List.foldl_cons, hlen, length_recordStep], ?_, ?_⟩
    · rw [List.foldl_cons, hind, indirectProfiles_recordStep, List.append_assoc, List.filter_cons]
      split
      · rw [List.map_cons, List.singleton_append]
      · rw [List.nil_append]
    · intro i hil
      obtain ⟨htotal, hid⟩ := hi i (by rwa [length_recordStep])
      refine ⟨fun f => ?_, ?_⟩
      · rw [List.foldl_cons, htotal f, total_recordStep selected counted m l e hil, List.filter_cons]
        split
        · rw [List.map_cons, List.sum_cons, add_assoc]
        · rw [add_zero]
      · rw [List.foldl_cons, hid, storedID_recordStep selected counted m l e hil, populated, populated, List.any_cons]
        cases e.directOf selected i <;> simp

end

/-! ### The second pass -/

/-- What the indirect records add to a region. -/
def RuntimeArrays.indirectAdded (m : RuntimeArrays) (ps : List (List UInt8 × ProfileData)) (r : UInt64)
    (f : SummedField) : UInt64 :=
  (ps.map fun q => m.added f q.2 (m.index q.2.postDomSetID r)).sum

/-- Two states of the lists that differ in the totals only. -/
structure SameRegions (l l' : RegionLists) : Prop where
  length : l'.regionProfileList.length = l.regionProfileList.length
  indirectProfiles : l'.indirectProfiles = l.indirectProfiles
  storedID : ∀ i < l.regionProfileList.length, l'.storedID i = l.storedID i

theorem SameRegions.refl (l : RegionLists) : SameRegions l l := ⟨rfl, rfl, fun _ _ => rfl⟩

theorem SameRegions.trans {l l' l'' : RegionLists} (h : SameRegions l l') (h' : SameRegions l' l'') :
    SameRegions l l'' where
  length := h'.length.trans h.length
  indirectProfiles := h'.indirectProfiles.trans h.indirectProfiles
  storedID := by
    intro i hi
    have hi' : i < l'.regionProfileList.length := by rwa [h.length]
    rw [h'.storedID i hi', h.storedID i hi]

section

variable (m : RuntimeArrays)

theorem sameRegions_indirectStep (r : UInt64) (l : RegionLists) (q : List UInt8 × ProfileData) :
    SameRegions l (indirectStep m r l q) where
  length := by simp [indirectStep]
  indirectProfiles := rfl
  storedID := by
    intro i hi
    simp only [RegionLists.storedID, indirectStep]
    rw [getD_addProfile _ _ _ hi]
    split <;> rfl

theorem total_indirectStep (r : UInt64) (l : RegionLists) (q : List UInt8 × ProfileData) {i : Nat}
    (hi : i < l.regionProfileList.length) (f : SummedField) :
    (indirectStep m r l q).total i f =
      l.total i f + if r.toNat = i then m.added f q.2 (m.index q.2.postDomSetID r) else 0 := by
  simp only [RegionLists.total, indirectStep]
  rw [getD_addProfile _ _ _ hi]
  split
  · rw [ProfileData.get_add, RuntimeArrays.added]
  · rw [add_zero]

/-- The inner loop adds every indirect record to the region it was started for. -/
theorem foldl_indirectStep (r : UInt64) (ps : List (List UInt8 × ProfileData)) (l : RegionLists) :
    SameRegions l (ps.foldl (indirectStep m r) l) ∧
      ∀ i < l.regionProfileList.length, ∀ f, (ps.foldl (indirectStep m r) l).total i f =
        l.total i f + if r.toNat = i then m.indirectAdded ps r f else 0 := by
  induction ps generalizing l with
  | nil => exact ⟨SameRegions.refl l, by simp [RuntimeArrays.indirectAdded]⟩
  | cons q ps ih =>
    have hstep := sameRegions_indirectStep m r l q
    obtain ⟨hsame, htotal⟩ := ih (indirectStep m r l q)
    refine ⟨hstep.trans hsame, ?_⟩
    intro i hi f
    rw [List.foldl_cons, htotal i (by rwa [hstep.length]) f, total_indirectStep m r l q hi f, add_assoc,
      RuntimeArrays.indirectAdded, RuntimeArrays.indirectAdded, List.map_cons, List.sum_cons]
    split
    · rfl
    · rw [add_zero]

/-- The profiles among the first `k` that say region `i`. -/
def RegionLists.storedAs (l : RegionLists) (i k : Nat) : Nat :=
  ((List.range k).filter fun j => (l.storedID j).toNat == i).length

/-- The body of the outer loop of `apply_indirect_counts`. -/
def indirectRound (m : RuntimeArrays) (l : RegionLists) (j : Nat) : RegionLists :=
  l.indirectProfiles.foldl (indirectStep m (l.storedID j)) l

theorem foldl_indirectRound (l : RegionLists) (k : Nat) (hk : k ≤ l.regionProfileList.length) :
    SameRegions l ((List.range k).foldl (indirectRound m) l) ∧
      ∀ i < l.regionProfileList.length, ∀ f, ((List.range k).foldl (indirectRound m) l).total i f =
        l.total i f + l.storedAs i k • m.indirectAdded l.indirectProfiles (UInt64.ofNat i) f := by
  induction k with
  | zero => exact ⟨SameRegions.refl l, by simp [RegionLists.storedAs]⟩
  | succ k ih =>
    obtain ⟨hsame, htotal⟩ := ih (by omega)
    rw [List.range_succ, List.foldl_append, List.foldl_cons, List.foldl_nil]
    set l' := (List.range k).foldl (indirectRound m) l with hl'
    obtain ⟨hround, hadded⟩ := foldl_indirectStep m (l'.storedID k) l'.indirectProfiles l'
    refine ⟨hsame.trans hround, ?_⟩
    intro i hi f
    have hround_total := hadded i (by rwa [hsame.length]) f
    rw [hsame.storedID k (by omega), hsame.indirectProfiles] at hround_total
    rw [indirectRound, hsame.storedID k (by omega), hsame.indirectProfiles, hround_total, htotal i hi f, add_assoc]
    congr 1
    rw [RegionLists.storedAs, RegionLists.storedAs, List.range_succ, List.filter_append, List.length_append,
      add_smul]
    congr 1
    by_cases hid : (l.storedID k).toNat = i
    · have hof : UInt64.ofNat i = l.storedID k := by rw [← hid, UInt64.ofNat_toNat]
      simp [hid, hof]
    · simp [hid]

/-- After `apply_indirect_counts` a region has the indirect records once for each profile that says it. -/
theorem total_applyIndirectCounts (l : RegionLists) {i : Nat} (hi : i < l.regionProfileList.length)
    (f : SummedField) :
    (applyIndirectCounts m l).total i f = l.total i f +
      l.storedAs i l.regionProfileList.length • m.indirectAdded l.indirectProfiles (UInt64.ofNat i) f :=
  (foldl_indirectRound m l _ le_rfl).2 i hi f

end

/-! ### Both passes -/

/-- The regions without a direct record that passes the filter. -/
def emptyRegions (selected : ProfileData → Bool) (es : List LogEntry) (n : Nat) : Nat :=
  ((List.range n).filter fun j => !populated selected es j).length

/-- The sum over the direct records of a region. -/
def directTotal (selected : ProfileData → Bool) (m : RuntimeArrays) (es : List LogEntry) (r : UInt64)
    (f : SummedField) : UInt64 :=
  ((es.filter (LogEntry.directOf selected r.toNat)).map fun e => m.recordTotal f e.inProfile r).sum

/-- The sum over the indirect records, in a region's row. -/
def indirectTotal (m : RuntimeArrays) (es : List LogEntry) (r : UInt64) (f : SummedField) : UInt64 :=
  ((es.filter (·.inProfile.isIndirect)).map fun e => m.recordTotal f e.inProfile r).sum

/-- The cells of every counter in the rows of the regions are counted by an `int`. -/
def CellsFit (m : RuntimeArrays) (es : List LogEntry) (n : Nat) : Prop :=
  ∀ e ∈ es, ∀ r : UInt64, r.toNat < n →
    e.inProfile.postDomSetID.toNat + m.counterDimension.toNat * r.toNat < 2 ^ 31

/-- How often the indirect records are added to a region. -/
def timesIndirect (selected : ProfileData → Bool) (es : List LogEntry) (n i : Nat) : Nat :=
  (if populated selected es i then 1 else 0) + if i = 0 then emptyRegions selected es n else 0

section

variable (selected counted : ProfileData → Bool) (m : RuntimeArrays) (es : List LogEntry)

theorem toNat_of_populated {i : Nat} (h : populated selected es i = true) : (UInt64.ofNat i).toNat = i := by
  obtain ⟨e, -, he⟩ := List.any_eq_true.mp h
  have hid : e.inProfile.pragmaRegionID.toNat = i := by
    rw [LogEntry.directOf, Bool.and_eq_true, beq_iff_eq] at he
    exact he.2
  rw [← hid, UInt64.ofNat_toNat]

/-- Region 0 is stored in its own profile and in those of the empty regions, any other region in its own only. -/
theorem storedAs_eq {l : RegionLists} {n : Nat}
    (h : ∀ j < n, l.storedID j = if populated selected es j then UInt64.ofNat j else 0) (i : Nat) :
    l.storedAs i n = (if i < n ∧ populated selected es i = true then 1 else 0) +
      if i = 0 then emptyRegions selected es n else 0 := by
  induction n with
  | zero => simp [RegionLists.storedAs, emptyRegions]
  | succ n ih =>
    have hn : (l.storedID n).toNat = if populated selected es n then n else 0 := by
      rw [h n (by omega)]
      cases hp : populated selected es n with
      | true => simpa using toNat_of_populated selected es hp
      | false => rfl
    have hstep : l.storedAs i (n + 1) = l.storedAs i n + if (l.storedID n).toNat = i then 1 else 0 := by
      rw [RegionLists.storedAs, RegionLists.storedAs, List.range_succ, List.filter_append, List.length_append]
      by_cases hi : (l.storedID n).toNat = i <;> simp [hi]
    have hempty : emptyRegions selected es (n + 1) =
        emptyRegions selected es n + if populated selected es n then 0 else 1 := by
      rw [emptyRegions, emptyRegions, List.range_succ, List.filter_append, List.length_append]
      cases hp : populated selected es n <;> simp [hp]
    have hown : (if i < n + 1 ∧ populated selected es i = true then 1 else 0) =
        (if i < n ∧ populated selected es i = true then 1 else 0) +
          if i = n ∧ populated selected es n = true then 1 else 0 := by
      by_cases hi : i = n
      · subst hi
        simp
      · have hlt : i < n + 1 ↔ i < n := by omega
        simp only [hlt, hi, false_and, if_false, add_zero]
    rw [hstep, ih fun j hj => h j (by omega), hn, hempty, hown]
    cases hp : populated selected es n with
    | true =>
      simp only [↓reduceIte, and_true, add_zero, eq_comm (a := n)]
      omega
    | false =>
      simp only [Bool.false_eq_true, ↓reduceIte, and_false, add_zero, eq_comm (a := 0)]
      by_cases hi : i = 0
      · simp only [hi, ↓reduceIte]
        omega
      · simp only [hi, ↓reduceIte, add_zero]

/-- The totals as both programs compute them. -/
theorem total_finalize {n i : Nat} (hi : i < n) (f : SummedField) :
    (applyIndirectCounts m (es.foldl (recordStep selected counted m) (RegionLists.fresh n))).total i f =
      ((es.filter (LogEntry.directOf selected i)).map fun e =>
        m.added f e.inProfile (m.index e.inProfile.postDomSetID e.inProfile.pragmaRegionID)).sum +
      timesIndirect selected es n i •
        ((es.filter (·.inProfile.isIndirect)).map fun e =>
          m.added f e.inProfile (m.index e.inProfile.postDomSetID (UInt64.ofNat i))).sum := by
  obtain ⟨hlen, hind, hregion⟩ := foldl_recordStep selected counted m es (RegionLists.fresh n)
  have hfresh : (RegionLists.fresh n).regionProfileList.length = n := by simp [RegionLists.fresh]
  rw [hfresh] at hlen hregion
  have hstored := storedAs_eq selected es (n := n) (fun j hj => by
    rw [(hregion j hj).2, RegionLists.storedID_fresh]) i
  have hindirect : (RegionLists.fresh n).indirectProfiles = [] := rfl
  rw [total_applyIndirectCounts m _ (by rwa [hlen]) f, (hregion i hi).1 f, RegionLists.total_fresh, zero_add, hlen,
    hstored, hind, hindirect, List.nil_append, RuntimeArrays.indirectAdded, List.map_map]
  simp only [hi, true_and, Function.comp_def, timesIndirect]

end

/-! ### The totals the regions are to have -/

/-- Every region with a selected direct record has its direct records and the indirect ones, in its own row, and any
other region has nothing. -/
def RegionTotals (selected : ProfileData → Bool) (m : RuntimeArrays) (es : List LogEntry) (n : Nat)
    (lists : RegionLists) : Prop :=
  ∀ r : UInt64, r.toNat < n → ∀ f, lists.total r.toNat f =
    if populated selected es r.toNat then directTotal selected m es r f + indirectTotal m es r f else 0

/-- The `SplitCounters` of a region's records, each added as it is whenever the record is. -/
def addedSplits (selected : ProfileData → Bool) (es : List LogEntry) (n : Nat) (r : UInt64) : UInt64 :=
  ((es.filter (LogEntry.directOf selected r.toNat)).map fun e => e.inProfile.splitCounters).sum +
    timesIndirect selected es n r.toNat •
      ((es.filter (·.inProfile.isIndirect)).map fun e => e.inProfile.splitCounters).sum

/-- The `SplitCounters` of every region come to the sum that the counters scale. -/
def SplitsAddUp (selected : ProfileData → Bool) (m : RuntimeArrays) (es : List LogEntry) (n : Nat) : Prop :=
  ∀ r : UInt64, r.toNat < n → addedSplits selected es n r =
    if populated selected es r.toNat then
      directTotal selected m es r .splitCounters + indirectTotal m es r .splitCounters
    else 0

section

variable {selected counted : ProfileData → Bool} {m : RuntimeArrays} {es : List LogEntry} {n : Nat}

/-- The pass leaves `SplitCounters` at zero. -/
theorem splitsAddUp_of_unsplit (hsplit : ∀ e ∈ es, e.inProfile.splitCounters = 0) : SplitsAddUp selected m es n := by
  have hadded : ∀ p : LogEntry → Bool, ((es.filter p).map fun e => e.inProfile.splitCounters).sum = 0 := by
    intro p
    refine List.sum_eq_zero fun x hx => ?_
    obtain ⟨e, he, rfl⟩ := List.mem_map.mp hx
    exact hsplit e (List.mem_filter.mp he).1
  have hscaled : ∀ (p : LogEntry → Bool) (r : UInt64),
      ((es.filter p).map fun e => m.recordTotal .splitCounters e.inProfile r).sum = 0 := by
    intro p r
    refine List.sum_eq_zero fun x hx => ?_
    obtain ⟨e, he, rfl⟩ := List.mem_map.mp hx
    simp [RuntimeArrays.recordTotal, ProfileData.get, RuntimeArrays.runtimeCell, hsplit e (List.mem_filter.mp he).1]
  intro r _
  rw [addedSplits, directTotal, indirectTotal, hadded, hadded, hscaled, hscaled, smul_zero, add_zero, ite_self]

/-- `SplitCounters` are added unscaled. -/
theorem total_finalize_splitCounters {r : UInt64} (hr : r.toNat < n) :
    (applyIndirectCounts m (es.foldl (recordStep selected counted m) (RegionLists.fresh n))).total r.toNat
      .splitCounters = addedSplits selected es n r := by
  rw [total_finalize selected counted m es hr .splitCounters, addedSplits]
  rfl

theorem sum_added_directOf (hfits : CellsFit m es n) {r : UInt64} (hr : r.toNat < n) {f : SummedField}
    (hf : f ≠ .splitCounters) :
    ((es.filter (LogEntry.directOf selected r.toNat)).map fun e =>
      m.added f e.inProfile (m.index e.inProfile.postDomSetID e.inProfile.pragmaRegionID)).sum =
      directTotal selected m es r f := by
  rw [directTotal]
  refine congrArg List.sum (List.map_congr_left fun e he => ?_)
  obtain ⟨hmem, hof⟩ := List.mem_filter.mp he
  have hid : e.inProfile.pragmaRegionID = r := by
    rw [LogEntry.directOf, Bool.and_eq_true, beq_iff_eq] at hof
    exact UInt64.toNat_inj.mp hof.2
  rw [hid, m.added_index hf (hfits e hmem r hr)]

theorem sum_added_indirect (hfits : CellsFit m es n) {r : UInt64} (hr : r.toNat < n) {f : SummedField}
    (hf : f ≠ .splitCounters) :
    ((es.filter (·.inProfile.isIndirect)).map fun e =>
      m.added f e.inProfile (m.index e.inProfile.postDomSetID r)).sum = indirectTotal m es r f := by
  rw [indirectTotal]
  refine congrArg List.sum (List.map_congr_left fun e he => ?_)
  have hmem := (List.mem_filter.mp he).1
  rw [m.added_index hf (hfits e hmem r hr)]

/-- A region's total: the indirect records come once more to region 0 for each empty region. -/
theorem total_finalize_eq (hfits : CellsFit m es n) {r : UInt64} (hr : r.toNat < n) {f : SummedField}
    (hf : f ≠ .splitCounters) :
    (applyIndirectCounts m (es.foldl (recordStep selected counted m) (RegionLists.fresh n))).total r.toNat f =
      (if populated selected es r.toNat then directTotal selected m es r f + indirectTotal m es r f else 0) +
        if r = 0 then emptyRegions selected es n • indirectTotal m es 0 f else 0 := by
  rw [total_finalize selected counted m es hr f, UInt64.ofNat_toNat, sum_added_directOf hfits hr hf,
    sum_added_indirect hfits hr hf, timesIndirect, add_smul, ← add_assoc]
  congr 1
  · cases hp : populated selected es r.toNat with
    | true => rw [if_pos rfl, if_pos rfl, one_smul]
    | false =>
      have hnone : es.filter (LogEntry.directOf selected r.toNat) = [] := by
        rw [List.filter_eq_nil_iff]
        exact List.any_eq_false.mp hp
      simp [directTotal, hnone]
  · by_cases h0 : r = 0
    · subst h0
      simp
    · have hne : r.toNat ≠ 0 := fun h => h0 (UInt64.toNat_inj.mp h)
      simp [h0, hne]

/-- The totals are right exactly when the indirect records add nothing to region 0 for the empty regions. -/
theorem regionTotals_finalize_iff (hfits : CellsFit m es n) :
    RegionTotals selected m es n
        (applyIndirectCounts m (es.foldl (recordStep selected counted m) (RegionLists.fresh n))) ↔
      (∀ f, f ≠ .splitCounters → emptyRegions selected es n • indirectTotal m es 0 f = 0) ∧
        SplitsAddUp selected m es n := by
  constructor
  · intro h
    refine ⟨fun f hf => ?_, fun r hr => ?_⟩
    · rcases Nat.eq_zero_or_pos n with rfl | hn
      · simp [emptyRegions]
      · have hr : (0 : UInt64).toNat < n := hn
        have hzero := h 0 hr f
        rw [total_finalize_eq hfits hr hf, if_pos rfl] at hzero
        exact left_eq_add.mp hzero.symm
    · have hsum := h r hr .splitCounters
      rwa [total_finalize_splitCounters hr] at hsum
  · rintro ⟨hempty, hsplits⟩ r hr f
    by_cases hf : f = .splitCounters
    · subst hf
      rw [total_finalize_splitCounters hr, hsplits r hr]
    · rw [total_finalize_eq hfits hr hf]
      by_cases h0 : r = 0
      · rw [if_pos h0, hempty f hf, add_zero]
      · rw [if_neg h0, add_zero]

end

/-- `zray_finalize` computes the region totals for a log exactly when the indirect records, taken in the row of region
0, add up to nothing as often as there are regions without a selected direct record, and the `SplitCounters`, which no
counter scales, come to what they are to. -/
theorem regionTotals_iff {maxSize activeGroupNumber : UInt64} {m : RuntimeArrays} {logFile : List UInt8}
    {v : LogVars} {n : Nat} {es : List LogEntry} {s : ByteStream}
    (hread : readRecords maxSize (ofBytes logFile) v = some (es, s)) (hfits : CellsFit m es n) :
    (∃ lists, zrayFinalize maxSize activeGroupNumber m logFile v n = some lists ∧
      RegionTotals (groupSelected activeGroupNumber) m es n lists) ↔
      (∀ f, f ≠ .splitCounters →
        emptyRegions (groupSelected activeGroupNumber) es n • indirectTotal m es 0 f = 0) ∧
        SplitsAddUp (groupSelected activeGroupNumber) m es n := by
  rw [zrayFinalize, readPdSets, readLoop_eq, hread, Option.map_some, Option.map_some, Option.map_some]
  constructor
  · rintro ⟨lists, hlists, htotals⟩
    rw [← Option.some.inj hlists] at htotals
    exact (regionTotals_finalize_iff hfits).mp htotals
  · intro h
    exact ⟨_, rfl, (regionTotals_finalize_iff hfits).mpr h⟩

/-! ### Two regions in two groups, and a function they both call -/

def sampleRecord (p : ProfileData) : CounterEvent × LogRecord 0 :=
  (.insertCustomEvent, ⟨p, Vector.replicate 6 0, [], Nat.zero_le _⟩)

def clearedVars : LogVars := ⟨List.replicate 4 0, List.replicate 8 0, rfl, rfl⟩

/-- A counter of region 0 in group 1, one of region 1 in group 2 and one of a cloned function. -/
def groupedEvents : List (CounterEvent × LogRecord 0) :=
  [sampleRecord { loadCount := 1, groupNumber := 1 },
    sampleRecord { loadCount := 1, groupNumber := 2, pragmaRegionID := 1 },
    sampleRecord { postDomSetID := 1, loadCount := 10, isIndirect := true }]

/-- Rows of two cells: region 0 ran both of its counters once, region 1 its own five times and the clone's twice. -/
def groupedArrays : RuntimeArrays where
  counterDimension := 2
  counterArray := fun i => if i = 0 then 1 else if i = 1 then 1 else if i = 2 then 5 else if i = 3 then 2 else 0
  loadRuntimeArray := fun _ => 0
  storeRuntimeArray := fun _ => 0

theorem groupedEvents_fit : CellsFit groupedArrays (groupedEvents.map fun e => e.2.entry) 2 := by
  intro e he r hr
  have hset : e.inProfile.postDomSetID.toNat ≤ 1 := by
    simp only [groupedEvents, List.map_cons, List.map_nil, List.mem_cons, List.not_mem_nil, or_false] at he
    rcases he with rfl | rfl | rfl <;> decide
  have hwidth : groupedArrays.counterDimension.toNat = 2 := rfl
  rw [hwidth]
  omega

theorem groupedEvents_unsplit : ∀ e ∈ groupedEvents.map fun e => e.2.entry, e.inProfile.splitCounters = 0 := by
  intro e he
  simp only [groupedEvents, List.map_cons, List.map_nil, List.mem_cons, List.not_mem_nil, or_false] at he
  rcases he with rfl | rfl | rfl <;> rfl

/-- Without a filter both regions have records, and the totals are right. -/
theorem regionTotals_of_all_populated :
    ∃ lists, zrayFinalize 0 0 groupedArrays (writtenLog groupedEvents) clearedVars 2 = some lists ∧
      RegionTotals (groupSelected 0) groupedArrays (groupedEvents.map fun e => e.2.entry) 2 lists := by
  have hempty : emptyRegions (groupSelected 0) (groupedEvents.map fun e => e.2.entry) 2 = 0 := by decide
  exact (regionTotals_iff (readRecords_writtenLog groupedEvents clearedVars) groupedEvents_fit).mpr
    ⟨fun f _ => by rw [hempty, zero_smul], splitsAddUp_of_unsplit groupedEvents_unsplit⟩

/-- With group 1 selected region 1 is empty, and region 0 has the loads of the clone twice. -/
theorem not_regionTotals_of_group_filter :
    ¬ ∃ lists, zrayFinalize 0 1 groupedArrays (writtenLog groupedEvents) clearedVars 2 = some lists ∧
      RegionTotals (groupSelected 1) groupedArrays (groupedEvents.map fun e => e.2.entry) 2 lists := by
  rintro ⟨lists, hlists, htotals⟩
  rw [zrayFinalize, readPdSets, readLoop_writtenLog, Option.map_some, Option.map_some] at hlists
  rw [← Option.some.inj hlists] at htotals
  have hzero := ((regionTotals_finalize_iff groupedEvents_fit).mp htotals).1 .loadCount (by decide)
  have hten : emptyRegions (groupSelected 1) (groupedEvents.map fun e => e.2.entry) 2 •
      indirectTotal groupedArrays (groupedEvents.map fun e => e.2.entry) 0 .loadCount = 10 := by decide
  rw [hten] at hzero
  exact absurd hzero (by decide)

end ZRay
