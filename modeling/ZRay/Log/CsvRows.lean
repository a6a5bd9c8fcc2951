import ZRay.Csv
import ZRay.DecimalText
import ZRay.Log.RegionTotals

/-!
# The rows of the statistics file

`zray_finalize` writes a row for every counter, where it applies it, and a row for every region at the end.  A
counter's row says which cell it was multiplied with, and every addition to a region's profile goes along with such a
row.  So the rows whose cells lie in the row of a region add up to the region (`sum_blockEntries`), also when the
second pass adds the clones to region 0 on behalf of empty regions.
-/

namespace ZRay

open ByteStream

/-! ### Fields -/

/-- The characters of a `std::string`. -/
def bytesText (bytes : List UInt8) : List Char := bytes.map Char.ofUInt8

/-- A `size_t`. -/
def number (x : UInt64) : List Char := Nat.toDigits 10 x.toNat

/-- The columns behind the bandwidths: bytes and instruction mix. -/
def mixColumns (p : ProfileData) : List UInt64 :=
  [p.bytesRead + p.intrinsicLoad, p.bytesWritten + p.intrinsicStore, p.loadCount, p.storeCount, p.intInstructionCount,
    p.fpInstructionCount, p.castInstructionCount, p.globalOpReadCount, p.globalOpWriteCount, p.stackReadCount,
    p.stackWriteCount, p.heapReadCount, p.heapWriteCount, p.intrinsicLoad, p.intrinsicStore]

/-! ### What is written -/

/-- A counter applied to a cell: what `write_basicblock_csv` and the inner loop of
`apply_indirect_counts` write of. -/
structure BlockEntry where
  index : Int
  functionName : List UInt8
  profile : ProfileData

/-- The counters of the regions, in the order `read_pd_sets` pushed them. -/
def countEntries (m : RuntimeArrays) (l : RegionLists) : List BlockEntry :=
  l.counts.map fun prof => ⟨m.index prof.2.postDomSetID prof.2.pragmaRegionID, prof.1, prof.2⟩

/-- A counter of a clone, applied to the row of a region. -/
def clonedEntry (m : RuntimeArrays) (pragmaRegionID : UInt64) (indirProf : List UInt8 × ProfileData) : BlockEntry :=
  let index := m.index indirProf.2.postDomSetID pragmaRegionID
  ⟨index, indirProf.1, m.applyArrays indirProf.2 index⟩

/-- The inner loop's body, with the row it writes. -/
def indirectStepRows (m : RuntimeArrays) (row : BlockEntry → List (List Char)) (pragmaRegionID : UInt64)
    (s : RegionLists × List (List (List Char))) (indirProf : List UInt8 × ProfileData) :
    RegionLists × List (List (List Char)) :=
  (indirectStep m pragmaRegionID s.1 indirProf, s.2 ++ [row (clonedEntry m pragmaRegionID indirProf)])

/-- `apply_indirect_counts`, with the rows it writes. -/
def applyIndirectCountsRows (m : RuntimeArrays) (row : BlockEntry → List (List Char)) (l : RegionLists) :
    RegionLists × List (List (List Char)) :=
  (List.range l.regionProfileList.length).foldl (fun s i =>
    let regionProfile := s.1.regionProfileList.getD i ([], {})
    s.1.indirectProfiles.foldl (indirectStepRows m row regionProfile.2.pragmaRegionID) s) (l, [])

/-- The counters of the clones, once for each profile of the list, in the row of the region that it says. -/
def clonedEntries (m : RuntimeArrays) (l : RegionLists) (k : Nat) : List BlockEntry :=
  (List.range k).flatMap fun j => l.indirectProfiles.map (clonedEntry m (l.storedID j))

section

variable (m : RuntimeArrays) (row : BlockEntry → List (List Char))

theorem foldl_indirectStepRows (r : UInt64) (ps : List (List UInt8 × ProfileData))
    (s : RegionLists × List (List (List Char))) :
    ps.foldl (indirectStepRows m row r) s =
      (ps.foldl (indirectStep m r) s.1, s.2 ++ (ps.map (clonedEntry m r)).map row) := by
  induction ps generalizing s with
  | nil => simp
  | cons q ps ih =>
    rw [List.foldl_cons, ih, List.foldl_cons, indirectStepRows, List.map_cons, List.map_cons, List.append_assoc,
      List.singleton_append]

/-- The rows do not disturb the second pass. -/
theorem applyIndirectCountsRows_eq (l : RegionLists) :
    applyIndirectCountsRows m row l =
      (applyIndirectCounts m l, (clonedEntries m l l.regionProfileList.length).map row) := by
  have hrounds : ∀ k ≤ l.regionProfileList.length,
      (List.range k).foldl (fun s i =>
        let regionProfile := s.1.regionProfileList.getD i ([], {})
        s.1.indirectProfiles.foldl (indirectStepRows m row regionProfile.2.pragmaRegionID) s) (l, []) =
      ((List.range k).foldl (indirectRound m) l, (clonedEntries m l k).map row) := by
    intro k hk
    induction k with
    | zero => rfl
    | succ k ih =>
      have hsame := (foldl_indirectRound m l k (by omega)).1
      rw [List.range_succ, List.foldl_append, List.foldl_append, ih (by omega), List.foldl_cons, List.foldl_cons,
        List.foldl_nil, List.foldl_nil]
      dsimp only
      rw [foldl_indirectStepRows]
      have hid : (((List.range k).foldl (indirectRound m) l).regionProfileList.getD k ([], {})).2.pragmaRegionID =
          l.storedID k := hsame.storedID k (by omega)
      rw [hid, hsame.indirectProfiles, indirectRound, hsame.storedID k (by omega), hsame.indirectProfiles,
        clonedEntries, clonedEntries, List.range_succ, List.flatMap_append, List.map_append]
      simp
  exact hrounds _ (Nat.le_refl _)

end

/-! ### The rows of a region -/

/-- The cell lies in the row of region `i`. -/
def inRow (counterDimension i : Nat) (index : Int) : Bool :=
  decide (((counterDimension * i : Nat) : Int) ≤ index) && decide (index < ((counterDimension * (i + 1) : Nat) : Int))

/-- What the counters whose cells lie in the row of a region add up to. -/
def rowTotal (counterDimension i : Nat) (f : SummedField) (entries : List BlockEntry) : UInt64 :=
  ((entries.filter fun e => inRow counterDimension i e.index).map fun e => e.profile.get f).sum

theorem rowTotal_append (counterDimension i : Nat) (f : SummedField) (es es' : List BlockEntry) :
    rowTotal counterDimension i f (es ++ es') = rowTotal counterDimension i f es +
      rowTotal counterDimension i f es' := by
  rw [rowTotal, List.filter_append, List.map_append, List.sum_append, rowTotal, rowTotal]

/-- Every counter is narrower than a row, the regions are known, and an `int` counts all cells. -/
structure WithinRows (selected : ProfileData → Bool) (counterDimension : UInt64) (es : List LogEntry) (n : Nat) :
    Prop where
  width : ∀ e ∈ es, e.inProfile.postDomSetID.toNat < counterDimension.toNat
  regions : ∀ e ∈ es, e.direct selected = true → e.inProfile.pragmaRegionID.toNat < n
  fits : counterDimension.toNat * n ≤ 2 ^ 31

/-- A counter's cell lies in the row of its region and in no other. -/
theorem inRow_index {m : RuntimeArrays} {n : Nat} (hfits : m.counterDimension.toNat * n ≤ 2 ^ 31) {k r : UInt64}
    (hk : k.toNat < m.counterDimension.toNat) (hr : r.toNat < n) (i : Nat) :
    inRow m.counterDimension.toNat i (m.index k r) = decide (r.toNat = i) := by
  have hnext : m.counterDimension.toNat * (r.toNat + 1) ≤ m.counterDimension.toNat * n := Nat.mul_le_mul_left _ hr
  rw [Nat.mul_succ] at hnext
  have hcell : k.toNat + m.counterDimension.toNat * r.toNat < 2 ^ 31 := by omega
  rw [m.index_eq_cell hcell, RuntimeArrays.cell, inRow, Bool.eq_iff_iff, Bool.and_eq_true, decide_eq_true_eq,
    decide_eq_true_eq, decide_eq_true_eq, Int.ofNat_le, Int.ofNat_lt]
  constructor
  · rintro ⟨hle, hlt⟩
    have hrow : m.counterDimension.toNat * i < m.counterDimension.toNat * (r.toNat + 1) := by
      rw [Nat.mul_succ]
      omega
    have hrow' : m.counterDimension.toNat * r.toNat < m.counterDimension.toNat * (i + 1) := by omega
    have hi := Nat.lt_of_mul_lt_mul_left hrow
    have hi' := Nat.lt_of_mul_lt_mul_left hrow'
    omega
  · rintro rfl
    rw [Nat.mul_succ]
    omega

section

variable {selected counted : ProfileData → Bool} {m : RuntimeArrays} {es : List LogEntry} {n : Nat}

variable (selected counted m) in
theorem counts_foldl_recordStep (es : List LogEntry) (l : RegionLists) :
    (es.foldl (recordStep selected counted m) l).counts = l.counts ++ (es.filter (LogEntry.direct selected)).map
      fun e => (e.functionName,
        m.applyArrays e.inProfile (m.index e.inProfile.postDomSetID e.inProfile.pragmaRegionID)) := by
  induction es generalizing l with
  | nil => simp
  | cons e es ih =>
    rw [List.foldl_cons, ih, List.filter_cons]
    cases hind : e.inProfile.isIndirect with
    | true => simp [recordStep, LogEntry.direct, hind]
    | false => cases hsel : selected e.inProfile <;> simp [recordStep, LogEntry.direct, hind, hsel]

/-- The first pass: the rows of the counters add up to the regions. -/
theorem rowTotal_countEntries (h : WithinRows selected m.counterDimension es n) {i : Nat} (hi : i < n)
    (f : SummedField) :
    rowTotal m.counterDimension.toNat i f
        (countEntries m (es.foldl (recordStep selected counted m) (RegionLists.fresh n))) =
      (es.foldl (recordStep selected counted m) (RegionLists.fresh n)).total i f := by
  have hlen : i < (RegionLists.fresh n).regionProfileList.length := by simpa [RegionLists.fresh] using hi
  have htotal := ((foldl_recordStep selected counted m es (RegionLists.fresh n)).2.2 i hlen).1 f
  rw [htotal, RegionLists.total_fresh, zero_add, rowTotal, countEntries, counts_foldl_recordStep]
  have hnone : (RegionLists.fresh n).counts = [] := rfl
  rw [hnone, List.nil_append, List.map_map, List.filter_map, List.map_map, List.filter_filter]
  have hfilter : es.filter (fun e => ((fun b : BlockEntry => inRow m.counterDimension.toNat i b.index) ∘
      (fun prof : List UInt8 × ProfileData => (⟨m.index prof.2.postDomSetID prof.2.pragmaRegionID, prof.1, prof.2⟩ :
        BlockEntry)) ∘ fun e : LogEntry => (e.functionName,
          m.applyArrays e.inProfile (m.index e.inProfile.postDomSetID e.inProfile.pragmaRegionID))) e &&
      e.direct selected) = es.filter (LogEntry.directOf selected i) := by
    refine List.filter_congr fun e he => ?_
    show (inRow m.counterDimension.toNat i (m.index e.inProfile.postDomSetID e.inProfile.pragmaRegionID) &&
      e.direct selected) = (e.direct selected && e.inProfile.pragmaRegionID.toNat == i)
    cases hd : e.direct selected with
    | false => simp
    | true =>
      rw [inRow_index h.fits (h.width e he) (h.regions e he hd) i, Bool.and_true, Bool.true_and]
      rfl
  rw [hfilter]
  rfl

/-- The clones in one round: their rows add up to what the region of the round gets. -/
theorem rowTotal_clonedEntry (hfits : m.counterDimension.toNat * n ≤ 2 ^ 31) {ps : List (List UInt8 × ProfileData)}
    (hwidth : ∀ q ∈ ps, q.2.postDomSetID.toNat < m.counterDimension.toNat) {r : UInt64} (hr : r.toNat < n) (i : Nat)
    (f : SummedField) :
    rowTotal m.counterDimension.toNat i f (ps.map (clonedEntry m r)) =
      if r.toNat = i then m.indirectAdded ps r f else 0 := by
  induction ps with
  | nil => simp [rowTotal, RuntimeArrays.indirectAdded]
  | cons q ps ih =>
    have hrest := ih fun q' hq' => hwidth q' (List.mem_cons_of_mem q hq')
    have hq : rowTotal m.counterDimension.toNat i f [clonedEntry m r q] =
        if r.toNat = i then m.added f q.2 (m.index q.2.postDomSetID r) else 0 := by
      have hin := inRow_index hfits (hwidth q List.mem_cons_self) hr i
      by_cases hri : r.toNat = i
      · rw [if_pos hri, rowTotal, List.filter_cons_of_pos (by simpa [clonedEntry, hri] using hin), List.filter_nil,
          List.map_singleton, List.sum_singleton]
        rfl
      · rw [if_neg hri, rowTotal, List.filter_cons_of_neg (by simp [clonedEntry, hin, hri]), List.filter_nil]
        rfl
    rw [List.map_cons, ← List.singleton_append, rowTotal_append, hq, hrest]
    split
    · rw [RuntimeArrays.indirectAdded, RuntimeArrays.indirectAdded, List.map_cons, List.sum_cons]
    · rw [add_zero]

/-- The second pass: the rows of the clones add up to what the regions get. -/
theorem total_foldl_indirectRound (hfits : m.counterDimension.toNat * n ≤ 2 ^ 31) {l : RegionLists}
    (hlen : l.regionProfileList.length = n)
    (hwidth : ∀ q ∈ l.indirectProfiles, q.2.postDomSetID.toNat < m.counterDimension.toNat)
    (hstored : ∀ j < n, (l.storedID j).toNat < n) {i : Nat} (hi : i < n) (f : SummedField) {k : Nat} (hk : k ≤ n) :
    ((List.range k).foldl (indirectRound m) l).total i f =
      l.total i f + rowTotal m.counterDimension.toNat i f (clonedEntries m l k) := by
  induction k with
  | zero => simp [clonedEntries, rowTotal]
  | succ k ih =>
    have hsame := (foldl_indirectRound m l k (by omega)).1
    have hround := (foldl_indirectStep m (l.storedID k) l.indirectProfiles
      ((List.range k).foldl (indirectRound m) l)).2 i (by rw [hsame.length]; omega) f
    have hentries : clonedEntries m l (k + 1) =
        clonedEntries m l k ++ l.indirectProfiles.map (clonedEntry m (l.storedID k)) := by
      rw [clonedEntries, List.range_succ, List.flatMap_append, List.flatMap_singleton, clonedEntries]
    rw [List.range_succ, List.foldl_append, List.foldl_cons, List.foldl_nil, indirectRound,
      hsame.storedID k (by omega), hsame.indirectProfiles, hround, ih (by omega), hentries, rowTotal_append,
      rowTotal_clonedEntry hfits hwidth (hstored k (by omega)) i f, add_assoc]

/-- Both passes: the rows that are written of the counters add up to the profiles of the regions. -/
theorem sum_blockEntries (h : WithinRows selected m.counterDimension es n) {i : Nat} (hi : i < n) (f : SummedField) :
    let l := es.foldl (recordStep selected counted m) (RegionLists.fresh n)
    rowTotal m.counterDimension.toNat i f (countEntries m l ++ clonedEntries m l l.regionProfileList.length) =
      (applyIndirectCounts m l).total i f := by
  intro l
  obtain ⟨hlen, hind, hregion⟩ := foldl_recordStep selected counted m es (RegionLists.fresh n)
  have hfresh : (RegionLists.fresh n).regionProfileList.length = n := by simp [RegionLists.fresh]
  rw [hfresh] at hlen hregion
  have hnone : (RegionLists.fresh n).indirectProfiles = [] := rfl
  rw [hnone, List.nil_append] at hind
  have hwidth : ∀ q ∈ l.indirectProfiles, q.2.postDomSetID.toNat < m.counterDimension.toNat := by
    intro q hq
    rw [hind, List.mem_map] at hq
    obtain ⟨e, he, rfl⟩ := hq
    exact h.width e (List.mem_filter.mp he).1
  have hstored : ∀ j < n, (l.storedID j).toNat < n := by
    intro j hj
    rw [(hregion j hj).2, RegionLists.storedID_fresh]
    split
    · rename_i hpop
      rw [toNat_of_populated selected es hpop]
      exact hj
    · exact Nat.zero_lt_of_lt hj
  have hrounds := total_foldl_indirectRound h.fits hlen hwidth hstored hi f (Nat.le_refl n)
  have happly : applyIndirectCounts m l = (List.range n).foldl (indirectRound m) l := by
    rw [applyIndirectCounts, hlen]
    rfl
  rw [rowTotal_append, rowTotal_countEntries h hi f, happly, hrounds, hlen]

end

end ZRay
