import ZRay.Log.CsvRows
import ZRay.Log.EpochTotals

/-!
# The statistics file, call by call

What one call of `zray_finalize` writes to `zray_application_stats.csv`, whichever of the two programs it is in.  The
rows of the counters whose cells lie in the row of a region come to the row of the region, in every column of counts
(`regionSum_callRows`, `blockSum_callRows`), and every row fits the column names as long as the names of functions can
stand in a field.  None of it depends on how the columns are laid out.  Calls follow each other: the first truncates
the file and writes the column names, every one appends its rows.
-/

namespace ZRay

open ByteStream

/-! ### Reading a row -/

/-- The field under column `k`. -/
def fieldOf (row : List (List Char)) (k : Nat) : List Char := row.getD k []

/-- The number under column `k`. -/
def cellOf (row : List (List Char)) (k : Nat) : UInt64 := UInt64.ofNat (strtoumax (fieldOf row k))

/-- A row of region `i` of a thread iteration. -/
def isRegionRow (iteration : UInt64) (i : Nat) (row : List (List Char)) : Bool :=
  fieldOf row 2 == "Region".toList && cellOf row 1 == iteration && strtoumax (fieldOf row 3) == i

/-- A row of a counter of a thread iteration, whose cell lies in the row of region `i`. -/
def isBlockRow (counterDimension : Nat) (iteration : UInt64) (i : Nat) (row : List (List Char)) : Bool :=
  fieldOf row 2 != "Region".toList && cellOf row 1 == iteration && inRow counterDimension i (atoi (fieldOf row 5))

/-- The rows of a region, added up in one column. -/
def regionSum (iteration : UInt64) (i k : Nat) (rows : List (List (List Char))) : UInt64 :=
  ((rows.filter (isRegionRow iteration i)).map fun row => cellOf row k).sum

/-- The rows of its counters, added up in one column. -/
def blockSum (counterDimension : Nat) (iteration : UInt64) (i k : Nat) (rows : List (List (List Char))) : UInt64 :=
  ((rows.filter (isBlockRow counterDimension iteration i)).map fun row => cellOf row k).sum

theorem regionSum_append (iteration : UInt64) (i k : Nat) (rows rows' : List (List (List Char))) :
    regionSum iteration i k (rows ++ rows') = regionSum iteration i k rows + regionSum iteration i k rows' := by
  rw [regionSum, List.filter_append, List.map_append, List.sum_append, regionSum, regionSum]

theorem blockSum_append (counterDimension : Nat) (iteration : UInt64) (i k : Nat)
    (rows rows' : List (List (List Char))) :
    blockSum counterDimension iteration i k (rows ++ rows') =
      blockSum counterDimension iteration i k rows + blockSum counterDimension iteration i k rows' := by
  rw [blockSum, List.filter_append, List.map_append, List.sum_append, blockSum, blockSum]

/-! ### Numbers and separators -/

theorem strtoumax_number (x : UInt64) : strtoumax (number x) = x.toNat := strtoumax_toDigits x.toNat_lt

theorem atoi_printSigned (n : Int) : atoi (printSigned n) = n := by
  unfold printSigned
  split
  · have hminus : atoi ('-' :: Nat.toDigits 10 n.natAbs) = -(n.natAbs : Int) := by
      unfold atoi
      rw [List.dropWhile_cons_of_neg (by decide)]
      simp only [if_true, leadingNumber_toDigits]
    rw [hminus]
    omega
  · rw [atoi_toDigits]
    omega

theorem cleanField_of_isDigit {s : List Char} (h : ∀ c ∈ s, c.isDigit = true) : Csv.CleanField s := by
  constructor
  · intro hmem
    exact absurd (h ',' hmem) (by decide)
  · intro hmem
    exact absurd (h '\n' hmem) (by decide)

theorem cleanField_toDigits (n : Nat) : Csv.CleanField (Nat.toDigits 10 n) :=
  cleanField_of_isDigit fun _ hc => Nat.isDigit_of_mem_toDigits (by decide) (by decide) hc

theorem cleanField_printSigned (n : Int) : Csv.CleanField (printSigned n) := by
  obtain ⟨hcomma, hfeed⟩ := cleanField_toDigits n.natAbs
  unfold printSigned
  split
  · exact ⟨by simpa using hcomma, by simpa using hfeed⟩
  · exact ⟨hcomma, hfeed⟩

/-! ### The rows of one call -/

/-- A column of numbers: where the rows of the counters have it, where those of the regions do, and
what it adds up. -/
structure CsvColumn where
  block : Nat
  region : Nat
  fields : List SummedField

/-- What stands in the column for a profile. -/
def CsvColumn.of (c : CsvColumn) (p : ProfileData) : UInt64 := (c.fields.map p.get).sum

/-- How the rows of a call are laid out. -/
structure CsvLayout where
  iteration : UInt64
  blockRow : List Char → BlockEntry → List (List Char)
  regionRow : Nat → UInt64 → List UInt8 × ProfileData → List (List Char)

/-- The rows say what they are of, and the columns stand where they are to. -/
structure CsvLayout.Sound (y : CsvLayout) (columns : List CsvColumn) : Prop where
  block_key : ∀ t e, fieldOf (y.blockRow t e) 1 = number y.iteration
  block_type : ∀ t e, fieldOf (y.blockRow t e) 2 = t
  block_index : ∀ t e, fieldOf (y.blockRow t e) 5 = printSigned e.index
  block_cell : ∀ c ∈ columns, ∀ t e, fieldOf (y.blockRow t e) c.block = number (c.of e.profile)
  region_key : ∀ i n q, fieldOf (y.regionRow i n q) 1 = number y.iteration
  region_type : ∀ i n q, fieldOf (y.regionRow i n q) 2 = "Region".toList
  region_id : ∀ i n q, fieldOf (y.regionRow i n q) 3 = Nat.toDigits 10 i
  region_cell : ∀ c ∈ columns, ∀ i n q, fieldOf (y.regionRow i n q) c.region = number (c.of q.2)

/-- The rows of a call, after `read_pd_sets`: the counters of the regions, those of the clones, and the regions. -/
def callRows (y : CsvLayout) (m : RuntimeArrays) (l : RegionLists) : List (List (List Char)) :=
  let applied := applyIndirectCountsRows m (y.blockRow "Cloned Basic Block".toList) l
  (countEntries m l).map (y.blockRow "Basic Block".toList) ++ applied.2 ++
    applied.1.regionProfileList.zipIdx.map fun q =>
      y.regionRow q.2 (applied.1.regionProfileCounts.getD q.2 0) q.1

section call

variable {y : CsvLayout} {columns : List CsvColumn}

theorem isRegionRow_regionRow (h : y.Sound columns) (iteration : UInt64) (i j : Nat) (hj : j < 2 ^ 64) (n : UInt64)
    (q : List UInt8 × ProfileData) :
    isRegionRow iteration i (y.regionRow j n q) = (decide (iteration = y.iteration) && decide (j = i)) := by
  rw [isRegionRow, cellOf, h.region_type, h.region_key, h.region_id, strtoumax_number, strtoumax_toDigits hj,
    UInt64.ofNat_toNat, Bool.eq_iff_iff]
  simp only [beq_self_eq_true, Bool.true_and, Bool.and_eq_true, beq_iff_eq, decide_eq_true_eq]
  exact and_congr_left fun _ => eq_comm

theorem isBlockRow_regionRow (h : y.Sound columns) (counterDimension : Nat) (iteration : UInt64)
    (i j : Nat) (n : UInt64) (q : List UInt8 × ProfileData) :
      isBlockRow counterDimension iteration i (y.regionRow j n q) = false := by
  simp [isBlockRow, h.region_type]

theorem isRegionRow_blockRow (h : y.Sound columns) (iteration : UInt64) (i : Nat) {t : List Char}
    (ht : t ≠ "Region".toList) (e : BlockEntry) : isRegionRow iteration i (y.blockRow t e) = false := by
  rw [isRegionRow, h.block_type, beq_false_of_ne ht, Bool.false_and, Bool.false_and]

theorem isBlockRow_blockRow (h : y.Sound columns) (counterDimension : Nat) (iteration : UInt64) (i : Nat)
    {t : List Char} (ht : t ≠ "Region".toList) (e : BlockEntry) :
    isBlockRow counterDimension iteration i (y.blockRow t e) =
      (decide (iteration = y.iteration) && inRow counterDimension i e.index) := by
  have htype : (t != "Region".toList) = true := by simpa using ht
  rw [isBlockRow, cellOf, h.block_type, h.block_key, h.block_index, strtoumax_number, atoi_printSigned, htype,
    UInt64.ofNat_toNat, Bool.true_and]
  congr 1
  rw [Bool.eq_iff_iff, beq_iff_eq, decide_eq_true_eq]
  exact eq_comm

/-- The rows of the counters are no rows of regions. -/
theorem regionSum_blockRows (h : y.Sound columns) (iteration : UInt64) (i k : Nat) {t : List Char}
    (ht : t ≠ "Region".toList) (entries : List BlockEntry) :
    regionSum iteration i k (entries.map (y.blockRow t)) = 0 := by
  have hnone : (entries.map (y.blockRow t)).filter (isRegionRow iteration i) = [] := by
    refine List.filter_eq_nil_iff.mpr fun row hrow => ?_
    obtain ⟨e, -, rfl⟩ := List.mem_map.mp hrow
    rw [isRegionRow_blockRow h iteration i ht e]
    exact Bool.false_ne_true
  rw [regionSum, hnone]
  rfl

theorem sum_column (f : CsvColumn) (ps : List ProfileData) :
    (ps.map f.of).sum = (f.fields.map fun g => (ps.map fun p => p.get g).sum).sum := by
  induction ps with
  | nil => simp
  | cons p ps ih =>
    simp only [List.map_cons, List.sum_cons, ih, CsvColumn.of]
    exact List.sum_map_add.symm

/-- The rows of the counters add up to what the counters in the row of the region do. -/
theorem blockSum_blockRows (h : y.Sound columns) (counterDimension : Nat) (iteration : UInt64)
    (i : Nat) {c : CsvColumn} (hc : c ∈ columns) {t : List Char} (ht : t ≠ "Region".toList)
    (entries : List BlockEntry) :
    blockSum counterDimension iteration i c.block (entries.map (y.blockRow t)) =
      if iteration = y.iteration then (c.fields.map fun f => rowTotal counterDimension i f entries).sum else 0 := by
  have hfilter : (entries.map (y.blockRow t)).filter (isBlockRow counterDimension iteration i) =
      (entries.filter fun e => decide (iteration = y.iteration) && inRow counterDimension i e.index).map
        (y.blockRow t) := by
    rw [List.filter_map]
    exact congrArg _ (List.filter_congr fun e _ => isBlockRow_blockRow h counterDimension iteration i ht e)
  rw [blockSum, hfilter, List.map_map]
  by_cases hkey : iteration = y.iteration
  · have hcell : ∀ e : BlockEntry, cellOf (y.blockRow t e) c.block = c.of e.profile := fun e => by
      rw [cellOf, h.block_cell c hc, strtoumax_number, UInt64.ofNat_toNat]
    simp only [hkey, decide_true, Bool.true_and, if_true, Function.comp_def, hcell]
    have hcolumn := sum_column c ((entries.filter fun e => inRow counterDimension i e.index).map BlockEntry.profile)
    simp only [List.map_map, Function.comp_def] at hcolumn
    exact hcolumn
  · simp [hkey]

theorem filter_zipIdx_snd {α : Type*} (l : List α) (n i : Nat) (hi : i < l.length) :
    (l.zipIdx n).filter (fun q => decide (q.2 = n + i)) = [(l[i], n + i)] := by
  induction l generalizing n i with
  | nil => simp at hi
  | cons a l ih =>
    rw [List.zipIdx_cons]
    cases i with
    | zero =>
      have hrest : (l.zipIdx (n + 1)).filter (fun q => decide (q.2 = n)) = [] := by
        refine List.filter_eq_nil_iff.mpr fun q hq => ?_
        have hle := List.le_snd_of_mem_zipIdx hq
        simp only [decide_eq_true_eq]
        omega
      rw [Nat.add_zero, List.filter_cons_of_pos (by simp), hrest]
      rfl
    | succ i =>
      have hrest := ih (n + 1) i (by simpa using hi)
      rw [List.filter_cons_of_neg (by simp)]
      have hshift : n + 1 + i = n + (i + 1) := by omega
      rw [hshift] at hrest
      simpa using hrest

/-- The rows of the regions: one for each region of the call, which says what its profile does. -/
theorem regionSum_regionRows (h : y.Sound columns) (iteration : UInt64) {l : RegionLists} {i : Nat}
    (hi : i < l.regionProfileList.length) (hlen : l.regionProfileList.length ≤ 2 ^ 64) {c : CsvColumn}
    (hc : c ∈ columns) :
    regionSum iteration i c.region (l.regionProfileList.zipIdx.map fun q =>
        y.regionRow q.2 (l.regionProfileCounts.getD q.2 0) q.1) =
      if iteration = y.iteration then (c.fields.map fun f => l.total i f).sum else 0 := by
  have hfilter : (l.regionProfileList.zipIdx.map fun q =>
      y.regionRow q.2 (l.regionProfileCounts.getD q.2 0) q.1).filter (isRegionRow iteration i) =
      (l.regionProfileList.zipIdx.filter fun q => decide (iteration = y.iteration) && decide (q.2 = 0 + i)).map
        fun q => y.regionRow q.2 (l.regionProfileCounts.getD q.2 0) q.1 := by
    rw [List.filter_map]
    refine congrArg _ (List.filter_congr fun q hq => ?_)
    have hlt := List.snd_lt_of_mem_zipIdx hq
    rw [Function.comp_apply, isRegionRow_regionRow h iteration i q.2 (by omega), Nat.zero_add]
  rw [regionSum, hfilter]
  by_cases hkey : iteration = y.iteration
  · simp only [hkey, decide_true, Bool.true_and, if_true]
    rw [filter_zipIdx_snd l.regionProfileList 0 i hi]
    simp only [List.map_cons, List.map_nil, List.sum_cons, List.sum_nil, add_zero]
    rw [cellOf, h.region_cell c hc, strtoumax_number, UInt64.ofNat_toNat, CsvColumn.of]
    refine congrArg List.sum (List.map_congr_left fun f _ => ?_)
    rw [RegionLists.total, List.getD_eq_getElem _ _ hi]
  · simp [hkey]

theorem blockSum_regionRows (h : y.Sound columns) (counterDimension : Nat) (iteration : UInt64) (i k : Nat)
    (l : RegionLists) :
    blockSum counterDimension iteration i k (l.regionProfileList.zipIdx.map fun q =>
      y.regionRow q.2 (l.regionProfileCounts.getD q.2 0) q.1) = 0 := by
  have hnone : (l.regionProfileList.zipIdx.map fun q =>
      y.regionRow q.2 (l.regionProfileCounts.getD q.2 0) q.1).filter (isBlockRow counterDimension iteration i) =
        [] := by
    refine List.filter_eq_nil_iff.mpr fun row hrow => ?_
    obtain ⟨q, -, rfl⟩ := List.mem_map.mp hrow
    rw [isBlockRow_regionRow h counterDimension iteration i q.2]
    exact Bool.false_ne_true
  rw [blockSum, hnone]
  rfl

section

variable {selected counted : ProfileData → Bool} {m : RuntimeArrays} {es : List LogEntry} {n : Nat}

/-- What the rows of a call say of a region, in every column, is its profile. -/
theorem regionSum_callRows (h : y.Sound columns) (iteration : UInt64) {i : Nat} (hi : i < n) (hn : n ≤ 2 ^ 64)
    {c : CsvColumn} (hc : c ∈ columns) :
    let l := es.foldl (recordStep selected counted m) (RegionLists.fresh n)
    regionSum iteration i c.region (callRows y m l) =
      if iteration = y.iteration then (c.fields.map fun f => (applyIndirectCounts m l).total i f).sum else 0 := by
  intro l
  have hfresh : (RegionLists.fresh n).regionProfileList.length = n := by simp [RegionLists.fresh]
  have hlen : l.regionProfileList.length = n := by
    rw [(foldl_recordStep selected counted m es (RegionLists.fresh n)).1, hfresh]
  have happlied : (applyIndirectCounts m l).regionProfileList.length = n := by
    rw [← hlen]
    exact (foldl_indirectRound m l _ (Nat.le_refl _)).1.length
  rw [callRows, applyIndirectCountsRows_eq]
  dsimp only
  rw [regionSum_append, regionSum_append, regionSum_blockRows h iteration i c.region (by decide),
    regionSum_blockRows h iteration i c.region (by decide), zero_add, zero_add,
    regionSum_regionRows h iteration (by rw [happlied]; exact hi) (by rw [happlied]; exact hn) hc]

/-- And so is what the rows of the counters in its row add up to. -/
theorem blockSum_callRows (h : y.Sound columns) (hrows : WithinRows selected m.counterDimension es n)
    (iteration : UInt64) {i : Nat} (hi : i < n) {c : CsvColumn} (hc : c ∈ columns) :
    let l := es.foldl (recordStep selected counted m) (RegionLists.fresh n)
    blockSum m.counterDimension.toNat iteration i c.block (callRows y m l) =
      if iteration = y.iteration then (c.fields.map fun f => (applyIndirectCounts m l).total i f).sum else 0 := by
  intro l
  rw [callRows, applyIndirectCountsRows_eq]
  dsimp only
  rw [blockSum_append, blockSum_append, blockSum_regionRows h, add_zero,
    blockSum_blockRows h _ iteration i hc (by decide), blockSum_blockRows h _ iteration i hc (by decide)]
  by_cases hkey : iteration = y.iteration
  · rw [if_pos hkey, if_pos hkey, if_pos hkey, ← List.sum_map_add]
    refine congrArg List.sum (List.map_congr_left fun f _ => ?_)
    rw [← rowTotal_append]
    exact sum_blockEntries hrows hi f
  · rw [if_neg hkey, if_neg hkey, if_neg hkey, add_zero]

end

end call

/-! ### Names -/

/-- Every name in the log can stand in a row. -/
def NamesClean (es : List LogEntry) : Prop := ∀ e ∈ es, Csv.CleanField (bytesText e.functionName)

/-- A row that can be read back and has a field for every column. -/
def FitsHeader (header row : List (List Char)) : Prop := Csv.CleanRow row ∧ row.length = header.length

/-- The rows fit the column names when the names of functions can stand in them. -/
structure CsvLayout.Fits (y : CsvLayout) (header : List (List Char)) : Prop where
  block : ∀ t ∈ ["Basic Block".toList, "Cloned Basic Block".toList], ∀ e, Csv.CleanField (bytesText e.functionName) →
    FitsHeader header (y.blockRow t e)
  region : ∀ i n q, Csv.CleanField (bytesText q.1) → FitsHeader header (y.regionRow i n q)

section names

variable {P : List UInt8 → Prop}

theorem names_modify {l : List (List UInt8 × ProfileData)} (h : ∀ q ∈ l, P q.1) (j : Nat)
    {f : List UInt8 × ProfileData → List UInt8 × ProfileData} (hf : ∀ q, P q.1 → P (f q).1) :
    ∀ q ∈ l.modify j f, P q.1 := by
  intro q hq
  obtain ⟨i, hi, rfl⟩ := List.mem_iff_getElem.mp hq
  have hil : i < l.length := by simpa using hi
  rw [List.getElem_modify]
  split
  · exact hf _ (h _ (List.getElem_mem hil))
  · exact h _ (List.getElem_mem hil)

/-- The names in all lists are the empty one and names of records. -/
structure NamesOf (P : List UInt8 → Prop) (l : RegionLists) : Prop where
  regions : ∀ q ∈ l.regionProfileList, P q.1
  counts : ∀ q ∈ l.counts, P q.1
  indirect : ∀ q ∈ l.indirectProfiles, P q.1

theorem NamesOf.recordStep {selected counted : ProfileData → Bool} {m : RuntimeArrays} {l : RegionLists}
    (h : NamesOf P l) {e : LogEntry} (he : P e.functionName) : NamesOf P (recordStep selected counted m l e) := by
  unfold ZRay.recordStep
  split
  · refine ⟨h.regions, h.counts, fun q hq => ?_⟩
    rcases List.mem_append.mp hq with hq | hq
    · exact h.indirect q hq
    · rw [List.mem_singleton.mp hq]
      exact he
  · split
    · refine ⟨?_, fun q hq => ?_, h.indirect⟩
      · exact names_modify (names_modify h.regions _ fun _ _ => he) _ fun _ hq => hq
      · rcases List.mem_append.mp hq with hq | hq
        · exact h.counts q hq
        · rw [List.mem_singleton.mp hq]
          exact he
    · exact h

theorem NamesOf.foldl_recordStep {selected counted : ProfileData → Bool} {m : RuntimeArrays} {es : List LogEntry}
    {l : RegionLists} (h : NamesOf P l) (hes : ∀ e ∈ es, P e.functionName) :
    NamesOf P (es.foldl (ZRay.recordStep selected counted m) l) := by
  induction es generalizing l with
  | nil => exact h
  | cons e es ih =>
    exact ih (h.recordStep (hes e List.mem_cons_self)) fun e' he' => hes e' (List.mem_cons_of_mem e he')

/-- The second pass names nothing. -/
theorem NamesOf.applyIndirectCounts (m : RuntimeArrays) {l : RegionLists} (h : NamesOf P l) :
    NamesOf P (applyIndirectCounts m l) := by
  have hinner : ∀ (r : UInt64) (ps : List (List UInt8 × ProfileData)) (l : RegionLists), NamesOf P l →
      NamesOf P (ps.foldl (indirectStep m r) l) := by
    intro r ps
    induction ps with
    | nil => exact fun l hl => hl
    | cons q ps ih => exact fun l hl => ih _ ⟨names_modify hl.regions _ fun _ hq => hq, hl.counts, hl.indirect⟩
  have houter : ∀ (js : List Nat) (l : RegionLists), NamesOf P l → NamesOf P (js.foldl (indirectRound m) l) := by
    intro js
    induction js with
    | nil => exact fun l hl => hl
    | cons j js ih => exact fun l hl => ih _ (hinner _ _ _ hl)
  exact houter _ l h

end names

theorem namesOf_fresh {P : List UInt8 → Prop} (h : P []) (n : Nat) : NamesOf P (RegionLists.fresh n) where
  regions := by
    intro q hq
    rw [(List.mem_replicate.mp hq).2]
    exact h
  counts := by simp [RegionLists.fresh]
  indirect := by simp [RegionLists.fresh]

/-- The rows of a call fit the column names. -/
theorem fitsHeader_callRows {y : CsvLayout} {header : List (List Char)} (h : y.Fits header) {es : List LogEntry}
    (hes : NamesClean es) (selected counted : ProfileData → Bool) (m : RuntimeArrays) (n : Nat) :
    ∀ row ∈ callRows y m (es.foldl (recordStep selected counted m) (RegionLists.fresh n)), FitsHeader header row := by
  have hnames : NamesOf (fun name => Csv.CleanField (bytesText name))
      (es.foldl (recordStep selected counted m) (RegionLists.fresh n)) :=
    (namesOf_fresh (by simp [bytesText, Csv.CleanField]) n).foldl_recordStep hes
  intro row hrow
  rw [callRows, applyIndirectCountsRows_eq] at hrow
  dsimp only at hrow
  rcases List.mem_append.mp hrow with hrow | hrow
  · rcases List.mem_append.mp hrow with hrow | hrow
    · obtain ⟨e, he, rfl⟩ := List.mem_map.mp hrow
      obtain ⟨prof, hprof, rfl⟩ := List.mem_map.mp he
      exact h.block _ (by simp) _ (hnames.counts prof hprof)
    · obtain ⟨e, he, rfl⟩ := List.mem_map.mp hrow
      obtain ⟨j, -, he⟩ := List.mem_flatMap.mp he
      obtain ⟨q, hq, rfl⟩ := List.mem_map.mp he
      exact h.block _ (by simp) _ (hnames.indirect q hq)
  · obtain ⟨q, hq, rfl⟩ := List.mem_map.mp hrow
    have hmem : q.1 ∈ (applyIndirectCounts m
        (es.foldl (recordStep selected counted m) (RegionLists.fresh n))).regionProfileList := by
      have hmap := List.mem_map_of_mem (f := Prod.fst) hq
      rwa [List.zipIdx_map_fst] at hmap
    exact h.region _ _ _ ((hnames.applyIndirectCounts m).regions q.1 hmem)

/-! ### The file -/

/-- `LogIteration` and what stands in the file. -/
structure CsvFile where
  logIteration : UInt64
  text : List Char
  deriving DecidableEq

/-- A call: at iteration 0 the file is truncated and gets the column names, then the rows are appended. -/
def CsvFile.write (header : List (List Char)) (rows : List (List (List Char))) (csv : CsvFile) : CsvFile where
  logIteration := csv.logIteration + 1
  text := (if csv.logIteration = 0 then Csv.line header else csv.text) ++ Csv.text rows

/-- The file after a call of a run: the column names and rows that fit them. -/
def CsvFile.Holds (header : List (List Char)) (rows : List (List (List Char))) (csv : CsvFile) : Prop :=
  csv.text = Csv.line header ++ Csv.text rows ∧ ∀ row ∈ rows, FitsHeader header row

theorem CsvFile.Holds.parse {header : List (List Char)} {rows : List (List (List Char))} {csv : CsvFile}
    (h : csv.Holds header rows) (hheader : Csv.CleanRow header) : Csv.parse csv.text = header :: rows := by
  have htext : Csv.line header ++ Csv.text rows = Csv.text (header :: rows) := by simp [Csv.text]
  rw [h.1, htext]
  refine Csv.parse_text fun row hrow => ?_
  rcases List.mem_cons.mp hrow with rfl | hrow
  · exact hheader
  · exact (h.2 row hrow).1

/-- A call leaves the rows of the run so far, or none when the iteration number is 0, and its own. -/
theorem CsvFile.Holds.write {header : List (List Char)} {rows : List (List (List Char))} {csv : CsvFile}
    (h : csv.logIteration = 0 ∨ csv.Holds header rows) {new : List (List (List Char))}
    (hnew : ∀ row ∈ new, FitsHeader header row) :
    (csv.write header new).Holds header ((if csv.logIteration = 0 then [] else rows) ++ new) := by
  unfold CsvFile.write
  by_cases hzero : csv.logIteration = 0
  · rw [if_pos hzero, if_pos hzero]
    exact ⟨rfl, hnew⟩
  · obtain ⟨htext, hold⟩ := h.resolve_left hzero
    rw [if_neg hzero, if_neg hzero]
    refine ⟨?_, fun row hrow => ?_⟩
    · dsimp only
      rw [htext, Csv.text_append, List.append_assoc]
    · rcases List.mem_append.mp hrow with hrow | hrow
      · exact hold row hrow
      · exact hnew row hrow

/-! ### Calls after each other -/

/-- A call, as far as its rows go: how they are laid out, the arrays, and the lists that `read_pd_sets` leaves. -/
structure CsvCall where
  layout : CsvLayout
  arrays : RuntimeArrays
  lists : RegionLists

def CsvCall.rows (call : CsvCall) : List (List (List Char)) := callRows call.layout call.arrays call.lists

/-- The lists when the call is over. -/
def CsvCall.applied (call : CsvCall) : RegionLists := applyIndirectCounts call.arrays call.lists

/-- What a column adds up for a region. -/
def RegionLists.column (l : RegionLists) (i : Nat) (c : CsvColumn) : UInt64 := (c.fields.map fun f => l.total i f).sum

/-- The rows of a call fit the column names, and in every column those of the counters come to those of the regions,
which say what the call computes. -/
structure CsvCall.Sums (counterDimension n : Nat) (header : List (List Char)) (columns : List CsvColumn)
    (call : CsvCall) : Prop where
  fits : ∀ row ∈ call.rows, FitsHeader header row
  region : ∀ iteration, ∀ i < n, ∀ c ∈ columns, regionSum iteration i c.region call.rows =
    if iteration = call.layout.iteration then call.applied.column i c else 0
  block : ∀ iteration, ∀ i < n, ∀ c ∈ columns, blockSum counterDimension iteration i c.block call.rows =
    if iteration = call.layout.iteration then call.applied.column i c else 0

theorem sums_callRows {y : CsvLayout} {columns : List CsvColumn} {header : List (List Char)} (hy : y.Sound columns)
    (hfits : y.Fits header) {selected : ProfileData → Bool} {m : RuntimeArrays} {es : List LogEntry} {n : Nat}
    (hnames : NamesClean es) (hrows : WithinRows selected m.counterDimension es n) (hn : n ≤ 2 ^ 64)
    (counted : ProfileData → Bool) :
    (CsvCall.mk y m (es.foldl (recordStep selected counted m) (RegionLists.fresh n))).Sums m.counterDimension.toNat n
      header columns where
  fits := fitsHeader_callRows hfits hnames selected counted m n
  region iteration _ hi _ hc := regionSum_callRows hy iteration hi hn hc
  block iteration _ hi _ hc := blockSum_callRows hy hrows iteration hi hc

/-- The file after some calls. -/
def CsvFile.writeAll (header : List (List Char)) (csv : CsvFile) (calls : List CsvCall) : CsvFile :=
  calls.foldl (fun csv call => csv.write header call.rows) csv

section run

variable {counterDimension n : Nat} {header : List (List Char)} {columns : List CsvColumn} {calls : List CsvCall}

theorem writeAll_concat (header : List (List Char)) (csv : CsvFile) (calls : List CsvCall) (call : CsvCall) :
    csv.writeAll header (calls ++ [call]) = (csv.writeAll header calls).write header call.rows := by
  rw [CsvFile.writeAll, List.foldl_append]
  rfl

theorem logIteration_writeAll (header : List (List Char)) (csv : CsvFile) (calls : List CsvCall) :
    (csv.writeAll header calls).logIteration = csv.logIteration + UInt64.ofNat calls.length := by
  induction calls using List.reverseRecOn with
  | nil => simp [CsvFile.writeAll]
  | append_singleton calls call ih =>
    rw [writeAll_concat, List.length_append, List.length_singleton, UInt64.ofNat_add, ← add_assoc, ← ih]
    rfl

/-- A run of calls from iteration 0 leaves the rows of all of them, as long as the iterations do not wrap around. -/
theorem holds_writeAll (h : ∀ call ∈ calls, call.Sums counterDimension n header columns) (hne : calls ≠ [])
    (hlen : calls.length ≤ 2 ^ 64) (old : List Char) :
    (CsvFile.writeAll header ⟨0, old⟩ calls).Holds header (calls.flatMap CsvCall.rows) := by
  induction calls using List.reverseRecOn with
  | nil => exact absurd rfl hne
  | append_singleton calls call ih =>
    have hnew := (h call (by simp)).fits
    have hlast : calls.length < 2 ^ 64 := by
      rw [List.length_append, List.length_singleton] at hlen
      omega
    have hiteration := logIteration_writeAll header ⟨0, old⟩ calls
    rw [zero_add] at hiteration
    rw [writeAll_concat, List.flatMap_append, List.flatMap_singleton]
    by_cases hnil : calls = []
    · subst hnil
      have hfirst : (CsvFile.mk 0 old).logIteration = 0 ∨ (CsvFile.mk 0 old).Holds header [] := .inl rfl
      exact CsvFile.Holds.write hfirst hnew
    · have hcalls := ih (fun c hc => h c (List.mem_append_left _ hc)) hnil (by omega)
      have hnonzero : (CsvFile.writeAll header ⟨0, old⟩ calls).logIteration ≠ 0 := by
        intro hzero
        rw [hiteration] at hzero
        have hnat := congrArg UInt64.toNat hzero
        rw [UInt64.toNat_ofNat_of_lt' hlast] at hnat
        exact hnil (List.eq_nil_of_length_eq_zero hnat)
      have hwrite := CsvFile.Holds.write (.inr hcalls) hnew
      rwa [if_neg hnonzero] at hwrite

/-- In the rows of a run, those of a region come to what the calls of the iteration computed. -/
theorem regionSum_flatMap (h : ∀ call ∈ calls, call.Sums counterDimension n header columns) (iteration : UInt64)
    {i : Nat} (hi : i < n) {c : CsvColumn} (hc : c ∈ columns) :
    regionSum iteration i c.region (calls.flatMap CsvCall.rows) =
      ((calls.filter fun call => iteration == call.layout.iteration).map fun call =>
        call.applied.column i c).sum := by
  induction calls with
  | nil => rfl
  | cons call calls ih =>
    have hrest := ih fun call' hcall' => h call' (List.mem_cons_of_mem call hcall')
    rw [List.flatMap_cons, regionSum_append, hrest, (h call List.mem_cons_self).region iteration i hi c hc,
      List.filter_cons]
    by_cases hkey : iteration = call.layout.iteration
    · simp [hkey]
    · simp [hkey]

/-- And so do those of the counters. -/
theorem blockSum_flatMap (h : ∀ call ∈ calls, call.Sums counterDimension n header columns) (iteration : UInt64)
    {i : Nat} (hi : i < n) {c : CsvColumn} (hc : c ∈ columns) :
    blockSum counterDimension iteration i c.block (calls.flatMap CsvCall.rows) =
      ((calls.filter fun call => iteration == call.layout.iteration).map fun call =>
        call.applied.column i c).sum := by
  induction calls with
  | nil => rfl
  | cons call calls ih =>
    have hrest := ih fun call' hcall' => h call' (List.mem_cons_of_mem call hcall')
    rw [List.flatMap_cons, blockSum_append, hrest, (h call List.mem_cons_self).block iteration i hi c hc,
      List.filter_cons]
    by_cases hkey : iteration = call.layout.iteration
    · simp [hkey]
    · simp [hkey]

end run

end ZRay
