import ZRay.Log.DamagedLog
import ZRay.Log.RegionTotals

/-!
# The two readers of a region log

The runtime and `post_process` have a copy each of `read_pd_sets` and `apply_indirect_counts`.  The copy in
`post_process` leaves the counter of set 0 of a region out of the region's counts; in the runtime that condition is
commented out.  So with the same log and the same arrays all lists come out alike, and the counts of a region differ
by the counters of its direct records of set 0 (`readersAgree_iff`).
-/

namespace ZRay

open ByteStream

/-! ### Counts that are ahead -/

/-- What a direct record of set 0 adds to the counts of a region. -/
def RuntimeArrays.firstSetVisits (m : RuntimeArrays) (e : LogEntry) (r : Nat) : UInt64 :=
  if e.directOf (fun _ => true) r && e.inProfile.postDomSetID == 0 then
    m.counterArray (m.index e.inProfile.postDomSetID e.inProfile.pragmaRegionID)
  else 0

/-- Two states of the lists that differ in the names of indirect records, and in the counts of the regions
by the given amounts. -/
structure CountsAhead (n : Nat) (d : Nat → UInt64) (l l' : RegionLists) : Prop where
  regionProfileList : l.regionProfileList = l'.regionProfileList
  counts : l.counts = l'.counts
  indirectProfiles : l.indirectProfiles.map Prod.snd = l'.indirectProfiles.map Prod.snd
  length : l.regionProfileCounts.length = n
  length' : l'.regionProfileCounts.length = n
  ahead : ∀ i < n, l.regionProfileCounts.getD i 0 = l'.regionProfileCounts.getD i 0 + d i

/-- Records that the loop treats alike: the name of an indirect one is only stored. -/
structure SameRecord (e e' : LogEntry) : Prop where
  inProfile : e.inProfile = e'.inProfile
  functionName : e.inProfile.isIndirect = true ∨ e.functionName = e'.functionName

theorem SameRecord.refl (e : LogEntry) : SameRecord e e := ⟨rfl, Or.inr rfl⟩

theorem length_addCount (l : List UInt64) (r c : UInt64) : (addCount l r c).length = l.length := by
  simp [addCount]

theorem getD_addCount (l : List UInt64) (r c : UInt64) {i : Nat} (hi : i < l.length) :
    (addCount l r c).getD i 0 = l.getD i 0 + if r.toNat = i then c else 0 := by
  rw [addCount, getD_modify _ _ _ _ hi]
  split
  · rfl
  · rw [add_zero]

namespace CountsAhead

variable {n : Nat} {d : Nat → UInt64} {m : RuntimeArrays} {l l' : RegionLists}

theorem fresh (n : Nat) : CountsAhead n (fun _ => 0) (RegionLists.fresh n) (RegionLists.fresh n) where
  regionProfileList := rfl
  counts := rfl
  indirectProfiles := rfl
  length := List.length_replicate
  length' := List.length_replicate
  ahead := fun _ _ => (add_zero _).symm

theorem recordStep (h : CountsAhead n d l l') {e e' : LogEntry} (he : SameRecord e e') :
    CountsAhead n (fun i => d i + m.firstSetVisits e i) (recordStep (fun _ => true) (fun _ => true) m l e)
      (recordStep (fun _ => true) (fun p => p.postDomSetID != 0) m l' e') := by
  obtain ⟨p, inCheck, check, name⟩ := e
  obtain ⟨p', inCheck', check', name'⟩ := e'
  obtain rfl : p = p' := he.inProfile
  cases hind : p.isIndirect with
  | true =>
    have hzero : ∀ i, m.firstSetVisits ⟨p, inCheck, check, name⟩ i = 0 := by
      intro i
      simp [RuntimeArrays.firstSetVisits, LogEntry.directOf, LogEntry.direct, hind]
    simp only [ZRay.recordStep, hind, ↓reduceIte, hzero, add_zero]
    exact { h with
      indirectProfiles := by simp [h.indirectProfiles] }
  | false =>
    obtain rfl : name = name' := he.functionName.resolve_left (by simp [hind])
    simp only [ZRay.recordStep, hind, ↓reduceIte, Bool.false_eq_true]
    refine ⟨by rw [h.regionProfileList], by rw [h.counts], h.indirectProfiles, ?_, ?_, ?_⟩
    · rw [length_addCount, h.length]
    · split
      · rw [length_addCount, h.length']
      · exact h.length'
    · intro i hi
      have hrow : (m.applyArrays p (m.index p.postDomSetID p.pragmaRegionID)).pragmaRegionID = p.pragmaRegionID := rfl
      have hset : (m.applyArrays p (m.index p.postDomSetID p.pragmaRegionID)).postDomSetID = p.postDomSetID := rfl
      dsimp only
      rw [hrow, hset, getD_addCount _ _ _ (by rw [h.length]; exact hi), h.ahead i hi]
      by_cases hfirst : p.postDomSetID = 0
      · -- only the runtime counts the record
        simp [RuntimeArrays.firstSetVisits, LogEntry.directOf, LogEntry.direct, hind, hfirst, add_assoc]
      · have hcounted : (p.postDomSetID != 0) = true := by simpa using hfirst
        rw [if_pos hcounted, getD_addCount _ _ _ (by rw [h.length']; exact hi)]
        simp [RuntimeArrays.firstSetVisits, hfirst, add_right_comm]

/-- The first pass, over records that are treated alike. -/
theorem foldl_recordStep (h : CountsAhead n d l l') {es es' : List LogEntry} (hes : List.Forall₂ SameRecord es es') :
    CountsAhead n (fun i => d i + (es.map fun e => m.firstSetVisits e i).sum)
      (es.foldl (ZRay.recordStep (fun _ => true) (fun _ => true) m) l)
      (es'.foldl (ZRay.recordStep (fun _ => true) (fun p => p.postDomSetID != 0) m) l') := by
  induction hes generalizing d l l' with
  | nil => simpa using h
  | cons he hes ih =>
    have hstep := ih (h.recordStep (m := m) he)
    simpa only [List.map_cons, List.sum_cons, List.foldl_cons, add_assoc] using hstep

theorem indirectStep (h : CountsAhead n d l l') (r : UInt64) {q q' : List UInt8 × ProfileData} (hq : q.2 = q'.2) :
    CountsAhead n d (indirectStep m r l q) (indirectStep m r l' q') where
  regionProfileList := by
    simp only [ZRay.indirectStep, hq, h.regionProfileList]
  counts := h.counts
  indirectProfiles := h.indirectProfiles
  length := by
    rw [← h.length]
    exact length_addCount _ _ _
  length' := by
    rw [← h.length']
    exact length_addCount _ _ _
  ahead := by
    intro i hi
    simp only [ZRay.indirectStep, hq]
    rw [getD_addCount _ _ _ (by rw [h.length]; exact hi), getD_addCount _ _ _ (by rw [h.length']; exact hi),
      h.ahead i hi, add_right_comm]

theorem foldl_indirectStep (h : CountsAhead n d l l') (r : UInt64) {qs qs' : List (List UInt8 × ProfileData)}
    (hqs : qs.map Prod.snd = qs'.map Prod.snd) :
    CountsAhead n d (qs.foldl (ZRay.indirectStep m r) l) (qs'.foldl (ZRay.indirectStep m r) l') := by
  induction qs generalizing qs' l l' with
  | nil =>
    obtain rfl : qs' = [] := by simpa using hqs.symm
    exact h
  | cons q qs ih =>
    cases qs' with
    | nil => simp at hqs
    | cons q' qs' =>
      rw [List.map_cons, List.map_cons, List.cons.injEq] at hqs
      exact ih (h.indirectStep r hqs.1) hqs.2

/-- The second pass adds the same to both. -/
theorem applyIndirectCounts (h : CountsAhead n d l l') :
    CountsAhead n d (applyIndirectCounts m l) (applyIndirectCounts m l') := by
  rw [ZRay.applyIndirectCounts, ZRay.applyIndirectCounts, h.regionProfileList]
  refine List.foldl_rel h ?_
  intro i _ c c' hc
  rw [hc.regionProfileList]
  exact hc.foldl_indirectStep _ hc.indirectProfiles

/-- The counts are alike when they are not ahead. -/
theorem regionProfileCounts_eq_iff (h : CountsAhead n d l l') :
    l.regionProfileCounts = l'.regionProfileCounts ↔ ∀ i < n, d i = 0 := by
  constructor
  · intro heq i hi
    have hahead := h.ahead i hi
    rwa [heq, left_eq_add] at hahead
  · intro hzero
    refine List.ext_getElem (h.length.trans h.length'.symm) ?_
    intro i hi hi'
    have hin : i < n := by rwa [h.length] at hi
    have hahead := h.ahead i hin
    rwa [hzero i hin, add_zero, List.getD_eq_getElem _ _ hi, List.getD_eq_getElem _ _ hi'] at hahead

end CountsAhead

/-! ### What the variables held at first -/

section

variable {logFile : List UInt8}

/-- A log in which the first record goes up to its name is read alike, whatever the variables held. -/
theorem readRecord_congr (maxSize : UInt64) (hlong : 228 ≤ logFile.length) (v v' : LogVars) :
    readRecord maxSize (ofBytes logFile) v = readRecord maxSize (ofBytes logFile) v' := by
  have hsize : 216 ≤ logFile.length := by omega
  have hhead := read_profile hsize
  have hd := drained_ofBytes (logFile.drop 216)
  have hcheck : (ofBytes (logFile.drop 216)).read v.inCheck = (ofBytes (logFile.drop 216)).read v'.inCheck := by
    refine read_congr (v.length_inCheck.trans v'.length_inCheck.symm) rfl ?_
    rw [v.length_inCheck, ofBytes, List.length_drop]
    omega
  have hfail : ((ofBytes (logFile.drop 216)).read v'.inCheck).1.fail = false := by
    rw [fail_read, v'.length_inCheck]
    simp only [ofBytes, List.length_drop, Bool.false_or, decide_eq_false_iff_not]
    omega
  have hlen : ((ofBytes (logFile.drop 216)).read v'.inCheck).1.read v.functionNameLen =
      ((ofBytes (logFile.drop 216)).read v'.inCheck).1.read v'.functionNameLen := by
    refine read_congr (v.length_functionNameLen.trans v'.length_functionNameLen.symm) hfail ?_
    rw [v.length_functionNameLen, rest_read hd, v'.length_inCheck]
    simp only [ofBytes, List.length_drop]
    omega
  unfold readRecord
  simp only [hhead, hcheck, hlen]

theorem readRecords_congr (maxSize : UInt64) (hcut : ¬ (216 ≤ logFile.length ∧ logFile.length < 228))
    (v v' : LogVars) :
    readRecords maxSize (ofBytes logFile) v = readRecords maxSize (ofBytes logFile) v' := by
  by_cases hsize : 216 ≤ logFile.length
  · have hlong : 228 ≤ logFile.length := by omega
    have hcongr := readRecord_congr maxSize hlong v v'
    rw [readRecords, readRecords]
    cases h : readRecord maxSize (ofBytes logFile) v with
    | done s => rw [readLoop_of_done _ _ h, readLoop_of_done _ _ (hcongr.symm.trans h)]
    | lengthError => rw [readLoop_of_lengthError _ _ h, readLoop_of_lengthError _ _ (hcongr.symm.trans h)]
    | record e s w => rw [readLoop_of_record _ _ h, readLoop_of_record _ _ (hcongr.symm.trans h)]
  · have hlt : logFile.length < 216 := by omega
    rw [readRecords, readRecords, readLoop_of_lt _ _ v hlt, readLoop_of_lt _ _ v' hlt]

end

/-! ### The outputs -/

/-- What a program has at the end: `RegionProfileList`, `Counts` and `RegionProfileCounts`. -/
def RegionLists.totals (l : RegionLists) :
    List (List UInt8 × ProfileData) × List (List UInt8 × ProfileData) × List UInt64 :=
  (l.regionProfileList, l.counts, l.regionProfileCounts)

section

variable (maxSize : UInt64) (m : RuntimeArrays) (logFile : List UInt8)

/-- The runtime, without a group filter, and `post_process` come to the same.  `v` and `v'` are what the variables of
their loops hold at first. -/
def ReadersAgree (v v' : LogVars) (n : Nat) : Prop :=
  (zrayFinalize maxSize 0 m logFile v n).map RegionLists.totals =
    (PostProcess.zrayFinalize maxSize m logFile v' n).map RegionLists.totals

/-- When the log ends within the name length of its first record, both programs fill it up alike, as far as they store
the name or give up. -/
def NamesAgree (v v' : LogVars) : Prop :=
  216 ≤ logFile.length → logFile.length < 228 →
    (maxSize < nameLenRead logFile v ∧ maxSize < nameLenRead logFile v') ∨
      nameLenRead logFile v ≤ maxSize ∧ nameLenRead logFile v' ≤ maxSize ∧
        ((ProfileData.ofBytes (logFile.take 216)).isIndirect = true ∨ nameLenRead logFile v = nameLenRead logFile v')

/-- The counters of the direct records of set 0 add up to zero in each region. -/
def FirstSetsUnvisited (v : LogVars) (n : Nat) : Prop :=
  ∀ es s, readRecords maxSize (ofBytes logFile) v = some (es, s) →
    ∀ r < n, (es.map fun e => m.firstSetVisits e r).sum = 0

theorem groupSelected_zero : groupSelected 0 = fun _ => true := by
  funext p
  simp [groupSelected]

/-- The lists of the runtime. -/
def runtimeLists (n : Nat) (es : List LogEntry) : RegionLists :=
  applyIndirectCounts m (es.foldl (recordStep (fun _ => true) (fun _ => true) m) (RegionLists.fresh n))

/-- The lists of `post_process`. -/
def postProcessLists (n : Nat) (es : List LogEntry) : RegionLists :=
  applyIndirectCounts m (es.foldl (recordStep (fun _ => true) (fun p => p.postDomSetID != 0) m) (RegionLists.fresh n))

theorem zrayFinalize_eq (v : LogVars) (n : Nat) :
    zrayFinalize maxSize 0 m logFile v n =
      (readRecords maxSize (ofBytes logFile) v).map fun r => runtimeLists m n r.1 := by
  rw [zrayFinalize, readPdSets, groupSelected_zero, readLoop_eq, Option.map_map, Option.map_map]
  rfl

theorem postProcess_zrayFinalize_eq (v : LogVars) (n : Nat) :
    PostProcess.zrayFinalize maxSize m logFile v n =
      (readRecords maxSize (ofBytes logFile) v).map fun r => postProcessLists m n r.1 := by
  rw [PostProcess.zrayFinalize, PostProcess.readPdSets, readLoop_eq, Option.map_map, Option.map_map]
  rfl

variable {m}

theorem totals_eq_iff {n : Nat} {es es' : List LogEntry} (hes : List.Forall₂ SameRecord es es') :
    (runtimeLists m n es).totals = (postProcessLists m n es').totals ↔
      ∀ r < n, (es.map fun e => m.firstSetVisits e r).sum = 0 := by
  have hahead := ((CountsAhead.fresh n).foldl_recordStep (m := m) hes).applyIndirectCounts (m := m)
  simp only [zero_add] at hahead
  rw [← hahead.regionProfileCounts_eq_iff, RegionLists.totals, RegionLists.totals, Prod.mk.injEq, Prod.mk.injEq]
  exact ⟨fun h => h.2.2, fun h => ⟨hahead.regionProfileList, hahead.counts, h⟩⟩

end

/-! ### When the readers agree -/

section

variable {maxSize : UInt64} {m : RuntimeArrays} {logFile : List UInt8} {v v' : LogVars} {n : Nat}

theorem readersAgree_of_records {es es' : List LogEntry} {s s' : ByteStream}
    (h : readRecords maxSize (ofBytes logFile) v = some (es, s))
    (h' : readRecords maxSize (ofBytes logFile) v' = some (es', s')) (hes : List.Forall₂ SameRecord es es') :
    ReadersAgree maxSize m logFile v v' n ↔ FirstSetsUnvisited maxSize m logFile v n := by
  rw [ReadersAgree, zrayFinalize_eq, postProcess_zrayFinalize_eq, h, h', Option.map_some, Option.map_some,
    Option.map_some, Option.map_some, Option.some_inj, totals_eq_iff hes]
  constructor
  · intro hzero es₂ s₂ h₂
    obtain ⟨rfl, rfl⟩ : es = es₂ ∧ s = s₂ := by simpa [h] using h₂
    exact hzero
  · intro hzero
    exact hzero es s h

theorem readersAgree_of_unreadable (h : readRecords maxSize (ofBytes logFile) v = none)
    (h' : readRecords maxSize (ofBytes logFile) v' = none) :
    ReadersAgree maxSize m logFile v v' n ↔ FirstSetsUnvisited maxSize m logFile v n := by
  rw [ReadersAgree, zrayFinalize_eq, postProcess_zrayFinalize_eq, h, h']
  simp [FirstSetsUnvisited, h]

/-- Readers that agree both get to the end of the log, or both give up. -/
theorem ReadersAgree.isSome_eq (h : ReadersAgree maxSize m logFile v v' n) :
    (readRecords maxSize (ofBytes logFile) v).isSome = (readRecords maxSize (ofBytes logFile) v').isSome := by
  rw [ReadersAgree, zrayFinalize_eq, postProcess_zrayFinalize_eq] at h
  simpa using congrArg Option.isSome h

theorem counts_applyIndirectCounts (m : RuntimeArrays) (l : RegionLists) :
    (applyIndirectCounts m l).counts = l.counts := by
  have hinner : ∀ r (qs : List (List UInt8 × ProfileData)) (l : RegionLists),
      (qs.foldl (indirectStep m r) l).counts = l.counts := by
    intro r qs
    induction qs with
    | nil => exact fun _ => rfl
    | cons q qs ih => exact fun l => ih _
  have houter : ∀ (is : List Nat) (l₀ : RegionLists), l₀.counts = l.counts →
      (is.foldl (indirectRound m) l₀).counts = l.counts := by
    intro is
    induction is with
    | nil => exact fun _ h => h
    | cons i is ih => exact fun l₀ h => ih _ ((hinner _ _ _).trans h)
  exact houter _ l rfl

/-- A log that ends within the name length of its first record is that record, or `std::length_error`. -/
theorem readRecords_of_cut (maxSize : UInt64) (hsize : 216 ≤ logFile.length) (hcut : logFile.length < 228)
    (v : LogVars) :
    (maxSize < nameLenRead logFile v ∧ readRecords maxSize (ofBytes logFile) v = none) ∨
      nameLenRead logFile v ≤ maxSize ∧ ∃ inCheck check, readRecords maxSize (ofBytes logFile) v =
        some ([⟨ProfileData.ofBytes (logFile.take 216), inCheck, check,
          List.replicate (nameLenRead logFile v).toNat 0⟩], ⟨[], true⟩) := by
  rcases UInt64.le_or_lt (nameLenRead logFile v) maxSize with hle | hgt
  · obtain ⟨inCheck, hread⟩ := readLoop_of_short (fun es e => es ++ [e]) [] v hsize hle (by omega)
    have hname : nameRead logFile v = List.replicate (nameLenRead logFile v).toNat 0 := by
      rw [nameRead, List.drop_eq_nil_of_le (by omega), List.take_nil, List.nil_append,
        show logFile.length - 228 = 0 by omega, Nat.sub_zero]
    rw [hname] at hread
    exact Or.inr ⟨hle, inCheck, _, hread⟩
  · exact Or.inl ⟨hgt, readLoop_of_lengthError _ _ (readRecord_of_nameLen_gt v hsize hgt)⟩

/-- Two programs that read a direct record with different names differ in `Counts`. -/
theorem not_readersAgree_of_names {e e' : LogEntry} {s s' : ByteStream}
    (h : readRecords maxSize (ofBytes logFile) v = some ([e], s))
    (h' : readRecords maxSize (ofBytes logFile) v' = some ([e'], s')) (hdirect : e.inProfile.isIndirect = false)
    (hprofile : e.inProfile = e'.inProfile) (hname : e.functionName ≠ e'.functionName) :
    ¬ ReadersAgree maxSize m logFile v v' n := by
  rw [ReadersAgree, zrayFinalize_eq, postProcess_zrayFinalize_eq, h, h']
  intro hagree
  have hcounts : (runtimeLists m n [e]).counts = (postProcessLists m n [e']).counts :=
    congrArg (fun t => t.2.1) (Option.some.inj hagree)
  rw [runtimeLists, postProcessLists, counts_applyIndirectCounts, counts_applyIndirectCounts] at hcounts
  have hdirect' : e'.inProfile.isIndirect = false := hprofile ▸ hdirect
  simp only [List.foldl_cons, List.foldl_nil, recordStep, hdirect, hdirect', Bool.false_eq_true,
    ↓reduceIte] at hcounts
  have hpair := List.append_cancel_left hcounts
  exact hname (congrArg Prod.fst (List.singleton_inj.mp hpair))

/-- The readers agree exactly when the log can be read alike by both and the first sets of the regions were not
visited. -/
theorem readersAgree_iff (maxSize : UInt64) (m : RuntimeArrays) (logFile : List UInt8) (v v' : LogVars) (n : Nat) :
    ReadersAgree maxSize m logFile v v' n ↔
      NamesAgree maxSize logFile v v' ∧ FirstSetsUnvisited maxSize m logFile v n := by
  by_cases hcut : 216 ≤ logFile.length ∧ logFile.length < 228
  · obtain ⟨hsize, hshort⟩ := hcut
    rw [NamesAgree, forall_prop_of_true hsize, forall_prop_of_true hshort]
    rcases readRecords_of_cut maxSize hsize hshort v with ⟨hgt, hread⟩ | ⟨hle, inCheck, check, hread⟩ <;>
      rcases readRecords_of_cut maxSize hsize hshort v' with
        ⟨hgt', hread'⟩ | ⟨hle', inCheck', check', hread'⟩
    · simp [readersAgree_of_unreadable hread hread', hgt, hgt']
    · have hne : ¬ ReadersAgree maxSize m logFile v v' n := fun h => by
        simpa [hread, hread'] using h.isSome_eq
      simp [hne, UInt64.not_lt.mpr hle', UInt64.not_le.mpr hgt]
    · have hne : ¬ ReadersAgree maxSize m logFile v v' n := fun h => by
        simpa [hread, hread'] using h.isSome_eq
      simp [hne, UInt64.not_lt.mpr hle, UInt64.not_le.mpr hgt']
    · by_cases hnames : (ProfileData.ofBytes (logFile.take 216)).isIndirect = true ∨
          nameLenRead logFile v = nameLenRead logFile v'
      · have hsame : List.Forall₂ SameRecord
            [⟨ProfileData.ofBytes (logFile.take 216), inCheck, check, List.replicate (nameLenRead logFile v).toNat 0⟩]
            [⟨ProfileData.ofBytes (logFile.take 216), inCheck', check',
              List.replicate (nameLenRead logFile v').toNat 0⟩] :=
          .cons ⟨rfl, hnames.imp_right fun h => by rw [h]⟩ .nil
        simp [readersAgree_of_records hread hread' hsame, hle, hle', hnames]
      · rw [not_or] at hnames
        have hlength : List.replicate (nameLenRead logFile v).toNat (0 : UInt8) ≠
            List.replicate (nameLenRead logFile v').toNat 0 := by
          intro h
          have hlen := congrArg List.length h
          rw [List.length_replicate, List.length_replicate] at hlen
          exact hnames.2 (UInt64.toNat_inj.mp hlen)
        have hne := not_readersAgree_of_names (m := m) (n := n) hread hread' (by simpa using hnames.1) rfl hlength
        simp [hne, hnames.1, hnames.2, UInt64.not_lt.mpr hle]
  · have hnames : NamesAgree maxSize logFile v v' := fun hsize hshort => absurd ⟨hsize, hshort⟩ hcut
    have hcongr := readRecords_congr maxSize hcut v v'
    cases hread : readRecords maxSize (ofBytes logFile) v with
    | none => simp [readersAgree_of_unreadable hread (hcongr.symm.trans hread), hnames]
    | some r =>
      have hsame : List.Forall₂ SameRecord r.1 r.1 := List.forall₂_same.mpr fun e _ => SameRecord.refl e
      simp [readersAgree_of_records hread (hcongr.symm.trans hread) hsame, hnames]

end

/-- The counter at the start of a region, in a log of its own. -/
def firstSetEvents : List (CounterEvent × LogRecord 0) :=
  [(.insertCustomEvent, ⟨{ postDomSetID := 0 }, Vector.replicate 6 0, [], by decide⟩)]

/-- The region's first block ran once: the runtime counts the visit, `post_process` does not. -/
theorem not_readersAgree_firstSet :
    ¬ ReadersAgree 0 ⟨1, fun _ => 1, fun _ => 0, fun _ => 0⟩ (writtenLog firstSetEvents) clearedVars
      clearedVars 1 := by
  have hread := readRecords_writtenLog firstSetEvents clearedVars
  have hsame : List.Forall₂ SameRecord (firstSetEvents.map fun e => e.2.entry)
      (firstSetEvents.map fun e => e.2.entry) := List.forall₂_same.mpr fun e _ => SameRecord.refl e
  rw [readersAgree_of_records hread hread hsame]
  intro hzero
  have hsum := hzero _ _ hread 0 Nat.one_pos
  exact absurd hsum (by decide)

end ZRay
