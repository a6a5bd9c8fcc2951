import Mathlib.Data.List.Nodup

/-!
# Labels spread over a graph

Nodes are found in some order, each with a label, and the first label of a node stays (`addLabels`).  `spread` visits
the nodes in the order they were found, and each gives its label to its successors.  So a node of the start has the
label it was given first there (`lookup_spread_of_mem`, `lookup_addLabels`).
-/

namespace ZRay

variable {κ ℓ : Type*} [DecidableEq κ]

/-- A label for a node that has none yet. -/
def addLabel (map : List (κ × ℓ)) (entry : κ × ℓ) : List (κ × ℓ) :=
  if entry.1 ∈ map.map Prod.fst then map else map ++ [entry]

def addLabels (map entries : List (κ × ℓ)) : List (κ × ℓ) := entries.foldl addLabel map

/-- The nodes from position `i` of the list on are visited, at most `fuel` of them. -/
def spread (succ : κ → List κ) : Nat → Nat → List (κ × ℓ) → List (κ × ℓ)
  | 0, _, map => map
  | fuel + 1, i, map =>
    match map[i]? with
    | none => map
    | some (k, label) => spread succ fuel (i + 1) (addLabels map ((succ k).map (·, label)))

@[simp] theorem addLabels_nil (map : List (κ × ℓ)) : addLabels map [] = map := rfl

theorem addLabels_append (map entries entries' : List (κ × ℓ)) :
    addLabels map (entries ++ entries') = addLabels (addLabels map entries) entries' :=
  List.foldl_append

theorem addLabels_singleton_of_mem {map : List (κ × ℓ)} {k : κ} (label : ℓ) (hk : k ∈ map.map Prod.fst) :
    addLabels map [(k, label)] = map := if_pos hk

theorem addLabels_singleton_of_notMem {map : List (κ × ℓ)} {k : κ} (label : ℓ) (hk : k ∉ map.map Prod.fst) :
    addLabels map [(k, label)] = map ++ [(k, label)] := if_neg hk

theorem mem_keys_addLabels (map entries : List (κ × ℓ)) (k : κ) :
    k ∈ (addLabels map entries).map Prod.fst ↔ k ∈ map.map Prod.fst ∨ k ∈ entries.map Prod.fst := by
  induction entries generalizing map with
  | nil => simp
  | cons e entries ih =>
    have hstep : k ∈ (addLabel map e).map Prod.fst ↔ k ∈ map.map Prod.fst ∨ k = e.1 := by
      unfold addLabel
      split
      · rename_i hmem
        exact ⟨.inl, fun h => h.elim id fun heq => heq ▸ hmem⟩
      · simp
    show k ∈ (addLabels (addLabel map e) entries).map Prod.fst ↔ _
    rw [ih, hstep, or_assoc, List.map_cons, List.mem_cons]

/-- Nodes that all have a label get no other. -/
theorem addLabels_eq_self {map entries : List (κ × ℓ)} (h : ∀ e ∈ entries, e.1 ∈ map.map Prod.fst) :
    addLabels map entries = map := by
  induction entries with
  | nil => rfl
  | cons e entries ih =>
    have he : addLabel map e = map := if_pos (h e List.mem_cons_self)
    show addLabels (addLabel map e) entries = map
    rw [he]
    exact ih fun e' he' => h e' (List.mem_cons_of_mem e he')

theorem exists_lookup_eq_some {map : List (κ × ℓ)} {k : κ} (hk : k ∈ map.map Prod.fst) :
    ∃ label, map.lookup k = some label := by
  obtain ⟨e, he, hkey⟩ := List.mem_map.mp hk
  refine Option.isSome_iff_exists.mp ?_
  rw [List.lookup_isSome_iff]
  exact ⟨e, he, by simp [hkey]⟩

/-- With one entry for each node, an entry has the label of its node. -/
theorem lookup_of_mem {map : List (κ × ℓ)} (hnodup : (map.map Prod.fst).Nodup) {entry : κ × ℓ} (h : entry ∈ map) :
    map.lookup entry.1 = some entry.2 := by
  obtain ⟨above, below, rfl⟩ := List.append_of_mem h
  rw [List.map_append, List.map_cons, List.nodup_append'] at hnodup
  refine List.lookup_eq_some_iff.mpr ⟨above, below, rfl, fun e he => ?_⟩
  have hne : entry.1 ≠ e.1 := fun heq =>
    hnodup.2.2 (List.mem_map_of_mem he) (heq ▸ List.mem_cons_self)
  simpa using hne

/-- The first entry of a node counts. -/
theorem lookup_addLabels (map entries : List (κ × ℓ)) (k : κ) :
    (addLabels map entries).lookup k = (map ++ entries).lookup k := by
  induction entries generalizing map with
  | nil => rw [addLabels_nil, List.append_nil]
  | cons e entries ih =>
    show (addLabels (addLabel map e) entries).lookup k = _
    rw [ih]
    unfold addLabel
    split
    · rename_i hmem
      -- the entry left out is no first one
      obtain ⟨label, hlabel⟩ := exists_lookup_eq_some hmem
      rw [List.lookup_append, List.lookup_append]
      by_cases hk : k = e.1
      · rw [hk, hlabel, Option.some_or, Option.some_or]
      · have hne : (k == e.1) = false := by simpa using hk
        rw [List.lookup_cons, hne]
    · rw [List.append_assoc, List.singleton_append]

/-! ### Spreading -/

theorem spread_of_none (succ : κ → List κ) (fuel : Nat) {i : Nat} {map : List (κ × ℓ)} (h : map[i]? = none) :
    spread succ fuel i map = map := by
  cases fuel with
  | zero => rfl
  | succ fuel => rw [spread, h]

theorem spread_of_some (succ : κ → List κ) (fuel : Nat) {i : Nat} {map : List (κ × ℓ)} {k : κ} {label : ℓ}
    (h : map[i]? = some (k, label)) :
    spread succ (fuel + 1) i map = spread succ fuel (i + 1) (addLabels map ((succ k).map (·, label))) := by
  rw [spread, h]

theorem lookup_spread_of_mem (succ : κ → List κ) (fuel i : Nat) {map : List (κ × ℓ)} {k : κ}
    (hk : k ∈ map.map Prod.fst) : (spread succ fuel i map).lookup k = map.lookup k := by
  induction fuel generalizing i map with
  | zero => rfl
  | succ fuel ih =>
    cases hentry : map[i]? with
    | none => rw [spread_of_none succ _ hentry]
    | some entry =>
      obtain ⟨label, hlabel⟩ := exists_lookup_eq_some hk
      rw [spread_of_some succ fuel hentry, ih _ ((mem_keys_addLabels _ _ k).mpr (.inl hk)), lookup_addLabels,
        List.lookup_append, hlabel, Option.some_or]

end ZRay
