import Mathlib.Data.List.Perm.Basic

/-!
# Post-dominator sets

`createPostDomSets` partitions a pool of blocks: the first block left is the anchor, and it takes every later block
that it dominates and that post-dominates it.  A set's counter increment is placed at its anchor.  The key facts:
the sets hold the pool's blocks, each once (`flatten_createPostDomSets_perm`), and a block shares a set only with
an anchor it is control equivalent to (`controlEquivalent_of_mem_createPostDomSets`).
-/

namespace ZRay.Pass

variable {β : Type*}

/-- The answers of the two dominator trees: `PostDomTree->dominates` and `PreDomTree->dominates`. -/
structure DominatorTrees (β : Type*) where
  postDominates : β → β → Bool
  dominates : β → β → Bool

/-- The switches of the pass the instrumentation reads. -/
structure PassOptions where
  applyPostDomSets : Bool := true
  applyLoopHoisting : Bool := true
  applyFunctionCloning : Bool := true

/-- A counter the pass inserts, with the blocks it records.  A post-dominator set is incremented at its first
block; the other two on the edge into the loop header. -/
inductive Counter (β : Type*) where
  | postDomSet (blocks : List β)
  | scaleFactorSet (header : β) (headerPDBlocks : List (List β × Nat))
  | dynamicLoop (header : β) (blocks : List β)
  deriving DecidableEq, Repr

/-- The blocks whose instructions are recorded in the counter's profile. -/
def Counter.blocks : Counter β → List β
  | .postDomSet blocks => blocks
  | .scaleFactorSet _ pairs => pairs.flatMap Prod.fst
  | .dynamicLoop _ blocks => blocks

@[simp] theorem Counter.blocks_postDomSet (bs : List β) : (Counter.postDomSet bs).blocks = bs := rfl

@[simp] theorem Counter.blocks_scaleFactorSet (h : β) (ps : List (List β × Nat)) :
    (Counter.scaleFactorSet h ps).blocks = ps.flatMap Prod.fst := rfl

@[simp] theorem Counter.blocks_dynamicLoop (h : β) (bs : List β) : (Counter.dynamicLoop h bs).blocks = bs := rfl

/-- Does the anchor `b` take the block `x` into its set? -/
def controlEquivalent (opts : PassOptions) (trees : DominatorTrees β) (b x : β) : Bool :=
  opts.applyPostDomSets && trees.postDominates x b && trees.dominates b x

/-- The loop of `createPostDomSets`, for at most `fuel` anchors. -/
def createPostDomSetsLoop (opts : PassOptions) (trees : DominatorTrees β) : Nat → List β → List (List β)
  | 0, _ => []
  | _, [] => []
  | fuel + 1, b :: npd =>
    (b :: npd.filter (controlEquivalent opts trees b)) ::
      createPostDomSetsLoop opts trees fuel (npd.filter fun x => !controlEquivalent opts trees b x)

/-- The sets of basic blocks to associate with a profile event.  Every anchor leaves the pool, so the pool's
length bounds the number of anchors. -/
def createPostDomSets (opts : PassOptions) (trees : DominatorTrees β) (npd : List β) : List (List β) :=
  createPostDomSetsLoop opts trees npd.length npd

def instrumentPostDomSet (opts : PassOptions) (trees : DominatorTrees β) (npd : List β) : List (Counter β) :=
  (createPostDomSets opts trees npd).map .postDomSet

variable {opts : PassOptions} {trees : DominatorTrees β}

/-- More fuel than blocks changes nothing. -/
private theorem createPostDomSetsLoop_fuel {m n : Nat} {npd : List β} (hm : npd.length ≤ m) (hn : npd.length ≤ n) :
    createPostDomSetsLoop opts trees m npd = createPostDomSetsLoop opts trees n npd := by
  induction m generalizing n npd with
  | zero =>
    have hnil : npd = [] := List.length_eq_zero_iff.mp (by omega)
    subst hnil
    cases n <;> rfl
  | succ m ih =>
    cases npd with
    | nil => cases n <;> rfl
    | cons b npd =>
      cases n with
      | zero => simp at hn
      | succ n =>
        have hlen : (npd.filter fun x => !controlEquivalent opts trees b x).length ≤ npd.length :=
          List.length_filter_le _ _
        simp only [List.length_cons] at hm hn
        simp only [createPostDomSetsLoop]
        rw [ih (n := n) (by omega) (by omega)]

@[simp] theorem createPostDomSets_nil : createPostDomSets opts trees ([] : List β) = [] := rfl

/-- One round of the loop: the anchor, the blocks it takes, and the sets of the rest. -/
theorem createPostDomSets_cons (b : β) (npd : List β) :
    createPostDomSets opts trees (b :: npd) =
      (b :: npd.filter (controlEquivalent opts trees b)) ::
        createPostDomSets opts trees (npd.filter fun x => !controlEquivalent opts trees b x) := by
  unfold createPostDomSets
  simp only [List.length_cons, createPostDomSetsLoop]
  rw [createPostDomSetsLoop_fuel (List.length_filter_le _ _) (Nat.le_refl _)]

variable (opts trees) in
/-- Induction along the rounds of the loop. -/
theorem createPostDomSets_induction {P : List β → Prop} (nil : P [])
    (round : ∀ b npd, P (npd.filter fun x => !controlEquivalent opts trees b x) → P (b :: npd)) (npd : List β) :
    P npd := by
  induction hn : npd.length using Nat.strongRecOn generalizing npd with
  | _ n ih =>
    subst hn
    cases npd with
    | nil => exact nil
    | cons b npd =>
      have hlen : (npd.filter fun x => !controlEquivalent opts trees b x).length ≤ npd.length :=
        List.length_filter_le _ _
      exact round b npd (ih _ (by simp only [List.length_cons]; omega) _ rfl)

/-- The sets hold the blocks of the pool, each exactly as often as the pool does. -/
theorem flatten_createPostDomSets_perm (npd : List β) :
    (createPostDomSets opts trees npd).flatten.Perm npd := by
  induction npd using createPostDomSets_induction opts trees with
  | nil => simp
  | round b npd ih =>
    rw [createPostDomSets_cons, List.flatten_cons, List.cons_append]
    refine List.Perm.cons b ?_
    have hsplit := List.filter_append_perm (controlEquivalent opts trees b) npd
    exact (List.Perm.append_left _ ih).trans hsplit

/-- Every set has an anchor. -/
theorem ne_nil_of_mem_createPostDomSets {npd set : List β} (hs : set ∈ createPostDomSets opts trees npd) :
    set ≠ [] := by
  induction npd using createPostDomSets_induction opts trees with
  | nil => simp at hs
  | round b npd ih =>
    rw [createPostDomSets_cons] at hs
    rcases List.mem_cons.mp hs with rfl | hs
    · simp
    · exact ih hs

/-- The blocks after the anchor were taken because they are control equivalent to it. -/
theorem controlEquivalent_of_mem_createPostDomSets {npd : List β} {b : β} {taken : List β}
    (hs : b :: taken ∈ createPostDomSets opts trees npd) {x : β} (hx : x ∈ taken) :
    controlEquivalent opts trees b x = true := by
  induction npd using createPostDomSets_induction opts trees with
  | nil => simp at hs
  | round a npd ih =>
    rw [createPostDomSets_cons] at hs
    rcases List.mem_cons.mp hs with heq | hs
    · obtain ⟨rfl, rfl⟩ := List.cons.inj heq
      exact (List.mem_filter.mp hx).2
    · exact ih hs

/-- The anchor of a block, when control equivalence is transitive: the first block of the pool that is control
equivalent to it. -/
theorem mem_createPostDomSets_iff_first
    (htrans : ∀ a b c, controlEquivalent opts trees a b = true → controlEquivalent opts trees b c = true →
      controlEquivalent opts trees a c = true) {npd : List β} {b x : β} :
    (∃ taken, b :: taken ∈ createPostDomSets opts trees npd ∧ x ∈ taken) ↔
      ∃ l r, npd = l ++ b :: r ∧ x ∈ r ∧ controlEquivalent opts trees b x = true ∧
        ∀ c ∈ l, controlEquivalent opts trees c x = false := by
  induction npd using createPostDomSets_induction opts trees with
  | nil => simp
  | round a npd ih =>
    rw [createPostDomSets_cons]
    constructor
    · rintro ⟨taken, hset, hx⟩
      rcases List.mem_cons.mp hset with heq | hset
      · obtain ⟨rfl, rfl⟩ := List.cons.inj heq
        obtain ⟨hxn, hbx⟩ := List.mem_filter.mp hx
        exact ⟨[], npd, rfl, hxn, hbx, by simp⟩
      · obtain ⟨l', r', hfilter, hxr, hbx, hfirst⟩ := ih.mp ⟨taken, hset, hx⟩
        obtain ⟨l, t, rfl, hl, ht⟩ := List.filter_eq_append_iff.mp hfilter
        obtain ⟨t1, r, rfl, ht1, -, hr⟩ := List.filter_eq_cons_iff.mp ht
        subst hr
        obtain ⟨hxr, hax⟩ := List.mem_filter.mp hxr
        -- a block passed over was taken by `a`, which does not take `x`
        have htaken : ∀ c, controlEquivalent opts trees a c = true → controlEquivalent opts trees c x = false := by
          intro c hac
          by_contra hcx
          have hax' := htrans a c x hac (by simpa using hcx)
          simp [hax'] at hax
        refine ⟨a :: (l ++ t1), r, by simp, hxr, hbx, fun c hc => ?_⟩
        rcases List.mem_cons.mp hc with rfl | hc
        · simpa using hax
        · rcases List.mem_append.mp hc with hc | hc
          · by_cases hac : controlEquivalent opts trees a c = true
            · exact htaken c hac
            · exact hfirst c (hl ▸ List.mem_filter.mpr ⟨hc, by simpa using hac⟩)
          · exact htaken c (by simpa using ht1 c hc)
    · rintro ⟨l, r, hnpd, hxr, hbx, hfirst⟩
      cases l with
      | nil =>
        rw [List.nil_append, List.cons.injEq] at hnpd
        obtain ⟨rfl, rfl⟩ := hnpd
        exact ⟨_, List.mem_cons_self, List.mem_filter.mpr ⟨hxr, hbx⟩⟩
      | cons c l =>
        rw [List.cons_append, List.cons.injEq] at hnpd
        obtain ⟨rfl, rfl⟩ := hnpd
        have hax : controlEquivalent opts trees a x = false := hfirst a List.mem_cons_self
        have hab : controlEquivalent opts trees a b = false := by
          by_contra hab
          have hax' := htrans a b x (by simpa using hab) hbx
          simp [hax'] at hax
        have hsplit : (l ++ b :: r).filter (fun y => !controlEquivalent opts trees a y) =
            l.filter (fun y => !controlEquivalent opts trees a y) ++
              b :: r.filter (fun y => !controlEquivalent opts trees a y) := by
          simp [List.filter_append, hab]
        obtain ⟨taken, hset, hx⟩ := ih.mpr ⟨_, _, hsplit, List.mem_filter.mpr ⟨hxr, by simp [hax]⟩, hbx,
          fun c hc => hfirst c (List.mem_cons_of_mem a (List.mem_filter.mp hc).1)⟩
        exact ⟨taken, List.mem_cons_of_mem _ hset, hx⟩

/-- The counters of a pool record the blocks of the pool, each once. -/
theorem flatMap_blocks_instrumentPostDomSet_perm (npd : List β) :
    ((instrumentPostDomSet opts trees npd).flatMap Counter.blocks).Perm npd := by
  have heq : (instrumentPostDomSet opts trees npd).flatMap Counter.blocks =
      (createPostDomSets opts trees npd).flatten := by
    simp only [instrumentPostDomSet, List.flatMap_map, Counter.blocks_postDomSet]
    exact List.flatMap_id'
  rw [heq]
  exact flatten_createPostDomSets_perm npd

end ZRay.Pass
