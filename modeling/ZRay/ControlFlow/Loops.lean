import ZRay.ControlFlow.Stretch
import ZRay.ControlFlow.Walk

/-!
# Natural loops and their passes

A natural loop is a set of nodes entered at its header only.  A run visits it in stretches, one for each entry, and a
stretch splits into passes, each starting with the header.  The key facts: when every exiting node dominates the one
latch, a node is visited once in each pass if and only if no way out of the loop and no cycle in it goes around the
node or the header (`entryCounts_iff_oncePerPass`), and an inner loop is entered once in each pass under the like
condition (`length_stretches_eq_count`).
-/

namespace FlowGraph

variable {β : Type*} [DecidableEq β]

/-- Membership in the nodes of a loop, as a test. -/
def inLoop (B : List β) (x : β) : Bool := decide (x ∈ B)

omit [DecidableEq β] in
/-- A natural loop with header `h` and nodes `B`: away from the entry, entered at the header only, and without
exits of the graph. -/
structure NaturalLoop (g : FlowGraph β) (h : β) (B : List β) : Prop where
  header_mem : h ∈ B
  entry_not_mem : g.entry ∉ B
  header_reachable : g.Reachable h
  single_entry : ∀ u, g.Reachable u → u ∉ B → ∀ v ∈ g.succs u, v ∈ B → v = h
  succs_ne_nil : ∀ x ∈ B, g.succs x ≠ []

/-- The loop has one latch, and every exiting node dominates it. -/
def ExitsDominateLatch (g : FlowGraph β) (h : β) (B : List β) : Prop :=
  ∃ latch, (∀ u ∈ B, h ∈ g.succs u → u = latch) ∧ ∀ u ∈ B, ∀ v ∈ g.succs u, v ∉ B → g.Dominates u latch

/-- Some run goes from `v` to an exit of the graph. -/
def ReachesExit (g : FlowGraph β) (v : β) : Prop := ∃ z r, g.succs z = [] ∧ g.Walk v r z

/-- Every way through the loop, from the header to an edge on which a run leaves it, visits `b`. -/
def OnEveryPass (g : FlowGraph β) (h : β) (B : List β) (b : β) : Prop :=
  ∀ p e v, g.Walk h p e → (∀ x ∈ p, x ∈ B) → v ∈ g.succs e → v ∉ B → g.ReachesExit v → b ∈ p

/-- Every way through the loop visits `b`, and every cycle in the loop through `b` visits the header. -/
structure OncePerPass (g : FlowGraph β) (h : β) (B : List β) (b : β) : Prop where
  onEveryPass : g.OnEveryPass h B b
  cycle : (∃ w, g.Complete w ∧ b ∈ w) → ∀ c, g.Walk b (b :: c) b → c ≠ [] → (∀ x ∈ c, x ∈ B) → h ∈ b :: c

/-- Every way through the loop enters the inner loop `C` with header `hC`, and it does not leave and enter it again
before it is back at the header. -/
structure EnteredOncePerPass (g : FlowGraph β) (h : β) (B : List β) (hC : β) (C : List β) : Prop where
  onEveryPass : g.OnEveryPass h B hC
  noReturn : ∀ x m y, x ∈ C → y ∈ C → m ≠ [] → (∀ z ∈ m, z ∈ B ∧ z ∉ C) → g.Walk x (x :: (m ++ [y])) y → h ∈ m

omit [DecidableEq β] in
/-- The header is reached again without leaving the loop. -/
def GoesRound (g : FlowGraph β) (h : β) (B : List β) : Prop :=
  ∃ c, c ≠ [] ∧ g.Walk h (h :: c) h ∧ ∀ x ∈ c, x ∈ B

/-- On every entry of the loop that executes the header `n` times `b` is executed `n` times. -/
def EntryCounts (g : FlowGraph β) (h : β) (B : List β) (n : Nat) (b : β) : Prop :=
  ∀ w, g.Complete w → ∀ s ∈ stretches (inLoop B) w, s.count h = n → s.count b = n

omit [DecidableEq β]

variable {g : FlowGraph β} {h : β} {B : List β}

/-! ### Entering the loop -/

/-- A walk into the loop from outside passes the header. -/
theorem NaturalLoop.header_mem_of_walk (hB : g.NaturalLoop h B) {a x : β} {w : List β} (hw : g.Walk a w x)
    (ha : g.Reachable a) (haB : a ∉ B) (hx : x ∈ B) : h ∈ w := by
  induction hw with
  | single => exact absurd hx haB
  | @cons a b _ w he hw ih =>
    by_cases hb : b ∈ B
    · have heq := hB.single_entry a ha haB b he hb
      exact List.mem_cons_of_mem a (heq ▸ hw.source_mem)
    · obtain ⟨u, hu⟩ := ha
      exact List.mem_cons_of_mem a (ih ⟨_, hu.concat he (.single b)⟩ hb hx)

/-- The header dominates the loop. -/
theorem NaturalLoop.dominates (hB : g.NaturalLoop h B) {x : β} (hx : x ∈ B) : g.Dominates h x :=
  fun _ hw => hB.header_mem_of_walk hw ⟨_, .single _⟩ hB.entry_not_mem hx

/-- A walk that ends at its first visit of the header stays outside the loop until then. -/
theorem NaturalLoop.not_mem_before (hB : g.NaturalLoop h B) {u : List β} (hw : g.Walk g.entry (u ++ [h]) h)
    (hu : h ∉ u) : ∀ x ∈ u, x ∉ B := by
  intro x hxu hx
  obtain ⟨u1, u2, rfl⟩ := List.append_of_mem hxu
  rw [List.append_assoc, List.cons_append] at hw
  have hmem := hB.dominates hx _ hw.split.1
  rcases List.mem_append.mp hmem with hmem | hmem
  · exact hu (List.mem_append_left _ hmem)
  · exact hu (List.mem_append_right u1 (List.mem_cons.mpr (.inl (List.mem_singleton.mp hmem))))

/-- Some walk reaches the header from outside the loop. -/
theorem NaturalLoop.exists_entry (hB : g.NaturalLoop h B) :
    ∃ u, g.Walk g.entry (u ++ [h]) h ∧ ∀ x ∈ u, x ∉ B := by
  obtain ⟨w, hw⟩ := hB.header_reachable
  obtain ⟨u, v, -, hu, hwalk, -⟩ := hw.exists_first hw.target_mem
  exact ⟨u, hwalk, hB.not_mem_before hwalk hu⟩

/-! ### Stretches and passes -/

variable [DecidableEq β]

/-- A stretch of a complete walk: it starts at the header, stays in the loop, and is left on an edge from which the
run goes on to an exit. -/
theorem NaturalLoop.exists_of_mem_stretches (hB : g.NaturalLoop h B) {w s : List β} (hw : g.Complete w)
    (hs : s ∈ stretches (inLoop B) w) :
    ∃ t e y, s = h :: t ∧ g.Walk h s e ∧ (∀ x ∈ s, x ∈ B) ∧ y ∈ g.succs e ∧ y ∉ B ∧ g.ReachesExit y := by
  obtain ⟨z, hz, hw⟩ := hw
  obtain ⟨u, v, rfl, hne, hin, hu, hv⟩ := mem_stretches_iff.mp hs
  have hinB : ∀ x ∈ s, x ∈ B := fun x hx => by simpa [inLoop] using hin x hx
  cases s with
  | nil => exact absurd rfl hne
  | cons x t =>
    have hx : x ∈ B := hinB x List.mem_cons_self
    -- the stretch is entered at the header
    have hxh : x = h ∧ g.Walk x ((x :: t) ++ v) z := by
      rcases List.eq_nil_or_concat u with rfl | ⟨u', e, rfl⟩
      · obtain ⟨w', hw'⟩ := hw.exists_cons
        rw [List.nil_append, List.cons_append, List.cons.injEq] at hw'
        exact absurd (hw'.1 ▸ hx) hB.entry_not_mem
      · rw [List.cons_append] at hw
        obtain ⟨e', he', hxe, hrest⟩ := hw.split_step (by simp)
        have heB : e' ∉ B := by
          rw [List.concat_eq_append] at he' hu
          have heq : e' = e := by
            obtain ⟨-, hlast⟩ := he'.split
            cases hlast with
            | single => rfl
            | cons _ h => cases h
          simpa [inLoop, heq] using hu
        exact ⟨hB.single_entry e' ⟨_, he'⟩ heB x hxe hx, hrest⟩
    obtain ⟨rfl, hwalk⟩ := hxh
    -- and left before the run ends
    cases v with
    | nil =>
      rw [List.append_nil] at hwalk
      exact absurd hz (hB.succs_ne_nil z (hinB z hwalk.target_mem))
    | cons y v =>
      obtain ⟨e, he, hye, hrest⟩ := hwalk.split_step (by simp)
      exact ⟨t, e, y, rfl, he, hinB, hye, by simpa [inLoop] using hv, z, _, hz, hrest⟩

/-- A quantity that adds up over the passes, and is 1 on each, is the number of passes. -/
theorem eq_count_of_passes {F : List β → Nat} (hadd : ∀ u v, F (u ++ h :: v) = F u + F (h :: v)) (t : List β)
    (hpass : ∀ u m v, h :: t = u ++ h :: (m ++ v) → h ∉ m → (v = [] ∨ ∃ v', v = h :: v') → F (h :: m) = 1) :
    F (h :: t) = (h :: t).count h := by
  induction hn : t.length using Nat.strongRecOn generalizing t with
  | _ n ih =>
    by_cases hmem : h ∈ t
    · obtain ⟨m, v, rfl, hm⟩ := List.eq_append_cons_of_mem hmem
      have hfirst := hpass [] m (h :: v) rfl hm (.inr ⟨v, rfl⟩)
      have hrest := ih v.length (by simp at hn; omega) v (fun u' m' v' heq hm' hv' =>
        hpass (h :: m ++ u') m' v' (by simp [heq]) hm' hv') rfl
      have hm0 : (h :: m).count h = 1 := by rw [List.count_cons_self, List.count_eq_zero_of_not_mem hm]
      rw [← List.cons_append, hadd, hfirst, hrest, List.count_append, hm0]
    · have honly := hpass [] t [] (by simp) hmem (.inl rfl)
      rw [honly, List.count_cons_self, List.count_eq_zero_of_not_mem hmem]

omit [DecidableEq β] in
/-- A pass of a stretch: it stays in the loop, and it ends at the latch or at the node where the stretch ends. -/
theorem exists_of_pass {s u m v : List β} {e : β} (hs : g.Walk h s e) (hin : ∀ x ∈ s, x ∈ B)
    (hpass : s = u ++ h :: (m ++ v)) (hv : v = [] ∨ ∃ v', v = h :: v') :
    (∀ x ∈ h :: m, x ∈ B) ∧ (g.Walk h (h :: m) e ∨ ∃ l, g.Walk h (h :: m) l ∧ h ∈ g.succs l) := by
  subst hpass
  refine ⟨fun x hx => hin x (by rw [← List.cons_append]; simp only [List.mem_append]; exact .inr (.inl hx)), ?_⟩
  have hwalk := hs.split.2
  rcases hv with rfl | ⟨v', rfl⟩
  · rw [List.append_nil] at hwalk
    exact .inl hwalk
  · rw [← List.cons_append] at hwalk
    obtain ⟨l, hl, hhl, -⟩ := hwalk.split_step (by simp)
    exact .inr ⟨l, hl, hhl⟩

omit [DecidableEq β] in
/-- Every pass visits a node that lies on every way through the loop: a pass that returns to the header visits the
node where the loop is left, which dominates the latch. -/
theorem NaturalLoop.mem_pass (hB : g.NaturalLoop h B) (hlatch : g.ExitsDominateLatch h B) {b e y : β} {m : List β}
    (hb : g.OnEveryPass h B b) (he : e ∈ B) (hye : y ∈ g.succs e) (hy : y ∉ B) (hexit : g.ReachesExit y)
    (hm : ∀ x ∈ h :: m, x ∈ B) (hpass : g.Walk h (h :: m) e ∨ ∃ l, g.Walk h (h :: m) l ∧ h ∈ g.succs l) :
    b ∈ h :: m := by
  rcases hpass with hwalk | ⟨l, hwalk, hl⟩
  · exact hb _ e y hwalk hm hye hy hexit
  · obtain ⟨latch, huniq, hdom⟩ := hlatch
    have hlB : l ∈ B := hm l hwalk.target_mem
    have hle : l = latch := huniq l hlB hl
    have hel : g.Dominates e l := hle ▸ hdom e he y hye hy
    -- the pass visits `e`
    have hem : e ∈ h :: m := by
      obtain ⟨u, hu, hout⟩ := hB.exists_entry
      have hmem := hel _ (hu.append hwalk)
      simp only [List.mem_append, List.mem_cons, List.not_mem_nil, or_false] at hmem ⊢
      rcases hmem with (hmem | hmem) | hmem
      · exact absurd he (hout e hmem)
      · exact .inl hmem
      · exact .inr hmem
    obtain ⟨p, p', heq, -, hp, -⟩ := hwalk.exists_first hem
    have hsub : ∀ x ∈ p ++ [e], x ∈ h :: m := by
      intro x hx
      rw [heq]
      simp only [List.mem_append, List.mem_cons, List.not_mem_nil, or_false] at hx ⊢
      tauto
    exact hsub b (hb _ e y hp (fun x hx => hm x (hsub x hx)) hye hy hexit)

/-! ### A node visited once in each pass -/

/-- On every entry a node visited once per pass is visited as often as the header. -/
theorem NaturalLoop.count_eq_of_oncePerPass (hB : g.NaturalLoop h B) (hlatch : g.ExitsDominateLatch h B) {b : β}
    (hb : g.OncePerPass h B b) {w s : List β} (hw : g.Complete w) (hs : s ∈ stretches (inLoop B) w) :
    s.count b = s.count h := by
  obtain ⟨t, e, y, rfl, hwalk, hin, hye, hy, hexit⟩ := hB.exists_of_mem_stretches hw hs
  have hbw : ∀ x ∈ h :: t, x ∈ w := by
    obtain ⟨u, v, rfl, -⟩ := mem_stretches_iff.mp hs
    intro x hx
    exact List.mem_append_right u (List.mem_append_left v hx)
  refine eq_count_of_passes (F := List.count b) (fun u v => List.count_append) t fun u m v heq hm hv => ?_
  obtain ⟨hinm, hpass⟩ := exists_of_pass hwalk hin heq hv
  have hmem : b ∈ h :: m :=
    hB.mem_pass hlatch hb.onEveryPass (hin e hwalk.target_mem) hye hy hexit hinm hpass
  have hpos : 0 < (h :: m).count b := List.count_pos_iff.mpr hmem
  -- a second visit closes a cycle in the loop that goes around the header
  have hle : ¬ 1 < (h :: m).count b := by
    intro htwo
    obtain ⟨l, hl⟩ : ∃ l, g.Walk h (h :: m) l := by
      rcases hpass with hp | ⟨l, hp, -⟩
      · exact ⟨e, hp⟩
      · exact ⟨l, hp⟩
    obtain ⟨p, q, hpq, hbp⟩ := List.eq_append_cons_of_mem hmem
    have hbq : b ∈ q := by
      rw [hpq, List.count_append, List.count_eq_zero_of_not_mem hbp, List.count_cons_self] at htwo
      exact List.count_pos_iff.mp (by omega)
    obtain ⟨c, d, rfl⟩ := List.append_of_mem hbq
    rw [hpq] at hl
    have hsub : ∀ x ∈ c ++ [b], x ∈ h :: m := by
      intro x hx
      rw [hpq]
      simp only [List.mem_append, List.mem_cons, List.not_mem_nil, or_false] at hx ⊢
      tauto
    have hbin : ∃ w, g.Complete w ∧ b ∈ w :=
      ⟨w, hw, hbw b (by rw [heq, ← List.cons_append]; simp only [List.mem_append]; exact .inr (.inl hmem))⟩
    have hh := hb.cycle hbin (c ++ [b]) hl.cycle (by simp) fun x hx => hinm x (hsub x hx)
    -- the header stands at the front of the pass only
    have hcount : (h :: m).count h = 1 := by rw [List.count_cons_self, List.count_eq_zero_of_not_mem hm]
    by_cases hbh : b = h
    · rw [hbh] at htwo
      omega
    · have hhc : h ∈ c := by
        simp only [List.mem_cons, List.mem_append, List.not_mem_nil, or_false] at hh
        rcases hh with hh | hh | hh
        · exact absurd hh.symm hbh
        · exact hh
        · exact absurd hh.symm hbh
      cases p with
      | nil =>
        rw [List.nil_append, List.cons.injEq] at hpq
        exact hbh hpq.1.symm
      | cons x p =>
        rw [List.cons_append, List.cons.injEq] at hpq
        have hmh : h ∈ m := by
          rw [hpq.2]
          simp [hhc]
        exact hm hmh
  omega

/-! ### Rounds -/

omit [DecidableEq β] in
/-- Where a loop goes round, some round visits every node once at most. -/
theorem GoesRound.exists_nodup (hround : g.GoesRound h B) :
    ∃ r, g.Walk h (h :: r) h ∧ r.Nodup ∧ h ∈ r ∧ ∀ x ∈ r, x ∈ B := by
  obtain ⟨c, hne, hc, hin⟩ := hround
  cases c with
  | nil => exact absurd rfl hne
  | cons y c =>
    obtain ⟨hy, htail⟩ := hc.step
    obtain ⟨r, hr, hnodup, hsub⟩ := htail.exists_nodup
    exact ⟨r, .cons hy hr, hnodup, hr.target_mem, fun x hx => hin x (hsub hx)⟩

omit [DecidableEq β] in
/-- A walk that leaves the loop for an exit, behind a walk to the header, is a stretch of a complete walk. -/
theorem NaturalLoop.exists_complete (hB : g.NaturalLoop h B) {p : List β} {e v : β} (hp : g.Walk h p e)
    (hin : ∀ x ∈ p, x ∈ B) (hv : v ∈ g.succs e) (hout : v ∉ B) (hexit : g.ReachesExit v) [DecidableEq β] :
    ∃ w, g.Complete w ∧ p ∈ stretches (inLoop B) w := by
  obtain ⟨z, r, hz, hr⟩ := hexit
  obtain ⟨u, hu, hbefore⟩ := hB.exists_entry
  obtain ⟨p', rfl⟩ := hp.exists_cons
  obtain ⟨r', rfl⟩ := hr.exists_cons
  have hwalk : g.Walk g.entry (u ++ (h :: p' ++ v :: r')) z := by simpa using (hu.append hp).concat hv hr
  refine ⟨_, ⟨z, hz, hwalk⟩, mem_stretches_iff.mpr ⟨u, v :: r', rfl, by simp, ?_, ?_, ?_⟩⟩
  · intro x hx
    simpa [inLoop] using hin x hx
  · exact getLast?_any_eq_false fun x hx => by simpa [inLoop] using hbefore x hx
  · simpa [inLoop] using hout

/-- The last pass of a walk from the header, behind as many rounds as make `n` visits of the header. -/
private theorem exists_rounds {n : Nat} (hn : 0 < n) (hround : n = 1 ∨ g.GoesRound h B) {p : List β} {e : β}
    (hp : g.Walk h (h :: p) e) (hin : ∀ x ∈ h :: p, x ∈ B) (hh : h ∉ p) (b : β) (hb : b ≠ h) :
    ∃ q, g.Walk h (h :: (q ++ p)) e ∧ (∀ x ∈ h :: (q ++ p), x ∈ B) ∧ (h :: (q ++ p)).count h = n ∧
      q.count b < n := by
  have hfirst : (h :: p).count h = 1 := by rw [List.count_cons_self, List.count_eq_zero_of_not_mem hh]
  rcases hround with rfl | hround
  · exact ⟨[], hp, hin, hfirst, by simp⟩
  obtain ⟨r, hr, hnodup, hhr, hrB⟩ := hround.exists_nodup
  have hrh : r.count h = 1 := List.count_eq_one_of_mem hnodup hhr
  have hrb : r.count b ≤ 1 := List.nodup_iff_count_le_one.mp hnodup b
  have hle : (n - 1) * r.count b ≤ (n - 1) * 1 := Nat.mul_le_mul_left (n - 1) hrb
  refine ⟨(List.replicate (n - 1) r).flatten, hp.rounds hr (n - 1), fun x hx => ?_, ?_, ?_⟩
  · simp only [List.mem_cons, List.mem_append, List.mem_flatten, List.mem_replicate] at hx
    rcases hx with rfl | ⟨l, ⟨-, rfl⟩, hxl⟩ | hx
    · exact hin x List.mem_cons_self
    · exact hrB x hxl
    · exact hin x (List.mem_cons_of_mem h hx)
  · rw [List.count_cons_self, List.count_append, List.count_flatten, List.map_replicate, List.sum_replicate_nat, hrh,
      List.count_eq_zero_of_not_mem hh]
    omega
  · rw [List.count_flatten, List.map_replicate, List.sum_replicate_nat]
    omega

omit [DecidableEq β] in
/-- The last pass of a walk from the header. -/
private theorem exists_last_pass {p : List β} {e : β} (hp : g.Walk h p e) :
    ∃ u m, p = u ++ h :: m ∧ h ∉ m ∧ g.Walk h (h :: m) e := by
  obtain ⟨v, u, hrev, hv⟩ := List.eq_append_cons_of_mem (List.mem_reverse.mpr hp.source_mem)
  have heq : p = u.reverse ++ h :: v.reverse := by
    rw [← List.reverse_reverse p, hrev]
    simp
  subst heq
  exact ⟨u.reverse, v.reverse, rfl, by simpa using hv, hp.split.2⟩

/-- A node of the loop counted right on every entry lies on every way out of it: else the way out, behind `n - 1`
rounds that visit the node once each at most, visits it too seldom. -/
private theorem onEveryPass_of_entryCounts (hB : g.NaturalLoop h B) {n : Nat} (hn : 0 < n)
    (hround : n = 1 ∨ g.GoesRound h B) {b : β} (hcount : g.EntryCounts h B n b) : g.OnEveryPass h B b := by
  intro p e v hp hin hv hout hexit
  by_contra hbp
  obtain ⟨u, m, rfl, hm, hlast⟩ := exists_last_pass hp
  have hbm : b ∉ h :: m := fun hmem => hbp (List.mem_append_right u hmem)
  have hbh : b ≠ h := fun heq => hbm (heq ▸ List.mem_cons_self)
  obtain ⟨q, hq, hqB, hqh, hqb⟩ :=
    exists_rounds hn hround hlast (fun x hx => hin x (List.mem_append_right u hx)) hm b hbh
  obtain ⟨w, hw, hs⟩ := hB.exists_complete hq hqB hv hout hexit
  have hb := hcount w hw _ hs hqh
  have hmb : m.count b = 0 := List.count_eq_zero_of_not_mem fun hmem => hbm (List.mem_cons_of_mem h hmem)
  rw [List.count_cons_of_ne (Ne.symm hbh), List.count_append, hmb] at hb
  omega

/-- A cycle through a node counted right on every entry visits the header: else it could be inserted into the last
pass of an entry, which visits the node. -/
private theorem cycle_of_entryCounts (hB : g.NaturalLoop h B) {n : Nat} (hn : 0 < n)
    (hround : n = 1 ∨ g.GoesRound h B) {b : β} (hbB : b ∈ B) (hcount : g.EntryCounts h B n b)
    (hb : ∃ w, g.Complete w ∧ b ∈ w) {c : List β} (hc : g.Walk b (b :: c) b) (hne : c ≠ [])
    (hin : ∀ x ∈ c, x ∈ B) : h ∈ b :: c := by
  by_contra hh
  have hbh : b ≠ h := fun heq => hh (heq ▸ List.mem_cons_self)
  obtain ⟨w, hw, hbw⟩ := hb
  -- the stretch that holds `b`
  have hpos : 0 < ((stretches (inLoop B) w).map (List.count b)).sum := by
    rw [← count_eq_sum_stretches (p := inLoop B) (by simpa [inLoop] using hbB)]
    exact List.count_pos_iff.mpr hbw
  obtain ⟨s, hs⟩ : ∃ s, s ∈ stretches (inLoop B) w := by
    refine List.exists_mem_of_ne_nil _ fun hnil => ?_
    rw [hnil] at hpos
    exact absurd hpos (by simp)
  obtain ⟨t, e, y, rfl, hwalk, hsB, hye, hy, hexit⟩ := hB.exists_of_mem_stretches hw hs
  obtain ⟨u, m, hum, hm, hlast⟩ := exists_last_pass hwalk
  have hmB : ∀ x ∈ h :: m, x ∈ B := fun x hx => hsB x (hum ▸ List.mem_append_right u hx)
  -- the last pass visits `b`
  have hbm : b ∈ m := by
    have hmem := onEveryPass_of_entryCounts hB hn hround hcount _ e y hlast hmB hye hy hexit
    exact (List.mem_cons.mp hmem).resolve_left hbh
  obtain ⟨q, hq, hqB, hqh, -⟩ := exists_rounds hn hround hlast hmB hm b hbh
  obtain ⟨m1, m2, rfl⟩ := List.append_of_mem hbm
  have hlist : h :: (q ++ (m1 ++ b :: m2)) = (h :: (q ++ m1)) ++ b :: m2 := by simp
  rw [hlist] at hq hqB hqh
  obtain ⟨w1, hw1, hs1⟩ := hB.exists_complete hq hqB hye hy hexit
  have hpumpB : ∀ x ∈ (h :: (q ++ m1)) ++ b :: (c ++ m2), x ∈ B := by
    intro x hx
    simp only [List.mem_append, List.mem_cons] at hx hqB
    rcases hx with hx | hx | hx | hx
    · exact hqB x (.inl hx)
    · exact hqB x (.inr (.inl hx))
    · exact hin x hx
    · exact hqB x (.inr (.inr hx))
  obtain ⟨w2, hw2, hs2⟩ := hB.exists_complete (hq.pump hc) hpumpB hye hy hexit
  have hch : c.count h = 0 := List.count_eq_zero_of_not_mem fun hmem => hh (List.mem_cons_of_mem b hmem)
  have hcb : 0 < c.count b := by
    cases hc with
    | single => exact absurd rfl hne
    | cons _ hc => exact List.count_pos_iff.mpr hc.target_mem
  have hpumph : ((h :: (q ++ m1)) ++ b :: (c ++ m2)).count h = n := by
    rw [← hqh]
    simp only [List.count_append, List.count_cons, hch]
    omega
  have h1 := hcount w1 hw1 _ hs1 hqh
  have h2 := hcount w2 hw2 _ hs2 hpumph
  simp only [List.count_append, List.count_cons] at h1 h2
  omega

/-- In a natural loop whose exiting nodes dominate its one latch, a node of the loop executes as often as the header
on every entry with `n` visits of the header if and only if it is passed once in each pass. -/
theorem entryCounts_iff_oncePerPass (hB : g.NaturalLoop h B) (hlatch : g.ExitsDominateLatch h B)
    {n : Nat} (hn : 0 < n) (hround : n = 1 ∨ g.GoesRound h B) {b : β} (hb : b ∈ B) :
      g.EntryCounts h B n b ↔ g.OncePerPass h B b := by
  constructor
  · intro hcount
    exact ⟨onEveryPass_of_entryCounts hB hn hround hcount,
      fun hbw c hc hne hin => cycle_of_entryCounts hB hn hround hb hcount hbw hc hne hin⟩
  · intro hone w hw s hs hheader
    rw [hB.count_eq_of_oncePerPass hlatch hone hw hs, hheader]

/-! ### An inner loop entered once in each pass -/

/-- On every entry of the outer loop the inner loop is entered as often as the header is executed. -/
theorem NaturalLoop.length_stretches_eq_count (hB : g.NaturalLoop h B) (hlatch : g.ExitsDominateLatch h B) {hC : β}
    {C : List β} (hhC : hC ∈ C) (hout : h ∉ C) (hone : g.EnteredOncePerPass h B hC C)
    {w s : List β} (hw : g.Complete w) (hs : s ∈ stretches (inLoop B) w) :
    (stretches (inLoop C) s).length = s.count h := by
  obtain ⟨t, e, y, rfl, hwalk, hin, hye, hy, hexit⟩ := hB.exists_of_mem_stretches hw hs
  refine eq_count_of_passes (F := fun s => (stretches (inLoop C) s).length) (fun u v => ?_) t
    fun u m v heq hm hv => ?_
  · rw [stretches_append_of_head u (by simpa [inLoop] using hout), List.length_append]
  obtain ⟨hinm, hpass⟩ := exists_of_pass hwalk hin heq hv
  have hmem : hC ∈ h :: m :=
    hB.mem_pass hlatch hone.onEveryPass (hin e hwalk.target_mem) hye hy hexit hinm hpass
  have hne : stretches (inLoop C) (h :: m) ≠ [] := stretches_ne_nil hmem (by simpa [inLoop] using hhC)
  obtain ⟨l, hl⟩ : ∃ l, g.Walk h (h :: m) l := by
    rcases hpass with hp | ⟨l, hp, -⟩
    · exact ⟨e, hp⟩
    · exact ⟨l, hp⟩
  rcases exists_first_stretch (inLoop C) (h :: m) with hnone | ⟨p, s1, q, hpq, hp, hne1, hs1, hq⟩
  · exact absurd (stretches_eq_nil hnone) hne
  rw [hpq, stretches_first hp hne1 hs1 hq, List.length_cons]
  rcases exists_first_stretch (inLoop C) q with hnone | ⟨m', s2, r, hqr, hm', hne2, hs2, -⟩
  · rw [stretches_eq_nil hnone]
    rfl
  · -- a second entry returns to the inner loop without passing the header
    exfalso
    rcases List.eq_nil_or_concat s1 with rfl | ⟨s1', x, rfl⟩
    · exact hne1 rfl
    cases s2 with
    | nil => exact hne2 rfl
    | cons y' s2 =>
      have hxC : x ∈ C := by simpa [inLoop] using hs1 x (by simp)
      have hyC : y' ∈ C := by simpa [inLoop] using hs2 y' (by simp)
      have hm'ne : m' ≠ [] := by
        rintro rfl
        rw [hqr] at hq
        simp [inLoop, hyC] at hq
      have hlist : h :: m = (p ++ s1') ++ x :: (m' ++ y' :: (s2 ++ r)) := by
        rw [hpq, hqr]
        simp
      have hm'in : ∀ z ∈ m', z ∈ B ∧ z ∉ C := fun z hz =>
        ⟨hinm z (by rw [hlist]; simp [hz]), by simpa [inLoop] using hm' z hz⟩
      rw [hlist] at hl
      have hreturn : g.Walk x (x :: (m' ++ [y'])) y' := by
        have htail := hl.split.2
        rw [← List.cons_append] at htail
        exact htail.split.1
      have hhm' := hone.noReturn x m' y' hxC hyC hm'ne hm'in hreturn
      have hhm : h ∈ m := by
        cases hps : p ++ s1' with
        | nil =>
          rw [hps, List.nil_append, List.cons.injEq] at hlist
          rw [hlist.2]
          simp [hhm']
        | cons z ps =>
          rw [hps, List.cons_append, List.cons.injEq] at hlist
          rw [hlist.2]
          simp [hhm']
      exact hm hhm

end FlowGraph
