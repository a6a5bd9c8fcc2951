import Mathlib.Data.List.Nodup
import Mathlib.Data.List.Perm.Subperm
import Mathlib.Logic.Function.Iterate

/-!
# Worklists that grow while they are drained

A worklist is drained in rounds: a round takes a copy of the pending keys and visits them one after the other, each
visit takes its key off the list and may put new keys at its end.  No key is pending twice, nor pending after it was
visited, and all keys come from a finite list (`Worklist.Sound`).  Then the rounds end, and every key that was ever
pending has been visited once (`Worklist.Sound.drain`).
-/

namespace ZRay

variable {σ κ : Type*}

/-- The keys pending in a state, and the visit of one key. -/
structure Worklist (σ κ : Type*) where
  pending : σ → List κ
  visit : σ → κ → σ

namespace Worklist

/-- One round: the keys of a copy of the list. -/
def round (w : Worklist σ κ) (s : σ) : σ := (w.pending s).foldl w.visit s

/-- Rounds until no key is pending, at most `fuel` of them; `none` when keys are left. -/
def drain (w : Worklist σ κ) : Nat → σ → Option σ
  | 0, s => if (w.pending s).isEmpty then some s else none
  | fuel + 1, s => if (w.pending s).isEmpty then some s else drain w fuel (w.round s)

/-- A larger bound changes nothing once the list is empty. -/
theorem drain_add {w : Worklist σ κ} {fuel : Nat} (extra : Nat) {s s' : σ} (h : w.drain fuel s = some s') :
    w.drain (fuel + extra) s = some s' := by
  induction fuel generalizing s with
  | zero =>
    rw [drain] at h
    split at h
    · rename_i hempty
      rw [← Option.some.inj h]
      cases extra with
      | zero => exact if_pos hempty
      | succ extra => rw [Nat.zero_add, drain, if_pos hempty]
    · simp at h
  | succ fuel ih =>
    rw [show fuel + 1 + extra = fuel + extra + 1 by omega]
    rw [drain] at h ⊢
    split at h
    · rename_i hempty
      rw [if_pos hempty]
      exact h
    · rename_i hempty
      rw [if_neg hempty]
      exact ih h

theorem drain_unique {w : Worklist σ κ} {fuel fuel' : Nat} {s s₁ s₂ : σ} (h₁ : w.drain fuel s = some s₁)
    (h₂ : w.drain fuel' s = some s₂) : s₁ = s₂ := by
  have h₁' := drain_add fuel' h₁
  rw [Nat.add_comm, drain_add fuel h₂] at h₁'
  exact (Option.some.inj h₁').symm

/-- Rounds are done until the list is empty; further ones do nothing. -/
theorem drain_of_iterate {w : Worklist σ κ} {fuel : Nat} {s : σ} (h : w.pending (w.round^[fuel] s) = []) :
    w.drain fuel s = some (w.round^[fuel] s) := by
  induction fuel generalizing s with
  | zero =>
    unfold drain
    rw [if_pos (by rw [show w.pending s = [] from h]; rfl)]
    rfl
  | succ fuel ih =>
    unfold drain
    rw [Function.iterate_succ_apply] at h ⊢
    by_cases hnil : w.pending s = []
    · have hround : w.round s = s := by rw [round, hnil, List.foldl_nil]
      rw [if_pos (by rw [hnil]; rfl), hround, Function.iterate_fixed hround]
    · rw [if_neg (by simpa using hnil)]
      exact ih h

/-- `Inv done s` holds in the states `s` in which the keys `done` were visited. -/
structure Sound (w : Worklist σ κ) (keys : List κ) (Inv : List κ → σ → Prop) : Prop where
  nodup : ∀ {done s}, Inv done s → (done ++ w.pending s).Nodup
  mem : ∀ {done s}, Inv done s → ∀ k ∈ done ++ w.pending s, k ∈ keys
  visit : ∀ {done s key rest}, Inv done s → w.pending s = key :: rest →
    Inv (done ++ [key]) (w.visit s key) ∧ ∃ found, w.pending (w.visit s key) = rest ++ found

namespace Sound

variable {w : Worklist σ κ} {keys : List κ} {Inv : List κ → σ → Prop}

/-- There are no more keys than the list has. -/
theorem length_le (h : w.Sound keys Inv) {done : List κ} {s : σ} (hs : Inv done s) :
    done.length + (w.pending s).length ≤ keys.length := by
  have hle := (List.subperm_of_subset (h.nodup hs) (h.mem hs)).length_le
  rwa [List.length_append] at hle

/-- The keys at the front of the list, visited in order. -/
theorem foldl (h : w.Sound keys Inv) (front found : List κ) {done : List κ} {s : σ} (hs : Inv done s)
    (hpending : w.pending s = front ++ found) : Inv (done ++ front) (front.foldl w.visit s) := by
  induction front generalizing done s found with
  | nil => rwa [List.append_nil]
  | cons key rest ih =>
    rw [List.cons_append] at hpending
    obtain ⟨hvisit, found', hfound'⟩ := h.visit hs hpending
    rw [List.append_assoc] at hfound'
    have hrest := ih (found ++ found') hvisit hfound'
    rwa [List.append_assoc, List.singleton_append] at hrest

/-- One round visits the keys that were pending. -/
theorem round (h : w.Sound keys Inv) {done : List κ} {s : σ} (hs : Inv done s) :
    Inv (done ++ w.pending s) (w.round s) :=
  h.foldl (w.pending s) [] hs (by rw [List.append_nil])

/-- The rounds end: each visits a key, and there are only so many. -/
theorem drain (h : w.Sound keys Inv) (fuel : Nat) {done : List κ} {s : σ} (hs : Inv done s)
    (hfuel : keys.length ≤ fuel + done.length) :
    ∃ s' done', w.drain fuel s = some s' ∧ w.pending s' = [] ∧ Inv (done ++ done') s' := by
  induction fuel generalizing done s with
  | zero =>
    have hle := h.length_le hs
    have hnil : w.pending s = [] := List.length_eq_zero_iff.mp (by omega)
    exact ⟨s, [], by simp [Worklist.drain, hnil], hnil, by rwa [List.append_nil]⟩
  | succ fuel ih =>
    by_cases hnil : w.pending s = []
    · exact ⟨s, [], by simp [Worklist.drain, hnil], hnil, by rwa [List.append_nil]⟩
    · have hpos : 0 < (w.pending s).length := List.length_pos_iff.mpr hnil
      have hlen : keys.length ≤ fuel + (done ++ w.pending s).length := by
        rw [List.length_append]
        omega
      obtain ⟨s', done', hrun, hempty, hinv⟩ := ih (h.round hs) hlen
      refine ⟨s', w.pending s ++ done', ?_, hempty, ?_⟩
      · rw [Worklist.drain, if_neg (by simpa using hnil)]
        exact hrun
      · rwa [← List.append_assoc]

end Sound

end Worklist

end ZRay
