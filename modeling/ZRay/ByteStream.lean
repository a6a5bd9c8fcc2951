import Mathlib.Data.List.Basic
import Mathlib.Algebra.Order.Ring.Nat

/-!
# Little-endian words and byte streams

Fixed-width words as bytes, least significant first, and an input stream in the manner of `std::istream::read`: a read
takes exactly as many bytes as its buffer holds, or fails, and a failed stream reads nothing more.  A stream that
starts with what was written reads it back and is left at what follows.
-/

namespace ByteStream

/-! ### Words -/

/-- The `w` low bytes of `n`, the lowest first. -/
def leBytes : Nat → Nat → List UInt8
  | 0, _ => []
  | w + 1, n => UInt8.ofNat n :: leBytes w (n / 256)

/-- The number the bytes denote, the lowest first. -/
def ofLEBytes : List UInt8 → Nat
  | [] => 0
  | b :: bs => b.toNat + 256 * ofLEBytes bs

@[simp] theorem length_leBytes (w n : Nat) : (leBytes w n).length = w := by
  induction w generalizing n with
  | zero => rfl
  | succ w ih => simp [leBytes, ih]

theorem ofLEBytes_leBytes (w n : Nat) : ofLEBytes (leBytes w n) = n % 256 ^ w := by
  induction w generalizing n with
  | zero => simp [leBytes, ofLEBytes, Nat.mod_one]
  | succ w ih =>
    have hbyte : (UInt8.ofNat n).toNat = n % 256 := by simp
    rw [leBytes, ofLEBytes, ih, hbyte, pow_succ', Nat.mod_mul]

theorem ofLEBytes_leBytes_of_lt {w n : Nat} (h : n < 256 ^ w) : ofLEBytes (leBytes w n) = n := by
  rw [ofLEBytes_leBytes, Nat.mod_eq_of_lt h]

/-- A word of 64 bits read from eight bytes. -/
def word64 (b : List UInt8) : UInt64 := UInt64.ofNat (ofLEBytes b)

/-- A word of 32 bits read from four bytes. -/
def word32 (b : List UInt8) : UInt32 := UInt32.ofNat (ofLEBytes b)

@[simp] theorem word64_leBytes (x : UInt64) : word64 (leBytes 8 x.toNat) = x := by
  rw [word64, ofLEBytes_leBytes_of_lt (by have := x.toNat_lt; omega), UInt64.ofNat_toNat]

@[simp] theorem word32_leBytes (x : UInt32) : word32 (leBytes 4 x.toNat) = x := by
  rw [word32, ofLEBytes_leBytes_of_lt (by have := x.toNat_lt; omega), UInt32.ofNat_toNat]

/-! ### Words one after the other -/

/-- The bytes of words of 64 bits, in order. -/
def words64 (ws : List UInt64) : List UInt8 := ws.flatMap fun x => leBytes 8 x.toNat

@[simp] theorem words64_cons (x : UInt64) (ws : List UInt64) :
    words64 (x :: ws) = leBytes 8 x.toNat ++ words64 ws := rfl

@[simp] theorem length_words64 (ws : List UInt64) : (words64 ws).length = 8 * ws.length := by
  induction ws with
  | nil => rfl
  | cons x ws ih =>
    rw [words64_cons, List.length_append, length_leBytes, ih, List.length_cons]
    omega

/-- The word of 64 bits at position `i`, counted in words. -/
def wordAt (b : List UInt8) (i : Nat) : UInt64 := word64 ((b.drop (8 * i)).take 8)

theorem wordAt_words64 (ws : List UInt64) (tail : List UInt8) {i : Nat} (h : i < ws.length) :
    wordAt (words64 ws ++ tail) i = ws[i] := by
  induction ws generalizing i with
  | nil => simp at h
  | cons x ws ih =>
    cases i with
    | zero =>
      have htake : ((words64 (x :: ws) ++ tail).drop (8 * 0)).take 8 = leBytes 8 x.toNat := by
        rw [words64_cons, List.append_assoc, Nat.mul_zero, List.drop_zero]
        exact List.take_left' (length_leBytes 8 _)
      rw [wordAt, htake, word64_leBytes, List.getElem_cons_zero]
    | succ i =>
      have hdrop : (words64 (x :: ws) ++ tail).drop (8 * (i + 1)) = (words64 ws ++ tail).drop (8 * i) := by
        rw [words64_cons, List.append_assoc, show 8 * (i + 1) = 8 + 8 * i by omega, ← List.drop_drop,
          List.drop_left' (length_leBytes 8 _)]
      have hi : i < ws.length := by simpa using h
      rw [wordAt, hdrop, ← wordAt, ih hi, List.getElem_cons_succ]

end ByteStream

/-! ### Streams -/

/-- An input stream: the bytes not read yet, and whether an earlier read failed. -/
structure ByteStream where
  rest : List UInt8
  fail : Bool
  deriving DecidableEq, Repr

namespace ByteStream

/-- A stream opened on the given bytes. -/
def ofBytes (bytes : List UInt8) : ByteStream := ⟨bytes, false⟩

/-- `read` into a buffer of the size to be read.  A read that runs out of bytes keeps the end of the buffer. -/
def read (s : ByteStream) (buf : List UInt8) : ByteStream × List UInt8 :=
  if s.fail then (s, buf)
  else if buf.length ≤ s.rest.length then (⟨s.rest.drop buf.length, false⟩, s.rest.take buf.length)
  else (⟨[], true⟩, s.rest ++ buf.drop s.rest.length)

/-- A read of as many bytes as a piece in front has returns the piece. -/
theorem read_append {piece rest buf : List UInt8} (h : buf.length = piece.length) :
    read (ofBytes (piece ++ rest)) buf = (ofBytes rest, piece) := by
  have hle : buf.length ≤ (piece ++ rest).length := by rw [List.length_append]; omega
  rw [read, ofBytes, if_neg (by simp), if_pos hle, List.drop_left' h.symm, List.take_left' h.symm, ofBytes]

theorem read_nil {buf : List UInt8} (h : buf ≠ []) : read (ofBytes []) buf = (⟨[], true⟩, buf) := by
  have hlen : ¬ buf.length ≤ 0 := by simpa using h
  simp [read, ofBytes, hlen]

@[simp] theorem length_read (s : ByteStream) (buf : List UInt8) : (s.read buf).2.length = buf.length := by
  unfold read
  split
  · rfl
  · split
    · rename_i hle
      simpa using hle
    · simp only [List.length_append, List.length_drop]
      omega

theorem rest_read_le (s : ByteStream) (buf : List UInt8) : (s.read buf).1.rest.length ≤ s.rest.length := by
  unfold read
  split
  · exact le_rfl
  · split
    · simp
    · simp

/-- A read that succeeds takes its bytes off the stream. -/
theorem rest_read_of_not_fail {s : ByteStream} {buf : List UInt8} (h : (s.read buf).1.fail = false) :
    (s.read buf).1.rest.length + buf.length = s.rest.length := by
  unfold read at h ⊢
  split at h
  · rename_i hfail
    simp [hfail] at h
  · rename_i hfail
    split at h
    · rename_i hle
      simp only [hfail, hle, ↓reduceIte, Bool.false_eq_true, List.length_drop]
      omega
    · simp at h

/-- A read that succeeds does not depend on what the buffer held. -/
theorem read_congr {s : ByteStream} {buf buf' : List UInt8} (hbuf : buf.length = buf'.length) (hfail : s.fail = false)
    (hle : buf.length ≤ s.rest.length) : s.read buf = s.read buf' := by
  have hle' : buf'.length ≤ s.rest.length := hbuf ▸ hle
  have hne : ¬ s.fail = true := by simp [hfail]
  unfold read
  rw [if_neg hne, if_neg hne, if_pos hle, if_pos hle', hbuf]

/-! ### Reads that may run short -/

/-- A stream that failed ran out of bytes. -/
def Drained (s : ByteStream) : Prop := s.fail = true → s.rest = []

theorem drained_ofBytes (bytes : List UInt8) : (ofBytes bytes).Drained := by
  simp [Drained, ofBytes]

theorem fail_read (s : ByteStream) (buf : List UInt8) :
    (s.read buf).1.fail = (s.fail || decide (s.rest.length < buf.length)) := by
  unfold read
  split
  · rename_i hfail
    simp [hfail]
  · rename_i hfail
    split
    · rename_i hle
      simp [hfail, hle]
    · rename_i hlt
      simp only [Bool.true_eq, Bool.or_eq_true, decide_eq_true_eq]
      exact Or.inr (by omega)

section

variable {s : ByteStream} (hs : s.Drained) (buf : List UInt8)
include hs

theorem rest_read : (s.read buf).1.rest = s.rest.drop buf.length := by
  unfold read
  split
  · rename_i hfail
    simp [hs hfail]
  · split
    · rfl
    · rename_i hlt
      exact (List.drop_eq_nil_of_le (by omega)).symm

/-- The buffer after a read: what there was to read, and the end of what it held before. -/
theorem snd_read : (s.read buf).2 = s.rest.take buf.length ++ buf.drop s.rest.length := by
  unfold read
  split
  · rename_i hfail
    simp [hs hfail]
  · split
    · rename_i hle
      simp [List.drop_eq_nil_of_le hle]
    · rename_i hlt
      rw [List.take_of_length_le (by omega)]

theorem Drained.read : (s.read buf).1.Drained := by
  intro hfail
  rw [fail_read, Bool.or_eq_true, decide_eq_true_eq] at hfail
  rw [rest_read hs]
  rcases hfail with hfail | hlt
  · simp [hs hfail]
  · exact List.drop_eq_nil_of_le (by omega)

end

end ByteStream
