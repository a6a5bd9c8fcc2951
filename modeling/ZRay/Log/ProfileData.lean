import Mathlib.Data.List.GetD
import Mathlib.Data.UInt
import ZRay.ByteStream

/-!
# Profile data

`ProfileData` as both programs share it, its bytes in memory, which the pass writes to the log as they are, and the
checksum over them.
-/

namespace ZRay

open ByteStream

/-- `ProfileData` of `zray_data.h`: the ids of a counter and the instruction mix of the blocks it counts. -/
structure ProfileData where
  postDomSetID : UInt64 := 0
  pragmaRegionID : UInt64 := 0
  groupNumber : UInt64 := 0
  storeCount : UInt64 := 0
  floatStoreCount : UInt64 := 0
  loadCount : UInt64 := 0
  floatLoadCount : UInt64 := 0
  bytesRead : UInt64 := 0
  bytesWritten : UInt64 := 0
  intInstructionCount : UInt64 := 0
  fpInstructionCount : UInt64 := 0
  termInstructionCount : UInt64 := 0
  memInstructionCount : UInt64 := 0
  castInstructionCount : UInt64 := 0
  globalOpReadCount : UInt64 := 0
  globalOpWriteCount : UInt64 := 0
  stackReadCount : UInt64 := 0
  stackWriteCount : UInt64 := 0
  heapReadCount : UInt64 := 0
  heapWriteCount : UInt64 := 0
  otherInstCount : UInt64 := 0
  intrinsicLoad : UInt64 := 0
  intrinsicStore : UInt64 := 0
  totalInstCount : UInt64 := 0
  counterInstCount : UInt64 := 0
  splitCounters : UInt64 := 0
  isIndirect : Bool := false
  enableMIRPass : Bool := false
  deriving DecidableEq, Repr

/-- `checksum`: the bytes as signed characters, widened to `int`, under exclusive or. -/
def checksum (data : List UInt8) : Int32 := data.foldl (fun sum b => sum ^^^ b.toInt8.toInt32) 0

theorem foldl_checksum (data : List UInt8) (sum : Int32) :
    data.foldl (fun sum b => sum ^^^ b.toInt8.toInt32) sum = sum ^^^ checksum data := by
  induction data generalizing sum with
  | nil => simp [checksum]
  | cons b data ih => rw [checksum, List.foldl_cons, List.foldl_cons, ih, ih, Int32.zero_xor, Int32.xor_assoc]

theorem checksum_cons (b : UInt8) (data : List UInt8) :
    checksum (b :: data) = b.toInt8.toInt32 ^^^ checksum data := by
  rw [checksum, List.foldl_cons, foldl_checksum, Int32.zero_xor]

theorem checksum_append (data data' : List UInt8) : checksum (data ++ data') = checksum data ^^^ checksum data' := by
  rw [checksum, List.foldl_append, foldl_checksum]
  rfl

theorem toInt32_inj {b b' : UInt8} (h : b.toInt8.toInt32 = b'.toInt8.toInt32) : b = b' := by
  have h₈ : b.toInt8 = b'.toInt8 := by
    rw [← Int8.toInt8_toInt32 b.toInt8, h, Int8.toInt8_toInt32]
  rw [← UInt8.toUInt8_toInt8 b, h₈, UInt8.toUInt8_toInt8]

/-- A checksum over exclusive or notices the change of a single byte. -/
theorem checksum_set_ne {data : List UInt8} {j : Nat} {b : UInt8} (hj : j < data.length) (hb : data[j] ≠ b) :
    checksum (data.set j b) ≠ checksum data := by
  have hsplit : data = data.take j ++ data[j] :: data.drop (j + 1) := by
    rw [← List.drop_eq_getElem_cons hj, List.take_append_drop]
  have hone : ∀ b : UInt8, checksum (data.take j ++ b :: data.drop (j + 1)) =
      checksum (data.take j) ^^^ (b.toInt8.toInt32 ^^^ checksum (data.drop (j + 1))) := by
    intro b
    rw [checksum_append, checksum_cons]
  intro h
  rw [List.set_eq_take_append_cons_drop, if_pos hj, hone] at h
  conv at h => rhs; rw [hsplit, hone]
  rw [Int32.xor_right_inj, Int32.xor_left_inj] at h
  exact hb (toInt32_inj h).symm

namespace ProfileData

/-- `sizeof(ProfileData)`: 26 words, two `bool`s and the padding up to the alignment of a word. -/
def size : Nat := 216

/-- The members of type `size_t`, in memory order. -/
def words (p : ProfileData) : List UInt64 :=
  [
    p.postDomSetID, p.pragmaRegionID, p.groupNumber, p.storeCount, p.floatStoreCount, p.loadCount,
    p.floatLoadCount, p.bytesRead, p.bytesWritten, p.intInstructionCount, p.fpInstructionCount,
    p.termInstructionCount, p.memInstructionCount, p.castInstructionCount, p.globalOpReadCount,
    p.globalOpWriteCount, p.stackReadCount, p.stackWriteCount, p.heapReadCount, p.heapWriteCount,
    p.otherInstCount, p.intrinsicLoad, p.intrinsicStore, p.totalInstCount, p.counterInstCount, p.splitCounters]

def boolByte (b : Bool) : UInt8 := if b then 1 else 0

/-- The bytes of a profile in memory; the padding holds whatever was there. -/
def toBytes (p : ProfileData) (padding : Vector UInt8 6) : List UInt8 :=
  words64 p.words ++ boolByte p.isIndirect :: boolByte p.enableMIRPass :: padding.toList

/-- The profile whose bytes these are. -/
def ofBytes (b : List UInt8) : ProfileData where
  postDomSetID := wordAt b 0
  pragmaRegionID := wordAt b 1
  groupNumber := wordAt b 2
  storeCount := wordAt b 3
  floatStoreCount := wordAt b 4
  loadCount := wordAt b 5
  floatLoadCount := wordAt b 6
  bytesRead := wordAt b 7
  bytesWritten := wordAt b 8
  intInstructionCount := wordAt b 9
  fpInstructionCount := wordAt b 10
  termInstructionCount := wordAt b 11
  memInstructionCount := wordAt b 12
  castInstructionCount := wordAt b 13
  globalOpReadCount := wordAt b 14
  globalOpWriteCount := wordAt b 15
  stackReadCount := wordAt b 16
  stackWriteCount := wordAt b 17
  heapReadCount := wordAt b 18
  heapWriteCount := wordAt b 19
  otherInstCount := wordAt b 20
  intrinsicLoad := wordAt b 21
  intrinsicStore := wordAt b 22
  totalInstCount := wordAt b 23
  counterInstCount := wordAt b 24
  splitCounters := wordAt b 25
  isIndirect := b.getD 208 0 != 0
  enableMIRPass := b.getD 209 0 != 0

variable (p : ProfileData) (padding : Vector UInt8 6)

@[simp] theorem length_toBytes : (p.toBytes padding).length = size := by
  simp [toBytes, words, size]

theorem boolByte_ne_zero (b : Bool) : (boolByte b != 0) = b := by
  cases b <;> rfl

theorem ofBytes_toBytes : ofBytes (p.toBytes padding) = p := by
  have hword : ∀ i (h : i < p.words.length), wordAt (p.toBytes padding) i = p.words[i] :=
    fun i h => wordAt_words64 p.words _ h
  have hlen : (words64 p.words).length = 208 := by simp [words]
  have hindirect : (p.toBytes padding).getD 208 0 = boolByte p.isIndirect := by
    rw [toBytes, List.getD_append_right _ _ _ _ (by omega), hlen]
    rfl
  have hmir : (p.toBytes padding).getD 209 0 = boolByte p.enableMIRPass := by
    rw [toBytes, List.getD_append_right _ _ _ _ (by omega), hlen]
    rfl
  have hwords : ∀ i, i < 26 → wordAt (p.toBytes padding) i = p.words.getD i 0 := by
    intro i hi
    rw [hword i (by simpa [words] using hi), List.getD_eq_getElem]
  simp only [ofBytes, hindirect, hmir, boolByte_ne_zero, hwords, Nat.reduceLT]
  rfl

end ProfileData

end ZRay
