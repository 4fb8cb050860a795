import Mathlib.Data.List.GetD
import Mathlib.Data.List.Range
import Mathlib.Tactic.Common

/-!
# Byte memory

Buffers are functions from offsets to bytes, so that a bound is a statement
about the offsets used and not a side condition of every access.  `memcpy` and
`memset` act on ranges; `bytes` reads a range back.
-/

namespace Pvos.Support

/-- The bytes found from some address on. -/
abbrev Memory := ℕ → UInt8

namespace Memory

/-- The `len` bytes starting at `off`. -/
def bytes (m : Memory) (off len : ℕ) : List UInt8 :=
  (List.range len).map fun k => m (off + k)

/-- Copy `len` bytes from `src + srcOff` to `dst + dstOff`. -/
def memcpy (dst : Memory) (dstOff : ℕ) (src : Memory) (srcOff len : ℕ) :
    Memory := fun a =>
  if dstOff ≤ a ∧ a < dstOff + len then src (srcOff + (a - dstOff)) else dst a

/-- Set `len` bytes from `off` on to `b`. -/
def memset (m : Memory) (off : ℕ) (b : UInt8) (len : ℕ) : Memory := fun a =>
  if off ≤ a ∧ a < off + len then b else m a

/-- Write a list of bytes at `off`. -/
def write (m : Memory) (off : ℕ) (bs : List UInt8) : Memory := fun a =>
  if off ≤ a ∧ a < off + bs.length then bs.getD (a - off) 0 else m a

@[simp] theorem length_bytes (m : Memory) (off len : ℕ) :
    (m.bytes off len).length = len := by
  simp [bytes]

@[simp] theorem getElem_bytes (m : Memory) (off len i : ℕ)
    (h : i < (m.bytes off len).length) :
    (m.bytes off len)[i] = m (off + i) := by
  simp [bytes]

theorem bytes_congr {m m' : Memory} {off off' len : ℕ}
    (h : ∀ k < len, m (off + k) = m' (off' + k)) :
    m.bytes off len = m'.bytes off' len := by
  apply List.ext_getElem
  · simp
  · intro i hi _
    rw [length_bytes] at hi
    simpa using h i hi

theorem bytes_add (m : Memory) (off a b : ℕ) :
    m.bytes off (a + b) = m.bytes off a ++ m.bytes (off + a) b := by
  simp only [bytes, List.range_add, List.map_append, List.map_map]
  congr 1
  apply List.map_congr_left
  intro k _
  simp [Nat.add_assoc]

@[simp] theorem bytes_zero (m : Memory) (off : ℕ) : m.bytes off 0 = [] := rfl

theorem take_bytes (m : Memory) (off : ℕ) {len n : ℕ} (h : n ≤ len) :
    (m.bytes off len).take n = m.bytes off n := by
  rw [← Nat.add_sub_cancel' h, bytes_add]
  exact List.take_left' (length_bytes m off n)

theorem bytes_memcpy (dst : Memory) (dstOff : ℕ) (src : Memory)
    (srcOff len : ℕ) :
    (memcpy dst dstOff src srcOff len).bytes dstOff len =
      src.bytes srcOff len := by
  apply bytes_congr
  intro k hk
  simp [memcpy, hk]

/-- A copy leaves every range disjoint from its destination alone. -/
theorem bytes_memcpy_of_disjoint (dst : Memory) {dstOff : ℕ} (src : Memory)
    (srcOff : ℕ) {len off len' : ℕ}
    (h : off + len' ≤ dstOff ∨ dstOff + len ≤ off) :
    (memcpy dst dstOff src srcOff len).bytes off len' = dst.bytes off len' := by
  apply bytes_congr
  intro k hk
  have hout : ¬ (dstOff ≤ off + k ∧ off + k < dstOff + len) := by omega
  simp only [memcpy, if_neg hout]

theorem write_nil (m : Memory) (off : ℕ) : m.write off [] = m := by
  funext j
  have hout : ¬ (off ≤ j ∧ j < off + ([] : List UInt8).length) := by
    simp
  rw [write, if_neg hout]

/-- Bytes written are read back, followed by what was there before. -/
theorem bytes_write (m : Memory) (off : ℕ) {bs : List UInt8} {n : ℕ}
    (h : bs.length ≤ n) :
    (m.write off bs).bytes off n =
      bs ++ m.bytes (off + bs.length) (n - bs.length) := by
  apply List.ext_getElem
  · rw [length_bytes, List.length_append, length_bytes]
    omega
  · intro i hi _
    rw [length_bytes] at hi
    rw [getElem_bytes]
    by_cases hin : i < bs.length
    · rw [List.getElem_append_left hin]
      simp [write, hin]
    · rw [List.getElem_append_right (Nat.le_of_not_lt hin), getElem_bytes]
      have haddr : off + bs.length + (i - bs.length) = off + i := by omega
      simp [write, hin, haddr]

theorem bytes_write_take (m : Memory) (off : ℕ) {bs : List UInt8} {n : ℕ}
    (h : n ≤ bs.length) : (m.write off bs).bytes off n = bs.take n := by
  apply List.ext_getElem
  · simp [h]
  · intro i hi _
    rw [length_bytes] at hi
    have hlt : i < bs.length := by omega
    simp [write, hlt]

/-- A write leaves every range disjoint from it alone. -/
theorem bytes_write_of_disjoint (m : Memory) {off' : ℕ} (bs : List UInt8)
    {off len : ℕ} (h : off + len ≤ off' ∨ off' + bs.length ≤ off) :
    (m.write off' bs).bytes off len = m.bytes off len := by
  apply bytes_congr
  intro k hk
  have hout : ¬ (off' ≤ off + k ∧ off + k < off' + bs.length) := by omega
  simp only [write, if_neg hout]

/-- Copying from a buffer just written is writing. -/
theorem memcpy_write (dst src : Memory) (off srcOff : ℕ) {bs : List UInt8}
    {n : ℕ} (h : n ≤ bs.length) :
    memcpy dst off (src.write srcOff bs) srcOff n =
      dst.write off (bs.take n) := by
  funext a
  have hlen : (bs.take n).length = n := by simp [h]
  simp only [memcpy, write, hlen]
  split
  next ha =>
    have hlt : a - off < n := by omega
    have hin : srcOff ≤ srcOff + (a - off) ∧
        srcOff + (a - off) < srcOff + bs.length := by omega
    rw [if_pos hin, Nat.add_sub_cancel_left, List.getD_eq_getElem?_getD,
      List.getD_eq_getElem?_getD, List.getElem?_take_of_lt hlt]
  next => rfl

end Memory

end Pvos.Support
