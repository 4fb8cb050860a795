import Pvos.Support.Memory
import Pvos.Support.Text

/-!
# A buffer that grows

`read_file` of `pipe-threads-cv2/threads_file_read.cpp` reads a file in pieces
of up to 512 bytes.  It appends them to a block that becomes three times as
large when the next piece has no room.

The memory that `new` and `realloc` return holds anything; `heap k` is what the
`k`-th block holds, and what lies behind it.
-/

namespace Pvos.PipeThreads

open Pvos.Support

/-- What `read` returns: some bytes, none at the end of the file, or -1. -/
inductive FileRead
  | data (bytes : List UInt8)
  | failed
  deriving DecidableEq

/-- `bytes_read`. -/
def FileRead.bytesRead : FileRead → ℤ
  | .data bytes => bytes.length
  | .failed => -1

/-- The bytes that a `read` stores. -/
def FileRead.stored : FileRead → List UInt8
  | .data bytes => bytes
  | .failed => []

/-- Results of `read` on a file: its pieces and its end. -/
def wholeReads (pieces : List (List UInt8)) : List FileRead :=
  pieces.map .data ++ [.data []]

/-- The pieces of a text file, read into a buffer of 512 bytes. -/
structure TextPieces (pieces : List (List UInt8)) : Prop where
  pos : ∀ piece ∈ pieces, 0 < piece.length
  length_le : ∀ piece ∈ pieces, piece.length ≤ 512
  ne_zero : ∀ piece ∈ pieces, ∀ b ∈ piece, b ≠ 0

theorem TextPieces.flatten_ne_zero {pieces : List (List UInt8)}
    (h : TextPieces pieces) : ∀ b ∈ pieces.flatten, b ≠ 0 := by
  intro b hb
  obtain ⟨piece, hpiece, hb⟩ := List.mem_flatten.mp hb
  exact h.ne_zero piece hpiece b hb

/-- The variables of `read_file`, the size of the block at `content`, and how
often it has grown. -/
structure FileReading where
  contentSize : ℤ
  content : Memory
  totalRead : ℤ
  buf : Memory
  allocated : ℕ
  grown : ℕ

/-- The contents that the blocks come with. -/
abbrev Heap := ℕ → Memory

namespace FileReading

/-- The variables in front of the loop. -/
def start (heap : Heap) (buf : Memory) : FileReading where
  contentSize := 1028
  content := heap 0
  totalRead := 0
  buf := buf
  allocated := 1028
  grown := 0

/-- There is no room for the bytes read. -/
def Full (s : FileReading) (r : FileRead) : Prop :=
  s.contentSize < s.totalRead + r.bytesRead

instance (s : FileReading) (r : FileRead) : Decidable (s.Full r) :=
  inferInstanceAs (Decidable (_ < _))

/-- `content_size *= 3` and `realloc`. -/
def grow (heap : Heap) (s : FileReading) : FileReading :=
  let contentSize := toInt32 (s.contentSize * 3)
  let allocated := toSizeT contentSize
  { s with
    contentSize := contentSize
    content := fun a =>
      if a < min s.allocated allocated then s.content a
      else heap (s.grown + 1) a
    allocated := allocated
    grown := s.grown + 1 }

/-- The block that the bytes read are copied to. -/
def enlarged (heap : Heap) (s : FileReading) (r : FileRead) : FileReading :=
  if s.Full r then s.grow heap else s

/-- The body of the `do` loop. -/
def iteration (heap : Heap) (s : FileReading) (r : FileRead) : FileReading :=
  let buf := s.buf.write 0 r.stored
  let s := s.enlarged heap r
  { s with
    buf := buf
    content := s.content.memcpy s.totalRead.toNat buf 0 (toSizeT r.bytesRead)
    totalRead := s.totalRead + r.bytesRead }

/-- The `do` loop; it ends with a `read` that brings nothing. -/
def readLoop (heap : Heap) (s : FileReading) : List FileRead → FileReading
  | [] => s
  | r :: reads =>
      if 0 < r.bytesRead then (s.iteration heap r).readLoop heap reads
      else s.iteration heap r

/-- The iterations of the loop: what they start with and what they read. -/
def iterations (heap : Heap) (s : FileReading) :
    List FileRead → List (FileReading × FileRead)
  | [] => []
  | r :: reads =>
      (s, r) :: if 0 < r.bytesRead then
        (s.iteration heap r).iterations heap reads else []

/-- `content[total_read + 1] = 0`. -/
def terminated (s : FileReading) : FileReading :=
  { s with content := s.content.write (s.totalRead + 1).toNat [0] }

end FileReading

/-- `read_file` of a file that opens: its variables at `return`. -/
def readFile (heap : Heap) (buf : Memory) (reads : List FileRead) :
    FileReading :=
  ((FileReading.start heap buf).readLoop heap reads).terminated

/-! ## Sizes -/

/-- The size of the block that has grown `k` times. -/
def blockSize (k : ℕ) : ℕ := 1028 * 3 ^ k

theorem blockSize_succ (k : ℕ) : blockSize (k + 1) = blockSize k * 3 := by
  rw [blockSize, blockSize, Nat.pow_succ, Nat.mul_assoc]

theorem blockSize_mono {j k : ℕ} (h : j ≤ k) : blockSize j ≤ blockSize k :=
  Nat.mul_le_mul_left _ (Nat.pow_le_pow_right (by decide) h)

theorem le_blockSize (k : ℕ) : 1028 ≤ blockSize k :=
  blockSize_mono (Nat.zero_le k)

/-- The largest block whose size is an `int`. -/
theorem blockSize_last : blockSize 13 = 1638964044 := rfl

/-! ## The variables while the file is read -/

/-- The block has room for `n` bytes, but not before its last growth; it holds
the bytes read so far, and from byte `n` on what it came with. -/
structure Sized (heap : Heap) (s : FileReading) (file : List UInt8) (n : ℕ) :
    Prop where
  grown_le : s.grown ≤ 13
  contentSize : s.contentSize = blockSize s.grown
  allocated : s.allocated = blockSize s.grown
  totalRead : s.totalRead = file.length
  length_le : file.length ≤ n
  fits : n ≤ blockSize s.grown
  least : ∀ j < s.grown, blockSize j < n
  front : s.content.bytes 0 file.length = file
  behind : ∀ a, n ≤ a → s.content a = heap s.grown a

section Sized

variable {heap : Heap} {buf : Memory} {s : FileReading} {file chunk : List UInt8}
  {n : ℕ}

theorem sized_start (heap : Heap) (buf : Memory) :
    Sized heap (.start heap buf) [] 0 where
  grown_le := Nat.zero_le _
  contentSize := rfl
  allocated := rfl
  totalRead := rfl
  length_le := Nat.le_refl _
  fits := Nat.zero_le _
  least _ hj := absurd hj (Nat.not_lt_zero _)
  front := rfl
  behind _ _ := rfl

theorem Sized.full_iff (h : Sized heap s file file.length) :
    s.Full (.data chunk) ↔ blockSize s.grown < file.length + chunk.length := by
  rw [FileReading.Full, h.contentSize, h.totalRead, FileRead.bytesRead]
  omega

/-- Up to the largest block there is a growth left for the next bytes. -/
theorem Sized.grown_lt (h : Sized heap s file file.length)
    (hfull : s.Full (.data chunk))
    (hlimit : file.length + chunk.length ≤ blockSize 13) : s.grown < 13 := by
  rw [h.full_iff] at hfull
  refine Nat.lt_of_le_of_ne h.grown_le fun hlast => ?_
  rw [hlast] at hfull
  omega

/-- The size of the next block is an `int`. -/
theorem Sized.tripled (h : Sized heap s file n) (hlt : s.grown < 13) :
    s.contentSize * 3 = blockSize (s.grown + 1) ∧
      blockSize (s.grown + 1) < 2 ^ 31 := by
  have hmost := blockSize_mono (show s.grown + 1 ≤ 13 from hlt)
  rw [blockSize_last] at hmost
  refine ⟨?_, hmost.trans_lt (by decide)⟩
  rw [h.contentSize, blockSize_succ]
  rfl

/-- The sizes behind a growth that an `int` can hold. -/
theorem Sized.grow_size (h : Sized heap s file n) (hlt : s.grown < 13) :
    (s.grow heap).contentSize = blockSize (s.grown + 1) ∧
      (s.grow heap).allocated = blockSize (s.grown + 1) := by
  obtain ⟨htripled, hmost⟩ := h.tripled hlt
  have hint : toInt32 (s.contentSize * 3) = blockSize (s.grown + 1) := by
    rw [htripled, toInt32_of_fits] <;> omega
  refine ⟨hint, ?_⟩
  rw [FileReading.grow, hint]
  exact toSizeT_natCast (by omega)

/-- `realloc` keeps the block and comes with anything behind it. -/
theorem Sized.grow_content (h : Sized heap s file n)
    (hlt : s.grown < 13) (a : ℕ) :
    (s.grow heap).content a =
      if a < blockSize s.grown then s.content a else heap (s.grown + 1) a := by
  have hmin : min s.allocated (s.grow heap).allocated = blockSize s.grown := by
    rw [h.allocated, (h.grow_size hlt).2, blockSize_succ]
    omega
  rw [← hmin]
  rfl

/-- One growth is enough for the next bytes. -/
theorem Sized.enlarged (h : Sized heap s file file.length)
    (hlen : chunk.length ≤ 512)
    (hlimit : file.length + chunk.length ≤ blockSize 13) :
    Sized heap (s.enlarged heap (.data chunk)) file
      (file.length + chunk.length) := by
  have hroom := h.fits
  by_cases hfull : s.Full (.data chunk)
  · rw [FileReading.enlarged, if_pos hfull]
    have hlt := h.grown_lt hfull hlimit
    rw [h.full_iff] at hfull
    have hsucc := blockSize_succ s.grown
    have hleast := le_blockSize s.grown
    obtain ⟨hcontentSize, hallocated⟩ := h.grow_size hlt
    constructor
    · exact hlt
    · exact hcontentSize
    · exact hallocated
    · exact h.totalRead
    · exact Nat.le_add_right _ _
    · rw [FileReading.grow]
      dsimp only
      omega
    · intro j hj
      exact (blockSize_mono (Nat.le_of_lt_succ hj)).trans_lt hfull
    · refine Eq.trans (Memory.bytes_congr fun a ha => ?_) h.front
      rw [h.grow_content hlt, if_pos (by omega)]
    · intro a ha
      rw [h.grow_content hlt, if_neg (by omega)]
      rfl
  · rw [FileReading.enlarged, if_neg hfull]
    rw [h.full_iff] at hfull
    exact { h with
      length_le := Nat.le_add_right _ _
      fits := Nat.le_of_not_lt hfull
      least := fun j hj => (h.least j hj).trans_le (Nat.le_add_right _ _)
      behind := fun a ha => h.behind a ((Nat.le_add_right _ _).trans ha) }

theorem Sized.iteration (h : Sized heap s file file.length)
    (hlen : chunk.length ≤ 512)
    (hlimit : file.length + chunk.length ≤ blockSize 13) :
    Sized heap (s.iteration heap (.data chunk)) (file ++ chunk)
      (file ++ chunk).length := by
  have henlarged := h.enlarged hlen hlimit
  have hcount : toSizeT (FileRead.data chunk).bytesRead = chunk.length :=
    toSizeT_natCast (hlen.trans_lt (by decide))
  have hcontent : (s.iteration heap (.data chunk)).content =
      (s.enlarged heap (.data chunk)).content.write file.length chunk := by
    rw [FileReading.iteration]
    dsimp only
    rw [hcount, henlarged.totalRead, Int.toNat_natCast, FileRead.stored,
      Memory.memcpy_write _ _ _ _ (Nat.le_refl _), List.take_length]
  rw [List.length_append]
  refine { henlarged with
    totalRead := ?_, length_le := ?_, front := ?_, behind := fun a ha => ?_ }
  · rw [FileReading.iteration]
    dsimp only
    rw [henlarged.totalRead, FileRead.bytesRead, List.length_append,
      Nat.cast_add]
  · rw [List.length_append]
  · rw [hcontent, List.length_append, Memory.bytes_add,
      Memory.bytes_write_of_disjoint _ _ (Or.inl (by omega)), henlarged.front,
      Nat.zero_add, Memory.bytes_write_take _ _ (Nat.le_refl _),
      List.take_length]
  · rw [hcontent, Memory.write, if_neg (by omega)]
    exact henlarged.behind a ha

end Sized

end Pvos.PipeThreads
