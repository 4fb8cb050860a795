import Pvos.PipeThreads.ReadFile
import Pvos.Support.CString

/-!
# What `read_file` returns

The zero goes one byte behind the place where the string should end, so the
string of a file ends where the fresh memory happens to hold a zero.  A block
that is full, or full but one byte, has no room for it.
-/

namespace Pvos.PipeThreads

open Pvos.Support

/-- The pieces of a text file of less than `2 ^ 30` bytes. -/
structure ShortFile (pieces : List (List UInt8)) : Prop extends
    TextPieces pieces where
  small : pieces.flatten.length < 2 ^ 30

/-- How often the block grows for a file of this length. -/
def growths (len : ℕ) : ℕ :=
  Nat.find (⟨len, (Nat.lt_pow_self (by decide)).le.trans
    (Nat.le_mul_of_pos_left _ (by decide))⟩ : ∃ k, len ≤ blockSize k)

/-- The string that `%s` prints; the zero at `total_read + 1` ends it at the
latest. -/
def FileReading.printed (s : FileReading) : Text :=
  s.content.cstring (s.totalRead + 2).toNat 0

/-- The block holds the file and a zero behind it, written inside the block, and
its string is the file. -/
structure ReturnsFile (s : FileReading) (file : List UInt8) : Prop where
  front : s.content.bytes 0 s.totalRead.toNat = file
  zero : s.content s.totalRead.toNat = 0
  inside : s.totalRead + 1 < s.allocated
  string : s.printed = file

section Returned

variable {heap : Heap} {buf : Memory} {s : FileReading} {file : List UInt8}
  {pieces : List (List UInt8)}

theorem Sized.growths_eq (h : Sized heap s file file.length) :
    growths file.length = s.grown :=
  (Nat.find_eq_iff _).mpr
    ⟨h.fits, fun j hj => Nat.not_le_of_lt (h.least j hj)⟩

theorem Sized.readLoop (h : Sized heap s file file.length)
    (hpos : ∀ piece ∈ pieces, 0 < piece.length)
    (hlen : ∀ piece ∈ pieces, piece.length ≤ 512)
    (hlimit : file.length + pieces.flatten.length ≤ blockSize 13) :
    Sized heap (s.readLoop heap (wholeReads pieces)) (file ++ pieces.flatten)
      (file ++ pieces.flatten).length := by
  induction pieces generalizing s file with
  | nil =>
      have hnil : ([] : List UInt8).length ≤ 512 := Nat.zero_le _
      exact h.iteration hnil hlimit
  | cons piece pieces ih =>
      obtain ⟨hfirst, hrest⟩ := List.forall_mem_cons.mp hpos
      obtain ⟨hpiece, hpieces⟩ := List.forall_mem_cons.mp hlen
      rw [List.flatten_cons, List.length_append] at hlimit
      have hmore : 0 < (FileRead.data piece).bytesRead := by
        rw [FileRead.bytesRead]
        exact Int.natCast_pos.mpr hfirst
      have hnext := h.iteration hpiece (by omega)
      rw [wholeReads, List.map_cons, List.cons_append, FileReading.readLoop,
        if_pos hmore, List.flatten_cons, ← List.append_assoc]
      exact ih hnext hrest hpieces (by rw [List.length_append]; omega)

theorem ShortFile.sized (h : ShortFile pieces) (heap : Heap) (buf : Memory) :
    Sized heap ((FileReading.start heap buf).readLoop heap (wholeReads pieces))
      pieces.flatten pieces.flatten.length := by
  have hsmall := h.small
  refine (sized_start heap buf).readLoop h.pos h.length_le ?_
  rw [blockSize_last, List.length_nil]
  omega

/-- The zero has room in the block. -/
theorem Sized.inside_iff (h : Sized heap s file file.length) :
    s.totalRead + 1 < s.allocated ↔
      ∀ k, file.length ≠ blockSize k ∧ file.length + 1 ≠ blockSize k := by
  have hfits := h.fits
  rw [h.totalRead, h.allocated]
  constructor
  · intro hlt k
    rcases Nat.lt_trichotomy k s.grown with hk | rfl | hk
    · have hless := h.least k hk
      omega
    · omega
    · have hmore := blockSize_mono (Nat.succ_le_of_lt hk)
      have hsucc := blockSize_succ s.grown
      rw [Nat.succ_eq_add_one] at hmore
      omega
  · intro hall
    have hlast := hall s.grown
    omega

/-- The zero at `total_read + 1` touches neither the file nor the byte behind
it. -/
theorem Sized.terminated (h : Sized heap s file file.length) :
    s.terminated.content.bytes 0 file.length = file ∧
      s.terminated.content file.length = heap s.grown file.length := by
  have hindex : (s.totalRead + 1).toNat = file.length + 1 := by
    rw [h.totalRead]
    omega
  rw [FileReading.terminated]
  dsimp only
  rw [hindex]
  constructor
  · rw [Memory.bytes_write_of_disjoint _ _ (Or.inl (by omega)), h.front]
  · rw [Memory.write, if_neg (by omega), h.behind _ (Nat.le_refl _)]

theorem Sized.printed_iff (h : Sized heap s file file.length)
    (hnonzero : ∀ b ∈ file, b ≠ 0) :
    s.terminated.printed = file ↔ heap s.grown file.length = 0 := by
  obtain ⟨hfront, hbehind⟩ := h.terminated
  have hend : (s.terminated.totalRead + 2).toNat = file.length + 2 := by
    have htotal : s.terminated.totalRead = file.length := h.totalRead
    omega
  rw [FileReading.printed, hend,
    Memory.cstring_eq_iff hnonzero hfront (by omega), Nat.zero_add, hbehind]

theorem Sized.returns_iff (h : Sized heap s file file.length)
    (hnonzero : ∀ b ∈ file, b ≠ 0) :
    ReturnsFile s.terminated file ↔
      heap (growths file.length) file.length = 0 ∧
        ∀ k, file.length ≠ blockSize k ∧ file.length + 1 ≠ blockSize k := by
  obtain ⟨hfront, hbehind⟩ := h.terminated
  have htotal : s.terminated.totalRead.toNat = file.length := by
    have hread : s.terminated.totalRead = file.length := h.totalRead
    omega
  rw [h.growths_eq, ← h.inside_iff]
  constructor
  · intro hreturns
    exact ⟨(h.printed_iff hnonzero).mp hreturns.string, hreturns.inside⟩
  · rintro ⟨hzero, hinside⟩
    refine ⟨?_, ?_, hinside, (h.printed_iff hnonzero).mpr hzero⟩
    · rw [htotal, hfront]
    · rw [htotal, hbehind, hzero]

/-- The string begins with the file. -/
theorem Sized.begins_printed (h : Sized heap s file file.length)
    (hnonzero : ∀ b ∈ file, b ≠ 0) : file <+: s.terminated.printed := by
  have hend : file.length ≤ (s.terminated.totalRead + 2).toNat := by
    have htotal : s.terminated.totalRead = file.length := h.totalRead
    omega
  exact Memory.cstring_begins hnonzero h.terminated.1 (by omega)

end Returned

/-! ## `main` -/

/-- A thread of `main`: the memory it gets and the pieces of its file. -/
structure FileThread where
  heap : Heap
  buf : Memory
  pieces : List (List UInt8)

namespace FileThread

/-- What `pthread_join` gets from the thread. -/
def result (t : FileThread) : FileReading :=
  readFile t.heap t.buf (wholeReads t.pieces)

def file (t : FileThread) : List UInt8 := t.pieces.flatten

end FileThread

/-- What `main` prints: it joins the threads in the order of the arguments. -/
def filePrints (threads : List FileThread) : List UInt8 :=
  threads.flatMap fun t => t.result.printed

/-! ## Result -/

/-- `read_file` returns the file if and only if the memory held a zero behind
it, and the length is not that of a block or one less.  So there is no file that
it returns whatever the memory held.  `main` prints the files in the order of
the arguments if and only if each has its zero. -/
theorem read_file_returns_iff (threads : List FileThread)
    (hthreads : ∀ t ∈ threads, ShortFile t.pieces) :
    (∀ t ∈ threads, (ReturnsFile t.result t.file ↔
        t.heap (growths t.file.length) t.file.length = 0 ∧
          ∀ k, t.file.length ≠ blockSize k ∧
            t.file.length + 1 ≠ blockSize k) ∧
        ¬ ∀ heap, ReturnsFile (FileThread.result ⟨heap, t.buf, t.pieces⟩)
          t.file) ∧
      (filePrints threads = threads.flatMap FileThread.file ↔
        ∀ t ∈ threads, t.heap (growths t.file.length) t.file.length = 0) := by
  have hreturns : ∀ t : FileThread, ShortFile t.pieces →
      (ReturnsFile t.result t.file ↔
        t.heap (growths t.file.length) t.file.length = 0 ∧
          ∀ k, t.file.length ≠ blockSize k ∧
            t.file.length + 1 ≠ blockSize k) :=
    fun t ht => (ht.sized t.heap t.buf).returns_iff ht.flatten_ne_zero
  have hprinted : ∀ t : FileThread, ShortFile t.pieces →
      (t.result.printed = t.file ↔
        t.heap (growths t.file.length) t.file.length = 0) := by
    intro t ht
    have hsized := ht.sized t.heap t.buf
    have hiff := hsized.printed_iff ht.flatten_ne_zero
    rwa [← hsized.growths_eq] at hiff
  refine ⟨fun t ht => ⟨hreturns t (hthreads t ht), fun hall => ?_⟩, ?_⟩
  · have hzero := (hreturns ⟨fun _ _ => 1, t.buf, t.pieces⟩
      (hthreads t ht)).mp (hall _)
    have hone : (1 : UInt8) = 0 := hzero.1
    exact absurd hone (by decide)
  · constructor
    · intro hprints t ht
      rw [← hprinted t (hthreads t ht)]
      refine (eq_of_flatMap_eq (fun t ht => ?_) hprints.symm t ht).symm
      exact ((hthreads t ht).sized t.heap t.buf).begins_printed
        (hthreads t ht).flatten_ne_zero
    · intro hzero
      refine List.flatMap_congr fun t ht => ?_
      exact (hprinted t (hthreads t ht)).mpr (hzero t ht)

/-- A short file, and memory that holds `fill`. -/
def helloThread (fill : UInt8) : FileThread :=
  ⟨fun _ _ => fill, fun _ => 0, [ascii "hello\n"]⟩

theorem shortFile_hello (fill : UInt8) :
    ShortFile (helloThread fill).pieces := by
  have hpieces : (helloThread fill).pieces = [ascii "hello\n"] := rfl
  rw [hpieces]
  refine ⟨⟨by decide, by decide, ?_⟩, by decide⟩
  rw [List.forall_mem_singleton]
  exact ne_zero_of_all rfl

theorem read_file_returns_iff_zeroed :
    ReturnsFile (helloThread 0).result (ascii "hello\n") ∧
      filePrints [helloThread 0, helloThread 0] = ascii "hello\nhello\n" := by
  have hthreads : ∀ t ∈ [helloThread 0, helloThread 0], ShortFile t.pieces := by
    intro t ht
    obtain rfl : t = helloThread 0 := by simpa using ht
    exact shortFile_hello 0
  obtain ⟨hreturns, hprints⟩ := read_file_returns_iff _ hthreads
  refine ⟨(hreturns _ List.mem_cons_self).1.mpr ⟨rfl, fun k => ?_⟩,
    hprints.mpr ?_⟩
  · have hle := le_blockSize k
    have hlen : (helloThread 0).file.length = 6 := rfl
    omega
  · intro t ht
    obtain rfl : t = helloThread 0 := by simpa using ht
    rfl

/-- A file of `n` bytes, read one by one. -/
def singleBytes (n : ℕ) : List (List UInt8) := List.replicate n [49]

theorem length_singleBytes (n : ℕ) : (singleBytes n).flatten.length = n := by
  simp [singleBytes]

theorem shortFile_singleBytes {n : ℕ} (hn : n < 2 ^ 30) :
    ShortFile (singleBytes n) := by
  have hpiece : ∀ piece ∈ singleBytes n, piece = [49] :=
    fun piece => List.eq_of_mem_replicate
  refine ⟨⟨fun piece h => ?_, fun piece h => ?_, fun piece h => ?_⟩, ?_⟩
  · rw [hpiece piece h]
    decide
  · rw [hpiece piece h]
    decide
  · rw [hpiece piece h]
    exact ne_zero_of_all rfl
  · rwa [length_singleBytes]

/-- A block that is full but one byte has no room for the zero. -/
theorem not_returnsFile_singleBytes (heap : Heap) (buf : Memory) {n k : ℕ}
    (hn : n < 2 ^ 30) (hk : n + 1 = blockSize k) :
    ¬ ReturnsFile (FileThread.result ⟨heap, buf, singleBytes n⟩)
      (singleBytes n).flatten := by
  have hpieces := shortFile_singleBytes hn
  intro h
  have hreturns := ((hpieces.sized heap buf).returns_iff
    hpieces.flatten_ne_zero).mp h
  have hlength := (hreturns.2 k).2
  rw [length_singleBytes] at hlength
  exact hlength hk

/-- Memory that holds an `X` is printed behind the file; and the zero of a file
of 1027 bytes is written behind the block, also when all memory is zero. -/
theorem read_file_misses :
    (helloThread 88).result.printed = ascii "hello\nX" ∧
      ¬ ReturnsFile (helloThread 88).result (ascii "hello\n") ∧
      ¬ ReturnsFile
        (FileThread.result ⟨fun _ _ => 0, fun _ => 0, singleBytes 1027⟩)
        (singleBytes 1027).flatten := by
  have hprinted : (helloThread 88).result.printed = ascii "hello\nX" := by
    decide
  have hlast : 1027 + 1 = blockSize 0 := rfl
  exact ⟨hprinted, fun h => absurd (hprinted.symm.trans h.string) (by decide),
    not_returnsFile_singleBytes _ _ (by decide) hlast⟩

end Pvos.PipeThreads
