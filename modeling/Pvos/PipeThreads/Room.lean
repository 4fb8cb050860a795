import Pvos.PipeThreads.ReadFile

/-!
# Room for the next bytes

Whatever was read, the length goes to `memcpy` as a `size_t`, also when it is
-1.  A block grows at most once for a `read`, which is enough as long as three
times its size is an `int`.
-/

namespace Pvos.PipeThreads

open Pvos.Support

/-- An iteration copies what it read to a block that has room for it, and its
`content_size` does not overflow. -/
structure HasRoom (heap : Heap) (s : FileReading) (r : FileRead) : Prop where
  no_overflow : s.Full r → s.contentSize * 3 < 2 ^ 31
  count : toSizeT r.bytesRead = r.stored.length
  room : s.totalRead + toSizeT r.bytesRead ≤ (s.enlarged heap r).allocated

/-- The calls of `read` that the loop makes. -/
def readsMade : List FileRead → List FileRead
  | [] => []
  | r :: reads => r :: if 0 < r.bytesRead then readsMade reads else []

theorem readsMade_of_pos {reads : List FileRead}
    (h : ∀ r ∈ reads, 0 < r.bytesRead) : readsMade reads = reads := by
  induction reads with
  | nil => rfl
  | cons r reads ih =>
      obtain ⟨hfirst, hrest⟩ := List.forall_mem_cons.mp h
      rw [readsMade, if_pos hfirst, ih hrest]

section Room

variable {heap : Heap} {s : FileReading} {file chunk : List UInt8}

/-- A failed `read` is followed by a copy of `2 ^ 64 - 1` bytes. -/
theorem not_hasRoom_failed : ¬ HasRoom heap s .failed :=
  fun h => absurd h.count (by decide)

theorem Sized.hasRoom_iff (h : Sized heap s file file.length)
    (hlen : chunk.length ≤ 512) :
    HasRoom heap s (.data chunk) ↔
      file.length + chunk.length ≤ blockSize 13 := by
  constructor
  · intro hroom
    by_contra hlimit
    have hfits := h.fits
    have hlast : s.grown = 13 := by
      by_contra hne
      have hle := h.grown_le
      have hmost := blockSize_mono (show s.grown ≤ 12 by omega)
      rw [blockSize_last] at hlimit
      have htwelve : blockSize 12 = 546321348 := rfl
      omega
    have hint := hroom.no_overflow (h.full_iff.mpr (by rw [hlast]; omega))
    rw [h.contentSize, hlast, blockSize_last] at hint
    omega
  · intro hlimit
    have henlarged := h.enlarged hlen hlimit
    have hcount : toSizeT (FileRead.data chunk).bytesRead = chunk.length :=
      toSizeT_natCast (hlen.trans_lt (by decide))
    constructor
    · intro hfull
      obtain ⟨htripled, hmost⟩ := h.tripled (h.grown_lt hfull hlimit)
      rw [htripled]
      exact_mod_cast hmost
    · exact hcount
    · have hfits := henlarged.fits
      rw [hcount, h.totalRead, henlarged.allocated]
      omega

theorem Sized.iterations_iff {reads : List FileRead}
    (h : Sized heap s file file.length)
    (hlen : ∀ r ∈ reads, r.stored.length ≤ 512) :
    (∀ p ∈ s.iterations heap reads, HasRoom heap p.1 p.2) ↔
      (∀ r ∈ readsMade reads, r ≠ .failed) ∧
        file.length + ((readsMade reads).flatMap FileRead.stored).length ≤
          blockSize 13 := by
  induction reads generalizing s file with
  | nil =>
      have hle := h.fits.trans (blockSize_mono h.grown_le)
      simpa [FileReading.iterations, readsMade] using hle
  | cons r reads ih =>
      obtain ⟨hfirst, hrest⟩ := List.forall_mem_cons.mp hlen
      rw [FileReading.iterations, readsMade, List.forall_mem_cons,
        List.forall_mem_cons, List.flatMap_cons, List.length_append]
      cases r with
      | failed =>
          simp only [ne_eq, not_true_eq_false, false_and, iff_false, not_and]
          exact fun hroom => absurd hroom not_hasRoom_failed
      | data chunk =>
          have hchunk : chunk.length ≤ 512 := hfirst
          have hstored : (FileRead.data chunk).stored = chunk := rfl
          dsimp only
          rw [h.hasRoom_iff hchunk, hstored]
          by_cases hmore : 0 < (FileRead.data chunk).bytesRead
          · rw [if_pos hmore, if_pos hmore]
            constructor
            · rintro ⟨hlimit, hall⟩
              obtain ⟨hreads, hsum⟩ :=
                (ih (h.iteration hchunk hlimit) hrest).mp hall
              rw [List.length_append] at hsum
              exact ⟨⟨FileRead.noConfusion, hreads⟩, by omega⟩
            · rintro ⟨⟨-, hreads⟩, hsum⟩
              have hlimit : file.length + chunk.length ≤ blockSize 13 := by
                omega
              refine ⟨hlimit, (ih (h.iteration hchunk hlimit) hrest).mpr
                ⟨hreads, ?_⟩⟩
              rw [List.length_append]
              omega
          · rw [if_neg hmore, if_neg hmore]
            simp

end Room

/-- A full piece of a file. -/
def fullRead : FileRead := .data (List.replicate 512 49)

theorem length_fullRead : fullRead.stored.length = 512 :=
  List.length_replicate

theorem bytesRead_fullRead : fullRead.bytesRead = 512 :=
  congrArg Nat.cast length_fullRead

/-- Two full pieces and five bytes. -/
def longReads : List FileRead :=
  [fullRead, fullRead, .data (ascii "hello"), .data []]

/-- Every copy has room and the length of what was read, and `content_size`
stays an `int`, if and only if no `read` fails and the file is no longer than
the largest block. -/
theorem buffer_has_room_iff (heap : Heap) (buf : Memory) (reads : List FileRead)
    (hlen : ∀ r ∈ reads, r.stored.length ≤ 512) :
    (∀ p ∈ (FileReading.start heap buf).iterations heap reads,
        HasRoom heap p.1 p.2) ↔
      (∀ r ∈ readsMade reads, r ≠ .failed) ∧
        ((readsMade reads).flatMap FileRead.stored).length ≤ 1638964044 := by
  rw [(sized_start heap buf).iterations_iff hlen, List.length_nil, Nat.zero_add,
    blockSize_last]

/-- The last five bytes have room in a block that has grown. -/
theorem buffer_has_room_iff_grown :
    (∃ p ∈ (FileReading.start (fun _ _ => 0) fun _ => 0).iterations
        (fun _ _ => 0) longReads, p.1.Full p.2) ∧
      ∀ p ∈ (FileReading.start (fun _ _ => 0) fun _ => 0).iterations
        (fun _ _ => 0) longReads, HasRoom (fun _ _ => 0) p.1 p.2 := by
  have hpos : 0 < fullRead.bytesRead := by
    rw [bytesRead_fullRead]
    decide
  have hfive : 0 < (FileRead.data (ascii "hello")).bytesRead := by decide
  constructor
  · rw [longReads, FileReading.iterations, if_pos hpos, FileReading.iterations,
      if_pos hpos, FileReading.iterations]
    exact ⟨_, .tail _ (.tail _ (.head _)), by decide +kernel⟩
  · have hdata : fullRead ≠ .failed := by
      intro h
      rw [h] at hpos
      exact absurd hpos (by decide)
    have hmade : readsMade longReads = longReads := by
      rw [longReads, readsMade, if_pos hpos, readsMade, if_pos hpos, readsMade,
        if_pos hfive]
      rfl
    have hlen : ∀ r ∈ longReads, r.stored.length ≤ 512 := by
      simp only [longReads, List.forall_mem_cons, length_fullRead]
      decide
    refine (buffer_has_room_iff _ _ _ hlen).mpr ?_
    rw [hmade]
    simp only [longReads, List.forall_mem_cons, List.flatMap_cons,
      List.length_append, length_fullRead]
    exact ⟨⟨hdata, hdata, by decide⟩, by decide⟩

/-- Full pieces that are together longer than the largest block. -/
theorem not_hasRoom_fullReads (heap : Heap) (buf : Memory) {n : ℕ}
    (hn : 1638964044 < n * 512) :
    ¬ ∀ p ∈ (FileReading.start heap buf).iterations heap
      (List.replicate n fullRead), HasRoom heap p.1 p.2 := by
  have hread : ∀ r ∈ List.replicate n fullRead, r = fullRead :=
    fun r => List.eq_of_mem_replicate
  have hpos : 0 < fullRead.bytesRead := by
    have hlen := length_fullRead
    rw [fullRead, FileRead.stored] at hlen
    rw [fullRead, FileRead.bytesRead, hlen]
    decide
  have hmade := readsMade_of_pos fun r hr => hread r hr ▸ hpos
  have hlen : ∀ r ∈ List.replicate n fullRead, r.stored.length ≤ 512 :=
    fun r hr => hread r hr ▸ length_fullRead.le
  rw [(sized_start heap buf).iterations_iff hlen, hmade, List.length_flatMap,
    List.map_replicate, List.sum_replicate_nat, length_fullRead,
    blockSize_last]
  rintro ⟨-, hsum⟩
  rw [List.length_nil, Nat.zero_add] at hsum
  exact absurd hn (Nat.not_lt.mpr hsum)

/-- The first `read` fails, or the file is too long. -/
theorem buffer_overruns :
    (¬ ∀ p ∈ (FileReading.start (fun _ _ => 0) fun _ => 0).iterations
        (fun _ _ => 0) [.failed], HasRoom (fun _ _ => 0) p.1 p.2) ∧
      ¬ ∀ p ∈ (FileReading.start (fun _ _ => 0) fun _ => 0).iterations
        (fun _ _ => 0) (List.replicate 3201102 fullRead),
        HasRoom (fun _ _ => 0) p.1 p.2 :=
  ⟨fun h => not_hasRoom_failed (h _ (List.mem_singleton.mpr rfl)),
    not_hasRoom_fullReads _ _ (by omega)⟩

end Pvos.PipeThreads
