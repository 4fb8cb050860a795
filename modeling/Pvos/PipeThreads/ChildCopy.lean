import Pvos.PipeThreads.ReadFile
import Pvos.Support.CString

/-!
# What a child prints of its file

The child of `process_file_read.cpp` reads a piece into `buf` and prints `buf`
with `%s`.  Nothing ends the piece: the string goes on with what longer pieces
have left, and with what lies behind the 512 bytes of `buf`.

`buf` is a local array, so more than its own bytes can be read; `readable` is
their number.
-/

namespace Pvos.PipeThreads

open Pvos.Support

/-- The loop of a child: what each `read` brought, and the string printed. -/
def copied (readable : ℕ) (buf : Memory) :
    List FileRead → List (FileRead × Text)
  | [] => []
  | r :: reads =>
      if 0 < r.bytesRead then
        let buf := buf.write 0 r.stored
        (r, buf.cstring readable 0) :: copied readable buf reads
      else []

/-- What the child prints. -/
def childPrints (readable : ℕ) (buf : Memory) (reads : List FileRead) : Text :=
  (copied readable buf reads).flatMap Prod.snd

/-- The buffer behind the piece was zero from the start, and no earlier piece
was longer. -/
def PieceEnds (buf : Memory) (earlier : List Text) (piece : Text) : Prop :=
  (∀ e ∈ earlier, e.length ≤ piece.length) ∧ buf piece.length = 0

section Copy

variable {readable : ℕ} {buf : Memory} {pieces : List Text}

theorem copied_cons {piece : Text} (hpos : 0 < piece.length) :
    copied readable buf (wholeReads (piece :: pieces)) =
      (.data piece, (buf.write 0 piece).cstring readable 0) ::
        copied readable (buf.write 0 piece) (wholeReads pieces) := by
  have hmore : 0 < (FileRead.data piece).bytesRead :=
    Int.natCast_pos.mpr hpos
  rw [wholeReads, List.map_cons, List.cons_append, copied, if_pos hmore]
  rfl

/-- The bytes read are the file. -/
theorem flatMap_copied (hpos : ∀ piece ∈ pieces, 0 < piece.length) :
    (copied readable buf (wholeReads pieces)).flatMap
      (fun p => p.1.stored) = pieces.flatten := by
  induction pieces generalizing buf with
  | nil => rfl
  | cons piece pieces ih =>
      obtain ⟨hfirst, hrest⟩ := List.forall_mem_cons.mp hpos
      rw [copied_cons hfirst, List.flatMap_cons, ih hrest]
      rfl

/-- Each piece is printed over all pieces before it. -/
theorem mem_copied (hpos : ∀ piece ∈ pieces, 0 < piece.length)
    {p : FileRead × Text} :
    p ∈ copied readable buf (wholeReads pieces) ↔
      ∃ earlier piece later, pieces = earlier ++ piece :: later ∧
        p = (.data piece,
          (buf.overwrite (earlier ++ [piece])).cstring readable 0) := by
  induction pieces generalizing buf with
  | nil => simp [wholeReads, copied, FileRead.bytesRead]
  | cons first pieces ih =>
      obtain ⟨hfirst, hrest⟩ := List.forall_mem_cons.mp hpos
      rw [copied_cons hfirst, List.mem_cons, ih hrest]
      constructor
      · rintro (rfl | ⟨earlier, piece, later, rfl, rfl⟩)
        · exact ⟨[], first, pieces, rfl, rfl⟩
        · exact ⟨first :: earlier, piece, later, rfl, rfl⟩
      · rintro ⟨earlier, piece, later, heq, rfl⟩
        cases earlier with
        | nil =>
            obtain ⟨rfl, rfl⟩ := List.cons.inj heq
            exact Or.inl rfl
        | cons e earlier =>
            obtain ⟨rfl, rfl⟩ := List.cons.inj heq
            exact Or.inr ⟨earlier, piece, later, rfl, rfl⟩

/-- A piece is printed as it was read if and only if it ends in the buffer. -/
theorem printed_eq_iff (hreadable : 512 < readable) (h : TextPieces pieces)
    {earlier later : List Text} {piece : Text}
    (hpieces : pieces = earlier ++ piece :: later) :
    (buf.overwrite (earlier ++ [piece])).cstring readable 0 = piece ↔
      PieceEnds buf earlier piece := by
  have hmem : ∀ t ∈ earlier ++ [piece], t ∈ pieces := by
    intro t ht
    rw [hpieces]
    simp only [List.mem_append, List.mem_cons, List.not_mem_nil,
      or_false] at ht ⊢
    exact ht.imp id Or.inl
  have hlen := h.length_le piece (hmem piece (by simp))
  exact Memory.cstring_overwrite_iff (fun t ht => h.ne_zero t (hmem t ht))
    (by omega)

/-- The string printed for a piece begins with it. -/
theorem begins_copied (hreadable : 512 < readable) (h : TextPieces pieces)
    {p : FileRead × Text} (hp : p ∈ copied readable buf (wholeReads pieces)) :
    p.1.stored <+: p.2 := by
  obtain ⟨earlier, piece, later, rfl, rfl⟩ := (mem_copied h.pos).mp hp
  have hmem : piece ∈ earlier ++ piece :: later := by simp
  have hlen := h.length_le piece hmem
  have hfront : (buf.overwrite (earlier ++ [piece])).bytes 0 piece.length =
      piece := by
    rw [Memory.overwrite_concat, Memory.bytes_write_take _ _ (Nat.le_refl _),
      List.take_length]
  have hbegins : piece <+:
      (buf.overwrite (earlier ++ [piece])).cstring readable 0 :=
    Memory.cstring_begins (h.ne_zero piece hmem) hfront (by omega)
  exact hbegins

end Copy

/-- A child prints its file if and only if each piece ends in the buffer: no
earlier one was longer, and the byte behind it was zero from the start.  So
there is no file but the empty one that it prints whatever was in `buf`. -/
theorem child_prints_iff {readable : ℕ} (hreadable : 512 < readable)
    {pieces : List Text} (h : TextPieces pieces) :
    (∀ buf, childPrints readable buf (wholeReads pieces) = pieces.flatten ↔
        ∀ earlier piece later, pieces = earlier ++ piece :: later →
          PieceEnds buf earlier piece) ∧
      (pieces ≠ [] →
        ¬ ∀ buf, childPrints readable buf (wholeReads pieces) =
          pieces.flatten) := by
  have hprints : ∀ buf,
      childPrints readable buf (wholeReads pieces) = pieces.flatten ↔
        ∀ earlier piece later, pieces = earlier ++ piece :: later →
          PieceEnds buf earlier piece := by
    intro buf
    have hfile := @flatMap_copied readable buf pieces h.pos
    constructor
    · intro hprint earlier piece later hpieces
      rw [← printed_eq_iff hreadable h hpieces]
      have heq := eq_of_flatMap_eq (fun p => begins_copied hreadable h)
        (hfile.trans hprint.symm)
      exact (heq _ ((mem_copied h.pos).mpr
        ⟨earlier, piece, later, hpieces, rfl⟩)).symm
    · intro hends
      rw [← hfile]
      refine List.flatMap_congr fun p hp => ?_
      obtain ⟨earlier, piece, later, hpieces, rfl⟩ := (mem_copied h.pos).mp hp
      exact (printed_eq_iff hreadable h hpieces).mpr
        (hends earlier piece later hpieces)
  refine ⟨hprints, fun hne hall => ?_⟩
  obtain ⟨piece, later, rfl⟩ := List.exists_cons_of_ne_nil hne
  have hdirty := (hprints fun _ => 1).mp (hall _) [] piece later rfl
  have hone : (1 : UInt8) = 0 := hdirty.2
  exact absurd hone (by decide)

/-- Two pieces, the second one longer, in a buffer of zeros. -/
theorem child_prints_iff_growing :
    childPrints 513 (fun _ => 0) (wholeReads [ascii "ok\n", ascii "hello\n"]) =
      ascii "ok\nhello\n" := by
  have hpieces : TextPieces [ascii "ok\n", ascii "hello\n"] := by
    refine ⟨by decide, by decide, ?_⟩
    rw [List.forall_mem_cons, List.forall_mem_singleton]
    exact ⟨ne_zero_of_all rfl, ne_zero_of_all rfl⟩
  refine ((child_prints_iff (by decide) hpieces).1 _).mpr
    fun earlier piece later hsplit => ⟨fun e he => ?_, rfl⟩
  match earlier, hsplit with
  | [], _ => simp at he
  | [_], hsplit =>
      obtain ⟨rfl, hrest⟩ := List.cons.inj hsplit
      obtain ⟨rfl, -⟩ := List.cons.inj hrest
      rw [List.mem_singleton.mp he]
      decide
  | _ :: _ :: _, hsplit => simp at hsplit

/-- The shorter piece is printed with the end of the longer one; and a byte of
`buf` that was not zero is printed behind the first piece. -/
theorem child_prints_leftovers :
    childPrints 513 (fun _ => 0) (wholeReads [ascii "hello\n", ascii "ok\n"]) =
        ascii "hello\nok\nlo\n" ∧
      childPrints 513 (Memory.write (fun _ => 0) 3 (ascii "X"))
        (wholeReads [ascii "ok\n"]) = ascii "ok\nX" := by
  have hnil : ∀ buf, copied 513 buf (wholeReads []) = [] := fun _ => rfl
  constructor
  · have hfirst : (Memory.write (fun _ => 0) 0 (ascii "hello\n")).cstring 513 0 =
        ascii "hello\n" :=
      Memory.cstring_of_bytes (n := 7) (ne_zero_of_all rfl) (by decide) (by decide)
    have hsecond : ((Memory.write (fun _ => 0) 0 (ascii "hello\n")).write 0
        (ascii "ok\n")).cstring 513 0 = ascii "ok\nlo\n" :=
      Memory.cstring_of_bytes (n := 7) (ne_zero_of_all rfl) (by decide) (by decide)
    rw [childPrints, copied_cons (by decide), copied_cons (by decide), hnil,
      hfirst, hsecond]
    rfl
  · have hstring : ((Memory.write (fun _ => 0) 3 (ascii "X")).write 0
        (ascii "ok\n")).cstring 513 0 = ascii "ok\nX" :=
      Memory.cstring_of_bytes (n := 5) (ne_zero_of_all rfl) (by decide) (by decide)
    rw [childPrints, copied_cons (by decide), hnil, hstring]
    rfl

end Pvos.PipeThreads
