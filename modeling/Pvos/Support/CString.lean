import Mathlib.Algebra.Order.BigOperators.Group.List
import Pvos.Support.Memory
import Pvos.Support.Text

/-!
# C strings in a byte memory

`cstring` is what `strlen`, `%s` and `sscanf` see of a buffer from some offset
on: the bytes in front of the first zero.  `sprintf` writes a text and a zero
behind it, so that printing at the end of a string appends to it.
-/

namespace Pvos.Support

theorem takeWhile_drop {p : UInt8 → Bool} {l : List UInt8} {n : ℕ}
    (h : n ≤ (l.takeWhile p).length) :
    (l.drop n).takeWhile p = (l.takeWhile p).drop n := by
  induction n generalizing l with
  | zero => simp
  | succ n ih =>
      cases l with
      | nil => simp
      | cons b l =>
          by_cases hb : p b = true
          · simp only [List.takeWhile_cons, if_pos hb, List.length_cons] at h ⊢
            exact ih (Nat.le_of_succ_le_succ h)
          · simp [hb] at h

theorem takeWhile_append_stop {p : UInt8 → Bool} {b : UInt8}
    (h : p b = false) (l rest : List UInt8) :
    (l ++ b :: rest).takeWhile p = l.takeWhile p := by
  induction l with
  | nil => simp [h]
  | cons a l ih =>
      rw [List.cons_append, List.takeWhile_cons, List.takeWhile_cons, ih]

/-- Prefixes that together make up the whole are whole. -/
theorem eq_of_flatMap_eq {α β : Type*} {f g : α → List β} {l : List α}
    (hbegins : ∀ a ∈ l, f a <+: g a) (h : l.flatMap f = l.flatMap g) :
    ∀ a ∈ l, f a = g a := by
  induction l with
  | nil => simp
  | cons a l ih =>
      obtain ⟨hhead, htail⟩ := List.forall_mem_cons.mp hbegins
      have hle : (l.flatMap f).length ≤ (l.flatMap g).length := by
        rw [List.length_flatMap, List.length_flatMap]
        exact List.sum_le_sum fun b hb => (htail b hb).length_le
      rw [List.flatMap_cons, List.flatMap_cons] at h
      have hlength := congrArg List.length h
      rw [List.length_append, List.length_append] at hlength
      have hlen : (f a).length = (g a).length := by
        have hshort := hhead.length_le
        omega
      obtain ⟨heq, hrest⟩ := List.append_inj h hlen
      exact List.forall_mem_cons.mpr ⟨heq, ih htail hrest⟩

namespace Memory

/-- The C string at `start` in a buffer of `size` bytes. -/
def cstring (m : Memory) (size start : ℕ) : Text :=
  (m.bytes start (size - start)).takeWhile (· ≠ 0)

/-- `sprintf(buffer + start, ..)` that prints `text`. -/
def sprintf (m : Memory) (start : ℕ) (text : Text) : Memory :=
  m.write start (text ++ [0])

theorem drop_bytes (m : Memory) (off len n : ℕ) :
    (m.bytes off len).drop n = m.bytes (off + n) (len - n) := by
  apply List.ext_getElem
  · simp
  · intro i _ _
    simp [Nat.add_assoc]

theorem length_cstring_le (m : Memory) (size start : ℕ) :
    (m.cstring size start).length ≤ size - start := by
  have h := (List.takeWhile_prefix (p := (· ≠ 0))
    (l := m.bytes start (size - start))).length_le
  rwa [length_bytes] at h

theorem cstring_ne_zero {m : Memory} {size start : ℕ} {b : UInt8}
    (h : b ∈ m.cstring size start) : b ≠ 0 := by
  simpa using List.mem_takeWhile_imp h

/-- The string from a later byte on. -/
theorem cstring_add {m : Memory} {size start n : ℕ}
    (h : n ≤ (m.cstring size start).length) :
    m.cstring size (start + n) = (m.cstring size start).drop n := by
  unfold cstring
  rw [← takeWhile_drop h, drop_bytes, Nat.sub_add_eq]

/-- The bytes of a string are the ones in the buffer. -/
theorem bytes_cstring (m : Memory) (size start : ℕ) :
    m.bytes start (m.cstring size start).length = m.cstring size start := by
  have hprefix : m.cstring size start <+: m.bytes start (size - start) :=
    List.takeWhile_prefix _
  have hle := length_cstring_le m size start
  obtain ⟨rest, hrest⟩ := hprefix
  rw [← Nat.add_sub_cancel' hle, bytes_add] at hrest
  exact (List.append_inj hrest.symm (by simp)).1

/-- A string that ends inside its buffer has its zero there. -/
theorem zero_behind_cstring {m : Memory} {size start : ℕ}
    (h : start + (m.cstring size start).length < size) :
    m (start + (m.cstring size start).length) = 0 := by
  obtain ⟨n, hn⟩ : ∃ n, (m.cstring size start).length = n := ⟨_, rfl⟩
  have hbytes := bytes_cstring m size start
  rw [hn] at h hbytes ⊢
  by_contra hne
  have hfront : ∀ b ∈ m.bytes start (n + 1), decide (b ≠ 0) = true := by
    intro b hb
    rw [bytes_add, hbytes] at hb
    rcases List.mem_append.mp hb with hold | hlast
    · exact decide_eq_true (cstring_ne_zero hold)
    · have heq : b = m (start + n) := by simpa [bytes] using hlast
      exact decide_eq_true (heq ▸ hne)
  have hlonger : m.cstring size start = m.bytes start (n + 1) ++
      (m.bytes (start + (n + 1)) (size - start - (n + 1))).takeWhile
        (· ≠ 0) := by
    rw [← List.takeWhile_append_of_pos hfront, ← bytes_add,
      Nat.add_sub_cancel' (by omega), cstring]
  have hlength := congrArg List.length hlonger
  rw [List.length_append, length_bytes] at hlength
  omega

/-- A string ends inside its buffer if there is a zero at or behind its
start. -/
theorem length_cstring_lt_iff {m : Memory} {size start : ℕ} :
    start + (m.cstring size start).length < size ↔
      ∃ j, start ≤ j ∧ j < size ∧ m j = 0 := by
  constructor
  · exact fun h => ⟨_, Nat.le_add_right _ _, h, zero_behind_cstring h⟩
  · rintro ⟨j, hle, hlt, hzero⟩
    by_contra hfull
    have hlen := length_cstring_le m size start
    have hbytes := bytes_cstring m size start
    have hmem : m j ∈ m.bytes start (m.cstring size start).length := by
      simp only [bytes, List.mem_map, List.mem_range]
      exact ⟨j - start, by omega, by rw [Nat.add_sub_cancel' hle]⟩
    rw [hbytes] at hmem
    exact cstring_ne_zero hmem hzero

/-- The bytes of a string that ends inside its buffer, with the zero. -/
theorem bytes_cstring_zero {m : Memory} {size start : ℕ}
    (h : start + (m.cstring size start).length < size) :
    m.bytes start ((m.cstring size start).length + 1) =
      m.cstring size start ++ [0] := by
  rw [bytes_add, bytes_cstring]
  simp [bytes, zero_behind_cstring h]

/-- A text written with a zero behind it is the string there. -/
theorem cstring_of_bytes {m : Memory} {size start n : ℕ} {text : Text}
    (h : ∀ b ∈ text, b ≠ 0) (hn : n ≤ size - start)
    (hbytes : m.bytes start n = text ++ [0]) :
    m.cstring size start = text := by
  unfold cstring
  rw [← Nat.add_sub_cancel' hn, bytes_add, hbytes, List.append_assoc,
    List.takeWhile_append_of_pos (by simpa using h)]
  simp

/-- A text is the string at its place if and only if a zero follows it. -/
theorem cstring_eq_iff {m : Memory} {size start : ℕ} {text : Text}
    (h : ∀ b ∈ text, b ≠ 0) (hbytes : m.bytes start text.length = text)
    (hroom : start + text.length < size) :
    m.cstring size start = text ↔ m (start + text.length) = 0 := by
  constructor
  · intro hstring
    rw [← hstring]
    exact zero_behind_cstring (by rwa [hstring])
  · intro hzero
    refine cstring_of_bytes (n := text.length + 1) h (by omega) ?_
    rw [bytes_add, hbytes]
    simp [bytes, hzero]

/-- A text in the buffer begins the string at its place. -/
theorem cstring_begins {m : Memory} {size start : ℕ} {text : Text}
    (h : ∀ b ∈ text, b ≠ 0) (hbytes : m.bytes start text.length = text)
    (hroom : start + text.length ≤ size) :
    text <+: m.cstring size start := by
  have hsize : size - start = text.length + (size - start - text.length) := by
    omega
  rw [cstring, hsize, bytes_add, hbytes,
    List.takeWhile_append_of_pos (by simpa using h)]
  exact List.prefix_append _ _

/-! Texts written to the front of a buffer, one after the other and without a
zero. -/

/-- The buffer behind the texts written to its front. -/
def overwrite (m : Memory) (texts : List Text) : Memory :=
  texts.foldl (fun m text => m.write 0 text) m

theorem overwrite_concat (m : Memory) (texts : List Text) (text : Text) :
    m.overwrite (texts ++ [text]) = (m.overwrite texts).write 0 text := by
  rw [overwrite, List.foldl_append]
  rfl

/-- A byte is zero when it was zero before and no text reached it. -/
theorem overwrite_eq_zero {m : Memory} {texts : List Text}
    (h : ∀ text ∈ texts, ∀ b ∈ text, b ≠ 0) (j : ℕ) :
    m.overwrite texts j = 0 ↔ (∀ text ∈ texts, text.length ≤ j) ∧ m j = 0 := by
  induction texts using List.reverseRecOn with
  | nil => simp [overwrite]
  | append_singleton texts text ih =>
      obtain ⟨hold, hlast⟩ := List.forall_mem_append.mp h
      rw [overwrite_concat, List.forall_mem_append, List.forall_mem_singleton]
      by_cases hj : j < text.length
      · have hne : text[j] ≠ 0 :=
          hlast text (List.mem_singleton.mpr rfl) _ (List.getElem_mem hj)
        simp [write, hj, hne, Nat.not_le.mpr hj]
      · rw [write, if_neg (by omega), ih hold]
        simp [Nat.le_of_not_lt hj]

/-- The text written last is the string in the buffer if and only if a zero
follows it: no earlier text was longer. -/
theorem cstring_overwrite_iff {m : Memory} {texts : List Text} {text : Text}
    {size : ℕ} (h : ∀ t ∈ texts ++ [text], ∀ b ∈ t, b ≠ 0)
    (hroom : text.length < size) :
    (m.overwrite (texts ++ [text])).cstring size 0 = text ↔
      (∀ t ∈ texts, t.length ≤ text.length) ∧ m text.length = 0 := by
  obtain ⟨hold, hlast⟩ := List.forall_mem_append.mp h
  have hfront : (m.overwrite (texts ++ [text])).bytes 0 text.length = text := by
    rw [overwrite_concat, bytes_write_take _ _ (Nat.le_refl _),
      List.take_length]
  rw [cstring_eq_iff (hlast text (List.mem_singleton.mpr rfl)) hfront
    (by omega), Nat.zero_add, overwrite_eq_zero h, List.forall_mem_append,
    List.forall_mem_singleton]
  simp

/-- Printing at the end of a string appends to it. -/
theorem cstring_sprintf (m : Memory) (size start : ℕ) {text : Text}
    (h : ∀ b ∈ text, b ≠ 0)
    (hroom : start + (m.cstring size start).length + text.length < size) :
    (m.sprintf (start + (m.cstring size start).length) text).cstring size
      start = m.cstring size start ++ text := by
  apply cstring_of_bytes (n := (m.cstring size start).length +
    (text.length + 1))
  · intro b hb
    rcases List.mem_append.mp hb with hold | hnew
    · exact cstring_ne_zero hold
    · exact h b hnew
  · omega
  · unfold sprintf
    rw [bytes_add, bytes_write_of_disjoint _ _ (Or.inl (Nat.le_refl _)),
      bytes_cstring, bytes_write _ _ (by simp)]
    simp

/-- A text printed at `start` is the string there. -/
theorem cstring_sprintf_self (m : Memory) {size start : ℕ} {text : Text}
    (h : ∀ b ∈ text, b ≠ 0) (hroom : start + text.length < size) :
    (m.sprintf start text).cstring size start = text := by
  apply cstring_of_bytes (n := text.length + 1) h (by omega)
  rw [sprintf, bytes_write _ _ (by simp)]
  simp

@[simp] theorem cstring_zero (size start : ℕ) :
    cstring (fun _ => 0) size start = [] := by
  have hbytes : bytes (fun _ => 0) start (size - start) =
      List.replicate (size - start) 0 := by
    apply List.ext_getElem <;> simp
  rw [cstring, hbytes]
  cases size - start with
  | zero => rfl
  | succ n => simp [List.replicate_succ]

end Memory

end Pvos.Support
