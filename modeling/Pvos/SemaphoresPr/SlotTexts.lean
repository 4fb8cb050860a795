import Pvos.SemaphoresPr.Crate
import Pvos.Support.CString

/-!
# The texts in a slot

A producer copies its text into a slot without the terminator, so the bytes
behind the text are those of earlier rounds.  What a slot holds is the result
of all texts written to it so far.

`%s` prints the text of a round if and only if a zero follows it in the slot:
no earlier text was longer.
-/

namespace Pvos.SemaphoresPr

open Pvos.Support

/-! ## The content of a slot -/

/-- The bytes of a slot behind the texts written to it. -/
def slotAfter (slot : Memory) (texts : List Text) : Memory :=
  slot.overwrite (texts.map (List.take maxCrateItemSize))

theorem slotAfter_concat (slot : Memory) (texts : List Text) (text : Text) :
    slotAfter slot (texts ++ [text]) =
      (slotAfter slot texts).write 0 (text.take maxCrateItemSize) := by
  rw [slotAfter, List.map_append, List.map_singleton, Memory.overwrite_concat]
  rfl

/-- A text that `%s` prints, and that leaves room for a zero in its slot. -/
structure FitsSlot (text : Text) : Prop where
  ne_zero : ∀ b ∈ text, b ≠ 0
  length_lt : text.length < maxCrateItemSize

theorem slotAfter_of_fits {slot : Memory} {texts : List Text}
    (h : ∀ text ∈ texts, FitsSlot text) :
    slotAfter slot texts = slot.overwrite texts := by
  have hmap : texts.map (List.take maxCrateItemSize) = texts.map id :=
    List.map_congr_left fun text ht =>
      List.take_of_length_le (h text ht).length_lt.le
  rw [slotAfter, hmap, List.map_id]

/-- The string in a buffer that begins with the bytes of a slot is the text
written last if and only if a zero follows it. -/
theorem cstring_slotAfter_iff {slot buf : Memory} {texts : List Text}
    {text : Text} (h : ∀ t ∈ texts ++ [text], FitsSlot t) {size : ℕ}
    (hsize : maxCrateItemSize ≤ size)
    (hbuf : buf.bytes 0 maxCrateItemSize =
      (slotAfter slot (texts ++ [text])).bytes 0 maxCrateItemSize) :
    buf.cstring size 0 = text ↔
      (∀ t ∈ texts, t.length ≤ text.length) ∧ slot text.length = 0 := by
  have htext := h text (by simp)
  have hlt := htext.length_lt
  rw [slotAfter_of_fits h] at hbuf
  have hagree : buf.bytes 0 text.length =
      (slot.overwrite (texts ++ [text])).bytes 0 text.length := by
    rw [← Memory.take_bytes buf 0 hlt.le, hbuf, Memory.take_bytes _ _ hlt.le]
  have hbehind : buf text.length =
      slot.overwrite (texts ++ [text]) text.length := by
    have hget := congrArg (·[text.length]?) hbuf
    simpa only [Memory.bytes, List.getElem?_map, List.getElem?_range hlt,
      Option.map_some, Option.some.injEq, Nat.zero_add] using hget
  rw [Memory.overwrite_concat, Memory.bytes_write_take _ _ (Nat.le_refl _),
    List.take_length] at hagree
  rw [Memory.cstring_eq_iff htext.ne_zero hagree (by omega), Nat.zero_add,
    hbehind, Memory.overwrite_eq_zero fun t ht => (h t ht).ne_zero,
    List.forall_mem_append, List.forall_mem_singleton]
  simp

/-! ## Texts of a history -/

section Histories

variable {P : Type*}

/-- The text that an event brings to slot `i`. -/
def slotText (i : ℕ) : CrateEvent P → Option Text
  | .produced _ slot text => if slot = i then some text else none
  | .read _ _ _ => none

/-- The texts brought to slot `i`, in order. -/
def slotTexts (i : ℕ) (tr : List (CrateEvent P)) : List Text :=
  tr.filterMap (slotText i)

theorem slotTexts_append (i : ℕ) (tr tr' : List (CrateEvent P)) :
    slotTexts i (tr ++ tr') = slotTexts i tr ++ slotTexts i tr' :=
  List.filterMap_append

/-- The text of a round in slot `i`. -/
def Round.textAt (r : Round P) (i : ℕ) : Option Text :=
  r.items[i]?.map Prod.snd

theorem slotTexts_items (i offset : ℕ) (items : List (P × Text)) :
    slotTexts i (items.mapIdx fun j e => .produced e.1 (j + offset) e.2) =
      (if offset ≤ i then items[i - offset]?.map Prod.snd else none).toList := by
  induction items generalizing offset with
  | nil => simp [slotTexts]
  | cons e items ih =>
      have hshift : (fun (j : ℕ) (e : P × Text) =>
          (CrateEvent.produced e.1 (j + 1 + offset) e.2 : CrateEvent P)) =
          fun j e => .produced e.1 (j + (offset + 1)) e.2 := by
        funext j e
        rw [Nat.add_assoc, Nat.add_comm 1 offset]
      have hrest := ih (offset + 1)
      rw [List.mapIdx_cons, hshift, Nat.zero_add]
      rw [slotTexts] at hrest ⊢
      rw [List.filterMap_cons, hrest]
      rcases Nat.lt_trichotomy offset i with hlt | rfl | hgt
      · obtain ⟨k, hk⟩ := Nat.exists_eq_add_of_lt hlt
        have hsub : i - offset = k + 1 := by omega
        have hsub' : i - (offset + 1) = k := by omega
        simp [slotText, hlt.ne, hlt.le, Nat.succ_le_of_lt hlt, hsub, hsub']
      · simp [slotText]
      · simp [slotText, hgt.ne', Nat.not_le.mpr hgt,
          Nat.not_le.mpr (Nat.lt_succ_of_lt hgt)]

theorem slotTexts_reads (i : ℕ) (reads : List (P × List UInt8)) :
    slotTexts i (reads.mapIdx fun j e => .read e.1 j e.2) = [] := by
  rw [slotTexts, List.filterMap_eq_nil_iff]
  intro e he
  obtain ⟨j, hj, rfl⟩ := List.mem_mapIdx.mp he
  rfl

theorem slotTexts_events (i : ℕ) (r : Round P) :
    slotTexts i r.events = (r.textAt i).toList := by
  have hitems := slotTexts_items i 0 r.items
  rw [Round.events, slotTexts_append, slotTexts_reads, List.append_nil]
  rwa [if_pos (Nat.zero_le i), Nat.sub_zero] at hitems

theorem slotTexts_rounds (i : ℕ) (rounds : List (Round P)) :
    slotTexts i (rounds.flatMap Round.events) =
      rounds.filterMap (Round.textAt · i) := by
  induction rounds with
  | nil => rfl
  | cons r rounds ih =>
      rw [List.flatMap_cons, slotTexts_append, ih, slotTexts_events,
        List.filterMap_cons]
      cases r.textAt i <;> rfl

/-- The events of a round in front of a read. -/
theorem Round.events_split {r : Round P} {i : ℕ} {e : P × List UInt8}
    (h : r.reads[i]? = some e) :
    ∃ before after, r.events = before ++ .read e.1 i e.2 :: after ∧
      slotTexts i before = (r.textAt i).toList := by
  obtain ⟨hi, rfl⟩ := List.getElem?_eq_some_iff.mp h
  have hreads : r.reads =
      r.reads.take i ++ r.reads[i] :: r.reads.drop (i + 1) := by
    rw [List.getElem_cons_drop, List.take_append_drop]
  have hlen : (r.reads.take i).length = i := by simp [hi.le]
  refine ⟨Round.events { r with reads := r.reads.take i },
    (r.reads.drop (i + 1)).mapIdx fun j e => .read e.1 (j + 1 + i) e.2, ?_,
    slotTexts_events i { r with reads := r.reads.take i }⟩
  simp only [Round.events]
  conv_lhs => rw [hreads]
  rw [List.mapIdx_append, List.mapIdx_cons, hlen, Nat.zero_add,
    List.append_assoc]

end Histories

/-! ## The slots of the machine -/

section Machine

variable {P : Type*} {capacity : ℕ} {text : P → ℕ → Text}
  {isProducer : P → Bool} {a₀ a : CrateState P} {tr : List (CrateEvent P)}

theorem crateStep_length {a a' : CrateState P} {es : List (CrateEvent P)}
    (h : (crateSystem capacity text isProducer).step a es a') :
    es.length ≤ 1 := by
  cases h <;> simp

/-- A slot holds what the texts written to it have left. -/
theorem slots_of_run
    (h : (crateSystem capacity text isProducer).Run a₀ tr a) (i : ℕ) :
    a.slots i = slotAfter (a₀.slots i) (slotTexts i tr) := by
  induction h with
  | refl => rfl
  | tail _ hstep ih =>
      rw [slotTexts_append]
      cases hstep with
      | produce slots p n _ _ =>
          simp only at ih
          by_cases hi : n = i
          · subst hi
            have htexts : slotTexts n [.produced p n (text p n)] =
                [text p n] := by
              simp [slotTexts, slotText]
            rw [htexts, slotAfter_concat, ← ih]
            exact Function.update_self _ _ _
          · have htexts : slotTexts i [.produced p n (text p n)] = [] := by
              simp [slotTexts, slotText, hi]
            rw [htexts, List.append_nil, ← ih]
            exact Function.update_of_ne (Ne.symm hi) _ _
      | begin slots p _ | finish slots p =>
          rw [slotTexts, slotTexts, List.filterMap_nil, List.append_nil]
          exact ih
      | read slots p j _ =>
          have htexts : slotTexts i [.read p j (slotBytes slots j)] = [] := rfl
          rw [htexts, List.append_nil]
          exact ih

/-- A read finds what the texts written before it have left. -/
theorem read_of_run {before after : List (CrateEvent P)} {p : P} {i : ℕ}
    {bytes : List UInt8}
    (h : (crateSystem capacity text isProducer).Run a₀
      (before ++ .read p i bytes :: after) a) :
    bytes = (slotAfter (a₀.slots i) (slotTexts i before)).bytes 0
      maxCrateItemSize := by
  obtain ⟨a₁, a₂, hbefore, hread, -⟩ :=
    h.split fun _ _ _ hstep => crateStep_length hstep
  rw [← slots_of_run hbefore i]
  cases hread
  rfl

/-- A producer brings its own text. -/
theorem produced_of_run {p : P} {i : ℕ} {item : Text}
    (h : (crateSystem capacity text isProducer).Run a₀ tr a)
    (hmem : .produced p i item ∈ tr) : item = text p i ∧ i < capacity := by
  obtain ⟨before, after, rfl⟩ := List.append_of_mem hmem
  obtain ⟨a₁, a₂, -, hproduced, -⟩ :=
    h.split fun _ _ _ hstep => crateStep_length hstep
  cases hproduced with
  | produce slots _ _ hn _ => exact ⟨rfl, hn⟩

end Machine

end Pvos.SemaphoresPr
