import Mathlib.Data.List.Basic
import Mathlib.Data.Nat.ModEq
import Mathlib.Logic.Function.Basic

/-!
# Cyclic layouts

A list is laid out cyclically in `cap` slots when its elements occupy
consecutive slots modulo `cap`.  Appending writes the slot behind the last
element; removing the head moves the start by one slot.
-/

namespace Pvos.Support

variable {α : Type*}

/-- The elements of `xs` occupy the slots `start, start + 1, …` modulo `cap`. -/
structure CyclicLayout (slots : ℕ → α) (cap start : ℕ) (xs : List α) : Prop where
  fits : xs.length ≤ cap
  get : ∀ i (h : i < xs.length), slots ((start + i) % cap) = xs[i]

namespace CyclicLayout

theorem nil (slots : ℕ → α) (cap start : ℕ) :
    CyclicLayout slots cap start [] where
  fits := Nat.zero_le cap
  get i h := absurd h (Nat.not_lt_zero i)

/-- Distinct positions of a layout occupy distinct slots. -/
theorem slot_ne {cap start i j : ℕ} (hij : i < j) (hj : j < cap) :
    (start + i) % cap ≠ (start + j) % cap := by
  intro heq
  have hmod : i ≡ j [MOD cap] := Nat.ModEq.add_left_cancel' start heq
  have : i = j := hmod.eq_of_lt_of_lt (hij.trans hj) hj
  omega

/-- Writing `x` behind the last element appends it, as long as a slot is
free. -/
theorem append {slots : ℕ → α} {cap start : ℕ} {xs : List α} {x : α}
    (h : CyclicLayout slots cap start xs) (slots' : ℕ → α)
    (hfree : xs.length < cap)
    (hnew : slots' ((start + xs.length) % cap) = x)
    (hold : ∀ j < cap, j ≠ (start + xs.length) % cap → slots' j = slots j) :
    CyclicLayout slots' cap start (xs ++ [x]) where
  fits := by
    rw [List.length_append, List.length_singleton]
    exact hfree
  get i hi := by
    rw [List.length_append, List.length_singleton] at hi
    rcases Nat.lt_succ_iff_lt_or_eq.mp hi with hlt | rfl
    · have hslot : (start + i) % cap < cap :=
        Nat.mod_lt _ (Nat.zero_lt_of_lt hfree)
      rw [List.getElem_append_left hlt, ← h.get i hlt]
      exact hold _ hslot (slot_ne hlt hfree)
    · simpa using hnew

/-- Removing the head moves the start by one slot. -/
theorem tail {slots : ℕ → α} {cap start : ℕ} {x : α} {xs : List α}
    (h : CyclicLayout slots cap start (x :: xs)) :
    CyclicLayout slots cap (start + 1) xs where
  fits := by
    have := h.fits
    rw [List.length_cons] at this
    omega
  get i hi := by
    have hcons := h.get (i + 1) (by simpa using hi)
    rw [List.getElem_cons_succ] at hcons
    rwa [Nat.add_assoc, Nat.add_comm 1 i]

theorem head {slots : ℕ → α} {cap start : ℕ} {x : α} {xs : List α}
    (h : CyclicLayout slots cap start (x :: xs)) :
    slots (start % cap) = x := by
  have hget := h.get 0 (Nat.zero_lt_succ _)
  rwa [Nat.add_zero, List.getElem_cons_zero] at hget

end CyclicLayout

end Pvos.Support
