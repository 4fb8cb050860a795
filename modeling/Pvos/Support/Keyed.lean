import Mathlib.Data.List.Basic

/-!
# Queues with keyed messages

A queue keeps its messages in order of arrival; each carries a key.  Taking the
first message with a given key leaves the messages with other keys as they are,
so that one such queue is a family of independent queues, one for each key.
-/

namespace Pvos.Support

section Keyed

variable {κ α : Type*} [DecidableEq κ]

/-- The oldest message with key `k` and the queue without it. -/
def takeFirst (k : κ) : List (κ × α) → Option (α × List (κ × α))
  | [] => none
  | e :: rest =>
      if e.1 = k then some (e.2, rest)
      else (takeFirst k rest).map fun (a, rest') => (a, e :: rest')

/-- The messages with key `k`, oldest first. -/
def withKey (k : κ) (q : List (κ × α)) : List α :=
  (q.filter fun e => e.1 = k).map Prod.snd

@[simp] theorem withKey_nil (k : κ) : withKey k ([] : List (κ × α)) = [] := rfl

theorem withKey_cons_self (k : κ) (a : α) (q : List (κ × α)) :
    withKey k ((k, a) :: q) = a :: withKey k q := by
  simp [withKey]

theorem withKey_cons_of_ne {j k : κ} (h : j ≠ k) (a : α) (q : List (κ × α)) :
    withKey k ((j, a) :: q) = withKey k q := by
  simp [withKey, h]

theorem withKey_append_self (k : κ) (a : α) (q : List (κ × α)) :
    withKey k (q ++ [(k, a)]) = withKey k q ++ [a] := by
  simp [withKey]

theorem withKey_append_of_ne {j k : κ} (h : j ≠ k) (a : α)
    (q : List (κ × α)) : withKey k (q ++ [(j, a)]) = withKey k q := by
  simp [withKey, h]

/-- Taking the first message with a key. -/
theorem withKey_of_takeFirst {k : κ} {q rest : List (κ × α)} {a : α}
    (h : takeFirst k q = some (a, rest)) :
    withKey k q = a :: withKey k rest ∧
      (∀ j, j ≠ k → withKey j rest = withKey j q) ∧
      q.length = rest.length + 1 := by
  induction q generalizing rest with
  | nil => simp [takeFirst] at h
  | cons e q ih =>
      obtain ⟨j, b⟩ := e
      simp only [takeFirst] at h
      split at h
      next hkey =>
        simp only [Option.some.injEq, Prod.mk.injEq] at h
        obtain ⟨rfl, rfl⟩ := h
        subst hkey
        refine ⟨withKey_cons_self j b q, ?_, rfl⟩
        intro i hi
        exact (withKey_cons_of_ne hi.symm b q).symm
      next hkey =>
        simp only [Option.map_eq_some_iff, Prod.exists, Prod.mk.injEq] at h
        obtain ⟨a', rest', hrest, rfl, rfl⟩ := h
        obtain ⟨hself, hother, hlength⟩ := ih hrest
        refine ⟨?_, ?_, by simp [hlength]⟩
        · rw [withKey_cons_of_ne hkey, withKey_cons_of_ne hkey, hself]
        · intro i hi
          by_cases hij : j = i
          · subst hij
            rw [withKey_cons_self, withKey_cons_self, hother j hi]
          · rw [withKey_cons_of_ne hij, withKey_cons_of_ne hij, hother i hi]

/-- A key with messages has a first one. -/
theorem exists_takeFirst {k : κ} {q : List (κ × α)} {a : α} {as : List α}
    (h : withKey k q = a :: as) :
    ∃ rest, takeFirst k q = some (a, rest) ∧ withKey k rest = as := by
  cases htake : takeFirst k q with
  | some taken =>
      obtain ⟨b, rest⟩ := taken
      obtain ⟨hself, -, -⟩ := withKey_of_takeFirst htake
      rw [h, List.cons.injEq] at hself
      obtain ⟨rfl, rfl⟩ := hself
      exact ⟨rest, rfl, rfl⟩
  | none =>
      exfalso
      induction q with
      | nil => simp at h
      | cons e q ih =>
          obtain ⟨j, b⟩ := e
          simp only [takeFirst] at htake
          split at htake
          next => simp at htake
          next hkey =>
            rw [withKey_cons_of_ne hkey] at h
            exact ih h (by simpa using htake)

end Keyed

end Pvos.Support
