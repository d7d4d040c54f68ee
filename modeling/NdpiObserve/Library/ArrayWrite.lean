import Mathlib

/-!
# Writing elements to an array

The elements of a list are written one behind the other to an array of a fixed length, by a writer
that does not know the length. The first write behind the end of the array is reported.

## Main definitions

* `ArrayWrite.writeAll`: the elements written from the start of the array on.

## Main results

* `ArrayWrite.writeAll_of_le`: what the array holds when the elements fit.
* `ArrayWrite.writeAll_of_lt`: the report when they do not.
-/

namespace ArrayWrite

variable {α : Type*} {N : ℕ}

/-- The elements written from the place `c` on, or the place of the write behind the end. -/
def writeFrom : ℕ → List α → Vector α N → Except ℕ (Vector α N)
  | _, [], v => .ok v
  | c, x :: l, v => if h : c < N then writeFrom (c + 1) l (v.set c x) else .error c

def writeAll (l : List α) (v : Vector α N) : Except ℕ (Vector α N) := writeFrom 0 l v

theorem writeFrom_of_eq {l p q r : List α} {v : Vector α N} (hv : v.toList = p ++ q ++ r)
    (hq : q.length = l.length) :
    ∃ w, writeFrom p.length l v = .ok w ∧ w.toList = p ++ l ++ r := by
  induction l generalizing p q v with
  | nil =>
    rw [List.eq_nil_of_length_eq_zero hq] at hv
    exact ⟨v, rfl, hv⟩
  | cons x l ih =>
    obtain ⟨y, q, rfl⟩ := List.exists_cons_of_length_eq_add_one hq
    have hlt : p.length < N := by
      have hlen : v.toList.length = N := Vector.length_toList
      rw [← hlen, hv]
      simp
    have hset : (v.set p.length x).toList = p ++ [x] ++ q ++ r := by
      rw [Vector.toList_set, hv]
      simp
    obtain ⟨w, hw, hlist⟩ := ih hset (by simpa using hq)
    rw [List.length_append, List.length_singleton] at hw
    refine ⟨w, ?_, by simpa using hlist⟩
    rw [writeFrom, dif_pos hlt]
    exact hw

/-- Elements that fit are written to the start of the array. -/
theorem writeAll_of_le {l : List α} (h : l.length ≤ N) (v : Vector α N) :
    ∃ w, writeAll l v = .ok w ∧ w.toList = l ++ v.toList.drop l.length :=
  writeFrom_of_eq (p := []) (q := v.toList.take l.length) (by simp) (by simpa using h)

theorem writeFrom_of_lt {c : ℕ} {l : List α} (hc : c ≤ N) (h : N < c + l.length)
    (v : Vector α N) : writeFrom c l v = .error N := by
  induction l generalizing c v with
  | nil =>
    rw [List.length_nil] at h
    omega
  | cons x l ih =>
    rw [List.length_cons] at h
    rw [writeFrom]
    split
    case isTrue hlt => exact ih hlt (by omega) _
    case isFalse hge => rw [le_antisymm hc (not_lt.mp hge)]

/-- Of elements that do not fit, one is written behind the end. -/
theorem writeAll_of_lt {l : List α} (h : N < l.length) (v : Vector α N) :
    writeAll l v = .error N :=
  writeFrom_of_lt (Nat.zero_le N) (by omega) v

end ArrayWrite
