import Mathlib

/-!
# Fields of a memory

A memory gives every address its cell. Fields are ranges of cells: what is stored in a field is
loaded from it, and a store leaves the fields alone that do not overlap with it.

## Main definitions

* `Memory.loadAt`, `Memory.storeAt`: loading and storing a range of cells.

## Main results

* `Memory.loadAt_storeAt_self`: what is stored is loaded.
* `Memory.loadAt_storeAt_before`, `Memory.loadAt_storeAt_behind`: other ranges are not changed.
-/

namespace Memory

variable {α : Type*} {mem mem' : ℕ → α} {off off' i n : ℕ} {b : List α}

/-- The `n` cells from the address `off` on. -/
def loadAt (mem : ℕ → α) (off n : ℕ) : List α := (List.range n).map fun i => mem (off + i)

/-- The memory with `b` stored from the address `off` on. -/
def storeAt (mem : ℕ → α) (off : ℕ) (b : List α) (i : ℕ) : α :=
  if h : off ≤ i ∧ i - off < b.length then b[i - off] else mem i

theorem length_loadAt (mem : ℕ → α) (off n : ℕ) : (loadAt mem off n).length = n := by
  rw [loadAt, List.length_map, List.length_range]

theorem getElem_loadAt (h : i < (loadAt mem off n).length) :
    (loadAt mem off n)[i] = mem (off + i) := by
  simp only [loadAt, List.getElem_map, List.getElem_range]

theorem loadAt_congr (h : ∀ i < n, mem (off + i) = mem' (off + i)) :
    loadAt mem off n = loadAt mem' off n :=
  List.map_congr_left fun i hi => h i (List.mem_range.mp hi)

theorem storeAt_of_lt (h : i < off) : storeAt mem off b i = mem i := by
  rw [storeAt, dif_neg fun hin => absurd hin.1 (Nat.not_le.mpr h)]

theorem storeAt_of_le (h : off + b.length ≤ i) : storeAt mem off b i = mem i := by
  rw [storeAt, dif_neg]
  omega

theorem storeAt_add (h : i < b.length) : storeAt mem off b (off + i) = b[i] := by
  have hin : off ≤ off + i ∧ off + i - off < b.length := by omega
  rw [storeAt, dif_pos hin]
  simp only [Nat.add_sub_cancel_left]

theorem loadAt_storeAt_self (mem : ℕ → α) (off : ℕ) (b : List α) :
    loadAt (storeAt mem off b) off b.length = b := by
  refine List.ext_getElem (length_loadAt _ _ _) fun i hi hb => ?_
  rw [getElem_loadAt, storeAt_add hb]

theorem loadAt_storeAt_before (mem : ℕ → α) (b : List α) (h : off' + n ≤ off) :
    loadAt (storeAt mem off b) off' n = loadAt mem off' n :=
  loadAt_congr fun _ hi => storeAt_of_lt (by omega)

theorem loadAt_storeAt_behind (mem : ℕ → α) (h : off + b.length ≤ off') :
    loadAt (storeAt mem off b) off' n = loadAt mem off' n :=
  loadAt_congr fun _ _ => storeAt_of_le (by omega)

end Memory
