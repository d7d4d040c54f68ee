import Mathlib

/-!
# Statistics of a list

Mean, variance and extremes of a list of numbers, and what an accumulator of sums, squares and
extremes has to do for one more number. The variance is the mean of the squared deviations from
the mean; it is also the mean of the squares without the square of the mean.

## Main definitions

* `Statistics.mean`, `Statistics.variance`: the mean and the variance.
* `Statistics.gaps`: the differences of consecutive numbers.

## Main results

* `Statistics.variance_eq`, `Statistics.variance_nonneg`: the two forms of the variance.
* `Statistics.isLeast_concat`, `Statistics.isGreatest_concat`: extremes of one more number.
-/

namespace Statistics

section Moments

variable {K : Type*} [Field K]

/-- The mean, zero for the empty list. -/
def mean (l : List K) : K := l.sum / l.length

/-- The variance: the mean of the squared deviations from the mean. -/
def variance (l : List K) : K := mean (l.map fun x => (x - mean l) ^ 2)

theorem sum_sq_sub (l : List K) (m : K) :
    (l.map fun x => (x - m) ^ 2).sum =
      (l.map fun x => x ^ 2).sum - 2 * m * l.sum + l.length * m ^ 2 := by
  induction l with
  | nil => simp
  | cons x l ih =>
    simp only [List.map_cons, List.sum_cons, List.length_cons, Nat.cast_add, Nat.cast_one, ih]
    ring

@[simp] theorem variance_nil : variance ([] : List K) = 0 := by simp [variance, mean]

@[simp] theorem variance_singleton (x : K) : variance [x] = 0 := by simp [variance, mean]

/-- **The variance.** The mean of the squares without the square of the mean. -/
theorem variance_eq [CharZero K] {l : List K} (h : l ≠ []) :
    variance l = (l.map fun x => x ^ 2).sum / l.length - mean l ^ 2 := by
  have hlen : (l.length : K) ≠ 0 := by simpa using h
  have hsum : l.sum = l.length * mean l := by rw [mean, mul_div_cancel₀ _ hlen]
  rw [variance, mean, List.length_map, sum_sq_sub, hsum]
  field_simp
  ring

theorem variance_nonneg [LinearOrder K] [IsStrictOrderedRing K] (l : List K) :
    0 ≤ variance l := by
  refine div_nonneg (List.sum_nonneg fun x hx => ?_) (Nat.cast_nonneg _)
  obtain ⟨y, -, rfl⟩ := List.mem_map.mp hx
  exact sq_nonneg _

end Moments

/-! ### Consecutive numbers -/

section Gaps

variable {K : Type*} [Sub K]

/-- The differences of consecutive numbers. -/
def gaps (l : List K) : List K := List.zipWith (fun x y => y - x) l l.tail

@[simp] theorem length_gaps (l : List K) : (gaps l).length = l.length - 1 := by
  rw [gaps, List.length_zipWith, List.length_tail, min_eq_right (Nat.sub_le _ _)]

/-- One more number adds its difference to the last one. -/
theorem gaps_concat (l : List K) (x y : K) :
    gaps (l ++ [x] ++ [y]) = gaps (l ++ [x]) ++ [y - x] := by
  induction l with
  | nil => rfl
  | cons z l ih =>
    cases l with
    | nil => rfl
    | cons z' l => exact congrArg ((z' - z) :: ·) ih

end Gaps

/-! ### Extremes -/

section Extremes

variable {K : Type*} [LinearOrder K] {l : List K} {m : K}

/-- The running minimum. -/
theorem isLeast_concat (h : IsLeast {x | x ∈ l} m) (y : K) :
    IsLeast {x | x ∈ l ++ [y]} (if y < m then y else m) := by
  have hset : {x | x ∈ l ++ [y]} = insert y {x | x ∈ l} := by
    ext x
    simp [or_comm]
  have hmin : (if y < m then y else m) = min y m := by
    rcases lt_or_ge y m with hlt | hge
    · rw [if_pos hlt, min_eq_left hlt.le]
    · rw [if_neg (not_lt.mpr hge), min_eq_right hge]
  rw [hset, hmin]
  exact h.insert y

/-- The running maximum. -/
theorem isGreatest_concat (h : IsGreatest {x | x ∈ l} m) (y : K) :
    IsGreatest {x | x ∈ l ++ [y]} (if m < y then y else m) := by
  have hset : {x | x ∈ l ++ [y]} = insert y {x | x ∈ l} := by
    ext x
    simp [or_comm]
  have hmax : (if m < y then y else m) = max y m := by
    rcases lt_or_ge m y with hlt | hge
    · rw [if_pos hlt, max_eq_left hlt.le]
    · rw [if_neg (not_lt.mpr hge), max_eq_right hge]
  rw [hset, hmax]
  exact h.insert y

theorem isLeast_singleton (x : K) : IsLeast {y | y ∈ [x]} x := by
  simp [IsLeast]

theorem isGreatest_singleton (x : K) : IsGreatest {y | y ∈ [x]} x := by
  simp [IsGreatest]

/-- A start value above all numbers is not their minimum. -/
theorem isLeast_of_cons {c : K} (h : IsLeast {x | x ∈ c :: l} m) (hl : l ≠ [])
    (hc : ∀ x ∈ l, x < c) : IsLeast {x | x ∈ l} m := by
  obtain ⟨hmem, hle⟩ := h
  refine ⟨?_, fun x hx => hle (List.mem_cons_of_mem c hx)⟩
  rcases List.mem_cons.mp hmem with rfl | hmem
  · obtain ⟨x, hx⟩ := List.exists_mem_of_ne_nil l hl
    exact absurd (hle (List.mem_cons_of_mem m hx)) (not_le.mpr (hc x hx))
  · exact hmem

/-- A start value below all numbers is at most their maximum. -/
theorem isGreatest_of_cons {c : K} (h : IsGreatest {x | x ∈ c :: l} m) (hl : l ≠ [])
    (hc : ∀ x ∈ l, c ≤ x) : IsGreatest {x | x ∈ l} m := by
  obtain ⟨hmem, hle⟩ := h
  refine ⟨?_, fun x hx => hle (List.mem_cons_of_mem c hx)⟩
  rcases List.mem_cons.mp hmem with rfl | hmem
  · obtain ⟨x, hx⟩ := List.exists_mem_of_ne_nil l hl
    have heq : x = m := le_antisymm (hle (List.mem_cons_of_mem m hx)) (hc x hx)
    exact heq ▸ hx
  · exact hmem

end Extremes

end Statistics
