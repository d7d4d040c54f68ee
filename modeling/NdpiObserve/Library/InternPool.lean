import Mathlib

/-!
# Pools of interned values

A pool gives each value a place: the place where it has stood since it was first asked for. A
value that is new to a pool joins it at the end as long as there is room, and gets no place
otherwise. Places never change, and different values have different places.

## Main definitions

* `InternPool.intern`: asking a pool for a value.
* `InternPool.fill`: the pool after it was asked for some values.

## Main results

* `InternPool.intern_of_prefix`: a place is kept while the pool grows.
* `InternPool.place_eq_iff`: different values have different places.
* `InternPool.nodup_fill`, `InternPool.length_fill_le`: the pool after any values.
-/

namespace InternPool

variable {α : Type*} [DecidableEq α]

/-- The pool after it was asked for `x`, and the place of `x`, if there is room for it. -/
def intern (cap : ℕ) (l : List α) (x : α) : List α × Option ℕ :=
  match l.findIdx? (· = x) with
  | some i => (l, some i)
  | none => if l.length ≥ cap then (l, none) else (l ++ [x], some l.length)

variable {cap : ℕ} {l l' : List α} {x y : α} {i j : ℕ}

/-! ### One value -/

theorem intern_of_getElem? (hl : l.Nodup) (h : l[i]? = some x) :
    intern cap l x = (l, some i) := by
  obtain ⟨hlt, rfl⟩ := List.getElem?_eq_some_iff.mp h
  have hfind : l.findIdx? (· = l[i]) = some i := by
    refine List.findIdx?_eq_some_iff_getElem.mpr ⟨hlt, by simp, fun j hj => ?_⟩
    have hne : l[j] ≠ l[i] := fun heq => hj.ne ((hl.getElem_inj_iff).mp heq)
    simp [hne]
  rw [intern, hfind]

theorem findIdx?_of_notMem (h : x ∉ l) : l.findIdx? (· = x) = none := by
  refine List.findIdx?_eq_none_iff.mpr fun z hz => ?_
  have hne : z ≠ x := fun heq => h (heq ▸ hz)
  simp [hne]

theorem intern_of_room (h : x ∉ l) (hroom : l.length < cap) :
    intern cap l x = (l ++ [x], some l.length) := by
  rw [intern, findIdx?_of_notMem h]
  exact if_neg (not_le.mpr hroom)

theorem intern_of_full (h : x ∉ l) (hfull : cap ≤ l.length) : intern cap l x = (l, none) := by
  rw [intern, findIdx?_of_notMem h]
  exact if_pos hfull

/-- The value has a place, joins the pool, or finds no room. -/
theorem intern_cases (cap : ℕ) (hl : l.Nodup) (x : α) :
    (∃ i, l[i]? = some x ∧ intern cap l x = (l, some i)) ∨
    (x ∉ l ∧ l.length < cap ∧ intern cap l x = (l ++ [x], some l.length)) ∨
    (x ∉ l ∧ cap ≤ l.length ∧ intern cap l x = (l, none)) := by
  by_cases hmem : x ∈ l
  · obtain ⟨i, hi⟩ := List.getElem?_of_mem hmem
    exact .inl ⟨i, hi, intern_of_getElem? hl hi⟩
  · rcases Nat.lt_or_ge l.length cap with hroom | hfull
    · exact .inr (.inl ⟨hmem, hroom, intern_of_room hmem hroom⟩)
    · exact .inr (.inr ⟨hmem, hfull, intern_of_full hmem hfull⟩)

/-- The place of a value is where it stands. -/
theorem getElem?_intern (hl : l.Nodup) (h : (intern cap l x).2 = some i) :
    (intern cap l x).1[i]? = some x := by
  rcases intern_cases cap hl x with ⟨j, hj, heq⟩ | ⟨-, -, heq⟩ | ⟨-, -, heq⟩
  · rw [heq] at h ⊢
    exact Option.some.inj h ▸ hj
  · rw [heq] at h ⊢
    rw [← Option.some.inj h]
    exact List.getElem?_concat_length
  · rw [heq] at h
    cases h

theorem prefix_intern (cap : ℕ) (hl : l.Nodup) (x : α) : l <+: (intern cap l x).1 := by
  rcases intern_cases cap hl x with ⟨j, -, heq⟩ | ⟨-, -, heq⟩ | ⟨-, -, heq⟩
  · rw [heq]
  · rw [heq]
    exact List.prefix_append l [x]
  · rw [heq]

theorem nodup_intern (cap : ℕ) (hl : l.Nodup) (x : α) : (intern cap l x).1.Nodup := by
  rcases intern_cases cap hl x with ⟨j, -, heq⟩ | ⟨hnew, -, heq⟩ | ⟨-, -, heq⟩
  · rwa [heq]
  · rw [heq, ← List.concat_eq_append]
    exact (List.nodup_concat _ _).mpr ⟨hnew, hl⟩
  · rwa [heq]

theorem length_intern_le (hl : l.Nodup) (hlen : l.length ≤ cap) (x : α) :
    (intern cap l x).1.length ≤ cap := by
  rcases intern_cases cap hl x with ⟨j, -, heq⟩ | ⟨-, hroom, heq⟩ | ⟨-, -, heq⟩
  · rwa [heq]
  · rw [heq, List.length_append]
    exact hroom
  · rwa [heq]

/-- **Stability.** A value keeps its place while the pool grows. -/
theorem intern_of_prefix (hl : l.Nodup) (h : (intern cap l x).2 = some i)
    (hpre : (intern cap l x).1 <+: l') (hl' : l'.Nodup) : intern cap l' x = (l', some i) := by
  refine intern_of_getElem? hl' ?_
  obtain ⟨rest, rfl⟩ := hpre
  have hi := getElem?_intern hl h
  rwa [List.getElem?_append_left (List.getElem?_eq_some_iff.mp hi).choose]

/-- **Injectivity.** Values have the same place, then and later, if and only if they are equal. -/
theorem place_eq_iff (hl : l.Nodup) (h : (intern cap l x).2 = some i)
    (hpre : (intern cap l x).1 <+: l') (hl' : l'.Nodup) (h' : (intern cap l' y).2 = some j) :
    i = j ↔ x = y := by
  have hx := intern_of_prefix hl h hpre hl'
  constructor
  · rintro rfl
    have hgrown : (intern cap l x).1 <+: (intern cap l' y).1 :=
      hpre.trans (prefix_intern cap hl' y)
    have hlast := intern_of_prefix hl h hgrown (nodup_intern cap hl' y)
    have hstands := getElem?_intern (nodup_intern cap hl' y) (congrArg Prod.snd hlast)
    rw [hlast, getElem?_intern hl' h'] at hstands
    exact (Option.some.inj hstands).symm
  · rintro rfl
    rw [hx] at h'
    exact Option.some.inj h'

/-- There is a place for every value while there is room. -/
theorem isSome_intern (hl : l.Nodup) (hroom : l.length < cap) (x : α) :
    (intern cap l x).2.isSome = true := by
  rcases intern_cases cap hl x with ⟨j, -, heq⟩ | ⟨-, -, heq⟩ | ⟨-, hfull, -⟩
  · rw [heq]
    rfl
  · rw [heq]
    rfl
  · omega

/-! ### Many values -/

/-- The pool after it was asked for the values, one after the other. -/
def fill (cap : ℕ) (l : List α) (xs : List α) : List α :=
  xs.foldl (fun l x => (intern cap l x).1) l

theorem nodup_fill (cap : ℕ) (hl : l.Nodup) (xs : List α) : (fill cap l xs).Nodup := by
  induction xs generalizing l with
  | nil => exact hl
  | cons x xs ih => exact ih (nodup_intern cap hl x)

theorem length_fill_le (hl : l.Nodup) (hlen : l.length ≤ cap) (xs : List α) :
    (fill cap l xs).length ≤ cap := by
  induction xs generalizing l with
  | nil => exact hlen
  | cons x xs ih => exact ih (nodup_intern cap hl x) (length_intern_le hl hlen x)

/-- The pool grows at its end. -/
theorem prefix_fill (cap : ℕ) (hl : l.Nodup) (xs : List α) : l <+: fill cap l xs := by
  induction xs generalizing l with
  | nil => exact List.prefix_rfl
  | cons x xs ih => exact (prefix_intern cap hl x).trans (ih (nodup_intern cap hl x))

end InternPool
