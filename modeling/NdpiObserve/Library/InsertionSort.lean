import Mathlib

/-!
# Insertion sort in an array

An array of a fixed length is sorted in place, greatest key first: the element at each place moves
in front of the elements before it with smaller keys, which move up by one place each. Elements
with equal keys keep their order, so the result is determined by the keys and the order of the
array at the start.

## Main definitions

* `InsertionSort.shift`: the inner loop, on one element.
* `InsertionSort.insertionSort`: the sort.
* `InsertionSort.Ahead`: the order of the result.

## Main results

* `InsertionSort.toList_insertionSort`: the sort, as insertions into a list.
* `InsertionSort.perm_insertionSort`, `InsertionSort.pairwise_insertionSort`: the result has the
  elements of the array, in order.
* `InsertionSort.filter_eq_take_countP`: what a predicate keeps of a sorted list.
-/

namespace InsertionSort

variable {α β : Type*} [LinearOrder β] (f : α → β) {N : ℕ}

/-- The inner loop: there is room for `key` at place `n`. As long as the element before has a
smaller key, it is moved up. -/
def shift (key : α) : (n : ℕ) → n < N → Vector α N → Vector α N
  | 0, h, v => v.set 0 key
  | n + 1, h, v =>
    if f v[n] < f key then shift key n (by omega) (v.set (n + 1) v[n]) else v.set (n + 1) key

/-- The outer loop, from the second place on. -/
def insertionSort (v : Vector α N) : Vector α N :=
  ((List.finRange N).drop 1).foldl (fun v (i : Fin N) => shift f v[i] i i.isLt v) v

/-- The element `a` is ahead of `b`: its key is greater, or they have the same key and `a` comes
before `b` in the order `S`. -/
def Ahead (S : α → α → Prop) (a b : α) : Prop := f b < f a ∨ f a = f b ∧ S a b

variable {f} {S : α → α → Prop} {l : List α} {x y : α}

theorem Ahead.le (h : Ahead f S x y) : f y ≤ f x := by
  rcases h with hlt | ⟨heq, -⟩
  · exact hlt.le
  · exact heq.ge

/-! ### Insertion into a list -/

/-- The list with `x` in front of the elements with smaller keys at its end. -/
def place (f : α → β) (l : List α) (x : α) : List α :=
  l.rdropWhile (f · < f x) ++ x :: l.rtakeWhile (f · < f x)

theorem place_concat_of_lt (h : f y < f x) : place f (l ++ [y]) x = place f l x ++ [y] := by
  have hy : decide (f y < f x) = true := decide_eq_true h
  rw [place, List.rdropWhile_concat_pos (f · < f x) l y hy,
    List.rtakeWhile_concat_pos (f · < f x) l y hy, place, List.append_assoc, List.cons_append]

theorem place_concat_of_not_lt (h : ¬f y < f x) : place f (l ++ [y]) x = l ++ [y] ++ [x] := by
  have hy : ¬decide (f y < f x) = true := by simpa using h
  rw [place, List.rdropWhile_concat_neg (f · < f x) l y hy,
    List.rtakeWhile_concat_neg (f · < f x) l y hy]

theorem perm_place (f : α → β) (l : List α) (x : α) : (place f l x).Perm (x :: l) := by
  have hsplit : l.rdropWhile (f · < f x) ++ l.rtakeWhile (f · < f x) = l :=
    List.rdropWhile_append_rtakeWhile
  have hmiddle : (place f l x).Perm
      (x :: (l.rdropWhile (f · < f x) ++ l.rtakeWhile (f · < f x))) := List.perm_middle
  rwa [hsplit] at hmiddle

/-- The elements in front have keys at least as great. -/
theorem le_of_mem_rdropWhile (hl : l.Pairwise (Ahead f S)) (h : y ∈ l.rdropWhile (f · < f x)) :
    f x ≤ f y := by
  have hd : (l.rdropWhile (f · < f x)).Pairwise (Ahead f S) :=
    hl.sublist (List.rdropWhile_prefix _ l).sublist
  have hne : l.rdropWhile (f · < f x) ≠ [] := List.ne_nil_of_mem h
  have hlast := List.rdropWhile_last_not (f · < f x) l hne
  rw [decide_eq_true_iff, not_lt] at hlast
  -- the last of them has such a key, and the others are ahead of it
  rw [← List.dropLast_append_getLast hne] at h hd
  rcases List.mem_append.mp h with hy | hy
  · have hcross := (List.pairwise_append.mp hd).2.2
    exact hlast.trans (hcross y hy _ (List.mem_singleton_self _)).le
  · rwa [List.mem_singleton.mp hy]

/-- An insertion keeps the order, for an element that comes after all others in `S`. -/
theorem pairwise_place (hl : l.Pairwise (Ahead f S)) (hx : ∀ a ∈ l, S a x) :
    (place f l x).Pairwise (Ahead f S) := by
  have hsplit : l.rdropWhile (f · < f x) ++ l.rtakeWhile (f · < f x) = l :=
    List.rdropWhile_append_rtakeWhile
  have hahead : ∀ a ∈ l.rdropWhile (f · < f x), Ahead f S a x := by
    intro a ha
    rcases (le_of_mem_rdropWhile hl ha).lt_or_eq with hlt | heq
    · exact .inl hlt
    · exact .inr ⟨heq.symm, hx a ((List.rdropWhile_prefix _ l).subset ha)⟩
  have hbehind : ∀ b ∈ l.rtakeWhile (f · < f x), Ahead f S x b := fun b hb =>
    .inl (by simpa using List.mem_rtakeWhile_imp hb)
  rw [← hsplit] at hl
  obtain ⟨hfront, hback, hcross⟩ := List.pairwise_append.mp hl
  refine List.pairwise_append.mpr ⟨hfront, List.pairwise_cons.mpr ⟨hbehind, hback⟩, ?_⟩
  intro a ha b hb
  rcases List.mem_cons.mp hb with rfl | hb
  · exact hahead a ha
  · exact hcross a ha b hb

theorem perm_foldl_place (f : α → β) (l r : List α) : (r.foldl (place f) l).Perm (l ++ r) := by
  induction r generalizing l with
  | nil => simp
  | cons x r ih =>
    have hplaced : (place f l x ++ r).Perm (x :: (l ++ r)) := (perm_place f l x).append_right r
    exact ((ih _).trans hplaced).trans List.perm_middle.symm

theorem pairwise_foldl_place {r : List α} (hl : l.Pairwise (Ahead f S)) (hr : r.Pairwise S)
    (hcross : ∀ a ∈ l, ∀ b ∈ r, S a b) : (r.foldl (place f) l).Pairwise (Ahead f S) := by
  induction r generalizing l with
  | nil => exact hl
  | cons x r ih =>
    obtain ⟨hx, hr⟩ := List.pairwise_cons.mp hr
    refine ih (pairwise_place hl fun a ha => hcross a ha x List.mem_cons_self) hr ?_
    intro a ha b hb
    rcases List.mem_cons.mp ((perm_place f l x).subset ha) with rfl | ha
    · exact hx b hb
    · exact hcross a ha b (List.mem_cons_of_mem x hb)

/-! ### The array -/

theorem getElem_of_toList {v : Vector α N} {l r : List α} (hv : v.toList = l ++ x :: r) {n : ℕ}
    (hl : l.length = n) {hn : n < N} : v[n] = x := by
  have hget : v.toList[n]? = some x := by
    rw [hv, ← hl]
    simp
  rw [Vector.getElem?_toList] at hget
  exact (Vector.getElem?_eq_some_iff.mp hget).2

/-- The inner loop is an insertion into the list of the elements before the place. -/
theorem toList_shift (key : α) {n : ℕ} (hn : n < N) {v : Vector α N} {l r : List α} {h : α}
    (hv : v.toList = l ++ h :: r) (hl : l.length = n) :
    (shift f key n hn v).toList = place f l key ++ r := by
  induction n generalizing v l r h with
  | zero =>
    obtain rfl := List.eq_nil_of_length_eq_zero hl
    rw [shift, Vector.toList_set, hv]
    rfl
  | succ n ih =>
    obtain ⟨l, y, rfl⟩ := (List.eq_nil_or_concat' l).resolve_left (by rintro rfl; simp at hl)
    have hlen : l.length = n := by simpa using hl
    have hy : v[n] = y :=
      getElem_of_toList (by rw [hv, List.append_assoc, List.singleton_append]) hlen
    have hset (z : α) : (v.set (n + 1) z).toList = l ++ [y] ++ z :: r := by
      rw [Vector.toList_set, hv, ← hl]
      exact List.set_append_right _ _ le_rfl |>.trans (by simp)
    rw [shift, hy]
    split
    case isTrue hlt =>
      rw [place_concat_of_lt hlt, List.append_assoc, List.singleton_append]
      exact ih _ ((hset y).trans (List.append_assoc _ _ _)) hlen
    case isFalse hge =>
      rw [place_concat_of_not_lt hge, hset, List.append_assoc (l ++ [y]), List.singleton_append]

/-- The outer loop, from the place `l.length` on. -/
theorem toList_foldl_shift (f : α → β) {v : Vector α N} {l r : List α} (hv : v.toList = l ++ r) :
    (((List.finRange N).drop l.length).foldl
      (fun v (i : Fin N) => shift f v[i] i i.isLt v) v).toList = r.foldl (place f) l := by
  have hN : l.length + r.length = N := by
    rw [← List.length_append, ← hv, Vector.length_toList]
  induction r generalizing v l with
  | nil =>
    rw [List.drop_eq_nil_of_le (by simp [← hN])]
    simpa using hv
  | cons x r ih =>
    have hlt : l.length < N := by
      rw [← hN, List.length_cons]
      omega
    have hx : v[l.length] = x := getElem_of_toList hv rfl
    have hdrop : (List.finRange N).drop l.length =
        ⟨l.length, hlt⟩ :: (List.finRange N).drop (l.length + 1) := by
      rw [List.drop_eq_getElem_cons (by simpa using hlt), List.getElem_finRange]
      rfl
    have hlen : (place f l x).length = l.length + 1 := (perm_place f l x).length_eq
    have hstep := toList_shift (f := f) x hlt hv rfl
    rw [hdrop, List.foldl_cons, List.foldl_cons, ← hlen]
    refine ih ?_ ?_
    · rw [← hstep, ← hx]
      rfl
    · rw [hlen, ← hN, List.length_cons]
      omega

/-- The sort inserts the elements one after the other. -/
theorem toList_insertionSort (f : α → β) (v : Vector α N) :
    (insertionSort f v).toList = v.toList.foldl (place f) [] := by
  cases hv : v.toList with
  | nil =>
    have hlen : v.toList.length = N := Vector.length_toList
    rw [hv, List.length_nil] at hlen
    subst hlen
    exact hv
  | cons x r => exact toList_foldl_shift f (l := [x]) hv

theorem perm_insertionSort (f : α → β) (v : Vector α N) :
    (insertionSort f v).toList.Perm v.toList := by
  rw [toList_insertionSort]
  exact perm_foldl_place f [] v.toList

/-- **The sort.** The result is in order, for an array that is in the order `S` at the start. -/
theorem pairwise_insertionSort {v : Vector α N} (hv : v.toList.Pairwise S) :
    (insertionSort f v).toList.Pairwise (Ahead f S) := by
  rw [toList_insertionSort]
  exact pairwise_foldl_place List.Pairwise.nil hv (by simp)

example : (insertionSort Prod.fst #v[(1, 0), (2, 1), (1, 2), (2, 3)]).toList =
    [(2, 1), (2, 3), (1, 0), (1, 2)] := by decide

/-! ### Lists in order -/

/-- A predicate that holds of `a` whenever it holds of an element behind `a` keeps the first
elements of a list. -/
theorem filter_eq_take_countP {p : α → Bool} (hl : l.Pairwise fun a b => p b → p a) :
    l.filter p = l.take (l.countP p) := by
  induction l with
  | nil => rfl
  | cons x l ih =>
    obtain ⟨hx, hl⟩ := List.pairwise_cons.mp hl
    by_cases hp : p x
    · rw [List.filter_cons_of_pos hp, List.countP_cons_of_pos hp, List.take_succ_cons, ih hl]
    · have hnone : l.countP p = 0 := List.countP_eq_zero.mpr fun b hb hpb => hp (hx b hb hpb)
      rw [List.filter_cons_of_neg hp, List.countP_cons_of_neg hp, ih hl, hnone, List.take_zero,
        List.take_zero]

/-- What is among the first elements of a list is related to what is not. -/
theorem rel_of_mem_take (hl : l.Pairwise S) {n : ℕ} (hx : x ∈ l.take n) (hy : y ∈ l)
    (hout : y ∉ l.take n) : S x y := by
  rw [← List.take_append_drop n l] at hl hy
  exact (List.pairwise_append.mp hl).2.2 x hx y ((List.mem_append.mp hy).resolve_left hout)

end InsertionSort
