import Mathlib

/-!
# Ledgers

A ledger is a list of postings, each a credit or a debit of one unit on an account of any type.
A ledger is solvent when no account is overdrawn after any prefix of the postings, so that a
counter that starts at zero and follows the postings is never decremented at zero. Counters of
fixed width never show more than was posted.

## Main definitions

* `Ledger.Posting`, `Ledger.balance`: postings, and the balance of an account after them.
* `Ledger.Solvent`: no prefix overdraws an account.
* `Ledger.booked`: a list whose first items are booked at one rate and the others at another.

## Main results

* `Ledger.Solvent.append`, `Ledger.Solvent.credit`, `Ledger.Solvent.debit`: solvent ledgers are
  built by posting debits only where there is credit.
* `Ledger.Solvent.balance_pos_of_debit`: every debit of a solvent ledger finds credit.
* `Ledger.toNat_sum_le`, `Ledger.sum_sum_ite_le_card`: bounds of counters that wrap.
* `Ledger.booked_eq_iff`: when the place at which the rate changes makes no difference.
-/

namespace Ledger

variable {α : Type*}

/-- One unit moved into or out of an account. -/
inductive Posting (α : Type*) where
  | credit (a : α)
  | debit (a : α)

variable [DecidableEq α]

/-- What a posting adds to the balance of an account. -/
def Posting.amount (a : α) : Posting α → ℤ
  | .credit b => if b = a then 1 else 0
  | .debit b => if b = a then -1 else 0

/-- The balance of an account after the postings. -/
def balance (a : α) (l : List (Posting α)) : ℤ := (l.map (Posting.amount a)).sum

@[simp] theorem balance_nil (a : α) : balance a [] = 0 := rfl

@[simp] theorem balance_cons (a : α) (p : Posting α) (l : List (Posting α)) :
    balance a (p :: l) = p.amount a + balance a l := List.sum_cons

@[simp] theorem balance_append (a : α) (l l' : List (Posting α)) :
    balance a (l ++ l') = balance a l + balance a l' := by
  simp [balance]

@[simp] theorem amount_credit (a b : α) :
    (Posting.credit b).amount a = if b = a then 1 else 0 := rfl

@[simp] theorem amount_debit (a b : α) :
    (Posting.debit b).amount a = if b = a then -1 else 0 := rfl

/-- No account is overdrawn after any prefix of the postings. -/
def Solvent (l : List (Posting α)) : Prop := ∀ a, ∀ p, p <+: l → 0 ≤ balance a p

theorem solvent_nil : Solvent ([] : List (Posting α)) := by
  intro a p hp
  rw [List.prefix_nil.mp hp, balance_nil]

theorem Solvent.balance_nonneg {l : List (Posting α)} (h : Solvent l) (a : α) :
    0 ≤ balance a l :=
  h a l List.prefix_rfl

theorem Solvent.append {l l' : List (Posting α)} (h : Solvent l) (h' : Solvent l') :
    Solvent (l ++ l') := by
  intro a p hp
  obtain ⟨s, hs⟩ := hp
  rcases List.append_eq_append_iff.mp hs with ⟨q, rfl, rfl⟩ | ⟨q, rfl, rfl⟩
  · exact h a p ⟨q, rfl⟩
  · rw [balance_append]
    exact add_nonneg (h.balance_nonneg a) (h' a q ⟨s, rfl⟩)

/-- One more posting, when it leaves no account overdrawn. -/
theorem Solvent.concat {l : List (Posting α)} (h : Solvent l) {p : Posting α}
    (hp : ∀ a, 0 ≤ balance a l + p.amount a) : Solvent (l ++ [p]) := by
  intro a q hq
  rcases List.prefix_concat_iff.mp hq with rfl | hq
  · simpa using hp a
  · exact h a q hq

theorem Solvent.credit {l : List (Posting α)} (h : Solvent l) (b : α) :
    Solvent (l ++ [.credit b]) := by
  refine h.concat fun a => ?_
  have hnonneg := h.balance_nonneg a
  rw [amount_credit]
  split <;> omega

theorem Solvent.debit {l : List (Posting α)} (h : Solvent l) {b : α} (hb : 0 < balance b l) :
    Solvent (l ++ [.debit b]) := by
  refine h.concat fun a => ?_
  have hnonneg := h.balance_nonneg a
  rw [amount_debit]
  split
  · subst_vars
    omega
  · omega

/-- **A debit finds credit.** Just before any debit of a solvent ledger the account holds at
least one unit. -/
theorem Solvent.balance_pos_of_debit {l l' : List (Posting α)} {a : α}
    (h : Solvent (l ++ .debit a :: l')) : 0 < balance a l := by
  have hprefix : l ++ [.debit a] <+: l ++ .debit a :: l' := ⟨l', by simp⟩
  have hnonneg := h a _ hprefix
  simp only [balance_append, balance_cons, amount_debit, if_true, balance_nil] at hnonneg
  omega

/-! ### Counters that wrap -/

/-- The sum of wrapping counters is at most the sum of their values. -/
theorem toNat_sum_le (s : Multiset UInt64) : s.sum.toNat ≤ (s.map UInt64.toNat).sum := by
  induction s using Multiset.induction_on with
  | empty => exact le_refl _
  | cons x s ih =>
    rw [Multiset.sum_cons, Multiset.map_cons, Multiset.sum_cons, UInt64.toNat_add]
    exact (Nat.mod_le _ _).trans (Nat.add_le_add_left ih _)

theorem ofNat_sum {ι : Type*} (s : Finset ι) (f : ι → ℕ) :
    UInt64.ofNat (∑ i ∈ s, f i) = ∑ i ∈ s, UInt64.ofNat (f i) := by
  classical
  induction s using Finset.induction_on with
  | empty => rfl
  | insert i s hi ih => rw [Finset.sum_insert hi, Finset.sum_insert hi, UInt64.ofNat_add, ih]

/-- Each element is counted under at most one index. -/
theorem sum_sum_ite_le_card {β : Type*} {n : ℕ} (s : Multiset β) (g : β → ℕ) :
    ∑ i : Fin n, (s.map fun x => if g x = i.val then 1 else 0).sum ≤ Multiset.card s := by
  induction s using Multiset.induction_on with
  | empty => simp
  | cons x s ih =>
    simp only [Multiset.map_cons, Multiset.sum_cons, Multiset.card_cons, Finset.sum_add_distrib]
    have hone : ∑ i : Fin n, (if g x = i.val then 1 else 0) ≤ 1 := by
      rw [Finset.sum_boole, Nat.cast_id]
      refine Finset.card_le_one.mpr fun i hi j hj => Fin.ext ?_
      rw [← (Finset.mem_filter.mp hi).2, ← (Finset.mem_filter.mp hj).2]
    omega

theorem sum_countP_le_length {β : Type*} {n : ℕ} (l : List β) (g : β → ℕ) :
    ∑ i : Fin n, l.countP (fun x => g x = i.val) ≤ l.length := by
  refine (Finset.sum_le_sum fun i _ => le_of_eq ?_).trans (sum_sum_ite_le_card (l : Multiset β) g)
  rw [Multiset.map_coe, Multiset.sum_coe]
  induction l with
  | nil => rfl
  | cons x l ih =>
    rw [List.countP_cons, List.map_cons, List.sum_cons, ← ih, add_comm]
    simp only [decide_eq_true_eq]

/-! ### Two rates -/

section Booked

variable {α M : Type*} [AddCommGroup M]

/-- The items of a list booked at two rates: the first `n` at one, the others at another. -/
def booked (f g : α → M) (l : List α) (n : ℕ) : M :=
  ((l.take n).map f).sum + ((l.drop n).map g).sum

theorem booked_append (f g : α → M) (a b : List α) :
    booked f g (a ++ b) a.length = (a.map f).sum + (b.map g).sum := by
  rw [booked, List.take_left, List.drop_left]

theorem booked_eq_iff_of_le (f g : α → M) (l : List α) {m n : ℕ} (h : m ≤ n) :
    booked f g l m = booked f g l n ↔
      (((l.take n).drop m).map f).sum = (((l.take n).drop m).map g).sum := by
  have htake : l.take n = l.take m ++ (l.take n).drop m := by
    have hfirst : l.take m = (l.take n).take m := by rw [List.take_take, min_eq_left h]
    rw [hfirst, List.take_append_drop]
  have hdrop : l.drop m = (l.take n).drop m ++ l.drop n := by
    have hrest : l.drop n = (l.drop m).drop (n - m) := by
      rw [List.drop_drop, Nat.add_sub_cancel' h]
    rw [List.drop_take, hrest, List.take_append_drop]
  generalize (l.take n).drop m = between at htake hdrop ⊢
  rw [booked, booked, htake, hdrop, List.map_append, List.map_append, List.sum_append,
    List.sum_append, ← add_assoc, add_left_inj, add_right_inj, eq_comm]

/-- Two bookings of a list agree exactly when the items between the two places are worth the same
at both rates. -/
theorem booked_eq_iff (f g : α → M) (l : List α) (m n : ℕ) :
    booked f g l m = booked f g l n ↔
      (((l.take (max m n)).drop (min m n)).map f).sum =
        (((l.take (max m n)).drop (min m n)).map g).sum := by
  rcases le_total m n with h | h
  · rw [max_eq_right h, min_eq_left h]
    exact booked_eq_iff_of_le f g l h
  · rw [max_eq_left h, min_eq_right h, eq_comm]
    exact booked_eq_iff_of_le f g l h

end Booked

end Ledger
