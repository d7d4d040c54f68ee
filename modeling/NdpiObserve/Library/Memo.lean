import Mathlib

/-!
# Memos of a stateful function

A function that may change its state is remembered in a table of slots, each with a key and an
answer. The answers that count are given for good: in every later state the key has the same
answer, and asking for it changes nothing. So a slot stays correct while the state moves on and
other slots are filled, as long as a slot with a new key has no answer that counts.

## Main definitions

* `Memo.GivenForGood`: the answers of a function that later states repeat.
* `Memo.Coherent`: asking for the key of a slot gives the answer in the slot.

## Main results

* `Memo.Coherent.ask`, `Memo.Coherent.remember`: asking, and keeping the answer.
* `Memo.Coherent.forget`: a new key.
-/

namespace Memo

variable {σ κ υ ι : Type*}

/-- In states with `I`, that `R` relates to their later states, the answers of `f` with `ok` are
given for good. -/
structure GivenForGood (I : σ → Prop) (R : σ → σ → Prop) (ok : υ → Prop) (f : κ → σ → σ × υ) :
    Prop where
  later : ∀ {s} k, I s → R s (f k s).1
  keeps : ∀ {s} k, I s → I (f k s).1
  again : ∀ {s s'} k, I s → I s' → ok (f k s).2 → R (f k s).1 s' → f k s' = (s', (f k s).2)

/-- The slots of a memo whose answers count are what the function answers in the state. -/
def Coherent (ok : υ → Prop) (f : κ → σ → σ × υ) (s : σ) (memo : ι → κ × υ) : Prop :=
  ∀ i, ok (memo i).2 → f (memo i).1 s = (s, (memo i).2)

variable {I : σ → Prop} {R : σ → σ → Prop} {ok : υ → Prop} {f : κ → σ → σ × υ} {s s' : σ}
  {memo : ι → κ × υ}

/-- A coherent memo stays coherent in later states. -/
theorem Coherent.later (hf : GivenForGood I R ok f) (hs : I s) (hs' : I s')
    (h : Coherent ok f s memo) (hR : R s s') : Coherent ok f s' memo := by
  intro i hi
  have hnow := h i hi
  have hagain : ok (f (memo i).1 s).2 → R (f (memo i).1 s).1 s' →
      f (memo i).1 s' = (s', (f (memo i).1 s).2) := hf.again (memo i).1 hs hs'
  rw [hnow] at hagain
  exact hagain hi hR

/-- Asking for a key. -/
theorem Coherent.ask (hf : GivenForGood I R ok f) (hs : I s) (h : Coherent ok f s memo) (k : κ) :
    Coherent ok f (f k s).1 memo :=
  h.later hf hs (hf.keeps k hs) (hf.later k hs)

variable [DecidableEq ι]

/-- A slot that answers what the function does. -/
theorem Coherent.update (h : Coherent ok f s memo) (i : ι) {k : κ} {v : υ}
    (hv : ok v → f k s = (s, v)) : Coherent ok f s (Function.update memo i (k, v)) := by
  intro j
  rcases eq_or_ne j i with rfl | hne
  · rw [Function.update_self]
    exact hv
  · rw [Function.update_of_ne hne]
    exact h j

/-- A slot with a new key and no answer. -/
theorem Coherent.forget (h : Coherent ok f s memo) (i : ι) (k : κ) {v : υ} (hv : ¬ok v) :
    Coherent ok f s (Function.update memo i (k, v)) :=
  h.update i fun hok => absurd hok hv

/-- The answer for a key is kept in a slot. -/
theorem Coherent.remember (hf : GivenForGood I R ok f) (hrefl : ∀ s, R s s) (hs : I s)
    (h : Coherent ok f s memo) (i : ι) (k : κ) :
    Coherent ok f (f k s).1 (Function.update memo i (k, (f k s).2)) :=
  (h.ask hf hs k).update i fun hok => hf.again k hs (hf.keeps k hs) hok (hrefl _)

end Memo
