import NdpiObserve.Library.Machine

/-!
# Meters

A meter of a machine is a counter of fixed width that its steps only count up. What they count is
paid for: the states hold a supply, every input has a cost, and a step counts no more than its
input brings in and the supply loses. So a run counts no more than the supply it starts with and the
costs of its inputs, and as long as the counter has room for that, no reading of it is below an
earlier one.

## Main definitions

* `Meter.Draws`: a counter whose steps are paid for.

## Main results

* `Meter.Draws.add`, `Meter.Draws.pull`: sums of meters, and meters of a part fed by a queue.
* `Meter.Draws.toNat_le_run`: later readings are not below earlier ones.
-/

namespace Meter

open Machine

variable {α ι : Type*} {step : α → ι → α} {P : α → Prop} {C C' : α → UInt64}
  {supply supply' : α → ℕ} {cost cost' : ι → ℕ}

/-- From a state that meets `P`, a step counts up, and pays for it. -/
def Draws (step : α → ι → α) (P : α → Prop) (C : α → UInt64) (supply : α → ℕ) (cost : ι → ℕ) :
    Prop :=
  ∀ s i, P s → ∃ d, C (step s i) = C s + UInt64.ofNat d ∧ d + supply (step s i) ≤ supply s + cost i

theorem Draws.mono (h : Draws step P C supply cost) (hle : ∀ i, cost i ≤ cost' i) :
    Draws step P C supply cost' := by
  intro s i hs
  obtain ⟨d, hC, hd⟩ := h s i hs
  exact ⟨d, hC, hd.trans (Nat.add_le_add_left (hle i) _)⟩

/-- The sum of two meters. -/
theorem Draws.add (h : Draws step P C supply cost) (h' : Draws step P C' supply' cost') :
    Draws step P (fun s => C s + C' s) (fun s => supply s + supply' s)
      (fun i => cost i + cost' i) := by
  intro s i hs
  obtain ⟨d, hC, hd⟩ := h s i hs
  obtain ⟨d', hC', hd'⟩ := h' s i hs
  refine ⟨d + d', ?_, ?_⟩
  · dsimp only
    rw [hC, hC', UInt64.ofNat_add, add_add_add_comm]
  · dsimp only
    omega

/-- What a run counts. -/
theorem Draws.exists_run (h : Draws step P C supply cost) (hP : ∀ s i, P s → P (step s i)) {s : α}
    (hs : P s) (l : List ι) : ∃ d, C (run step s l) = C s + UInt64.ofNat d ∧
      d + supply (run step s l) ≤ supply s + (l.map cost).sum := by
  induction l generalizing s with
  | nil => exact ⟨0, (add_zero _).symm, by simp⟩
  | cons i l ih =>
    obtain ⟨d, hC, hd⟩ := h s i hs
    obtain ⟨d', hC', hd'⟩ := ih (hP s i hs)
    refine ⟨d + d', ?_, ?_⟩
    · rw [run_cons, hC', hC, UInt64.ofNat_add, add_assoc]
    · rw [run_cons, List.map_cons, List.sum_cons]
      omega

/-- **A part that is fed.** Every step of a machine makes a part of it take some steps of its own,
on inputs that come out of a queue or are brought in by the step. Then a meter of the part is one of
the machine, with what waits in the queue as supply. -/
theorem Draws.pull {α' ι' : Type*} {step' : α' → ι' → α'} {part : α' → α} {ops : α' → ι' → List ι}
    {waits : α' → ℕ} (h : Draws step P C supply cost) (hP : ∀ s i, P s → P (step s i))
    (hpart : ∀ s i, part (step' s i) = run step (part s) (ops s i)) {brings : ι' → ℕ}
    (hqueue : ∀ s i, ((ops s i).map cost).sum + waits (step' s i) ≤ waits s + brings i) :
    Draws step' (fun s => P (part s)) (fun s => C (part s)) (fun s => supply (part s) + waits s)
      brings := by
  intro s i hs
  obtain ⟨d, hC, hd⟩ := h.exists_run hP hs (ops s i)
  have hwaits := hqueue s i
  rw [← hpart] at hC hd
  refine ⟨d, hC, ?_⟩
  dsimp only
  omega

/-- **Later readings.** A counter that starts at zero and has room for what the whole run can count
shows no less in the end than at any time before. -/
theorem Draws.toNat_le_run (h : Draws step P C supply cost) (hP : ∀ s i, P s → P (step s i)) {s : α}
    (hs : P s) (hC : C s = 0) (l l' : List ι)
    (hroom : supply s + ((l ++ l').map cost).sum < 2 ^ 64) :
    (C (run step s l)).toNat ≤ (C (run step s (l ++ l'))).toNat := by
  have hrun : P (run step s l) := run_induction hs hP l
  obtain ⟨d, hd, hle⟩ := h.exists_run hP hs l
  obtain ⟨d', hd', hle'⟩ := h.exists_run hP hrun l'
  rw [List.map_append, List.sum_append] at hroom
  rw [hC, zero_add] at hd
  have hfits : d + d' < UInt64.size := (by omega : d + d' < 2 ^ 64)
  rw [run_append, hd', hd, ← UInt64.ofNat_add, UInt64.toNat_ofNat_of_lt' hfits,
    UInt64.toNat_ofNat_of_lt' ((Nat.le_add_right d d').trans_lt hfits)]
  exact Nat.le_add_right d d'

end Meter
