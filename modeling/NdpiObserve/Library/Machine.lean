import Mathlib

/-!
# Runs of deterministic machines

A machine is a step function on states of any type, driven by a list of inputs. This file has
the run of a machine, the rule that a property kept by every step holds after every run, the
same rule for runs whose steps all meet a condition, the keys that a run emits, and forward
simulation of a machine with outputs by a transition relation.

## Main definitions

* `Machine.run`, `Machine.runOut`: the run of a step function, without and with outputs.
* `Machine.Along`: every step of the run meets a condition on the state before it and its input.
* `Machine.emitted`: what the steps of a run emit.
* `Machine.Run`: the runs of a transition relation with outputs.

## Main results

* `Machine.run_induction`, `Machine.run_induction_along`: invariants of runs.
* `Machine.conserved_emitted`: what a run takes in, gives out and holds in the end.
* `Machine.fifo_emitted`: a run gives out what it takes in, in order.
* `Machine.nodup_emitted_iff`: when a run emits no key twice.
* `Machine.exists_run_of_simulation`: a simulation of every step simulates every run.
* `Machine.exists_run_of_backward`: the same from the last state to the first.
-/

namespace Machine

variable {α β ι ο : Type*}

/-! ### Runs and invariants -/

/-- The state after the inputs `l`. -/
def run (step : α → ι → α) (s : α) (l : List ι) : α := l.foldl step s

variable {step : α → ι → α}

@[simp] theorem run_nil (s : α) : run step s [] = s := rfl

@[simp] theorem run_cons (s : α) (i : ι) (l : List ι) :
    run step s (i :: l) = run step (step s i) l := rfl

theorem run_append (s : α) (l l' : List ι) :
    run step s (l ++ l') = run step (run step s l) l' :=
  List.foldl_append

theorem run_concat (s : α) (l : List ι) (i : ι) :
    run step s (l ++ [i]) = step (run step s l) i :=
  run_append s l [i]

/-- Every step of the run meets `Q`. -/
def Along (step : α → ι → α) (Q : α → ι → Prop) : α → List ι → Prop
  | _, [] => True
  | s, i :: l => Q s i ∧ Along step Q (step s i) l

@[simp] theorem along_nil (Q : α → ι → Prop) (s : α) : Along step Q s [] := trivial

@[simp] theorem along_cons (Q : α → ι → Prop) (s : α) (i : ι) (l : List ι) :
    Along step Q s (i :: l) ↔ Q s i ∧ Along step Q (step s i) l := Iff.rfl

instance decidableAlong {Q : α → ι → Prop} [∀ s i, Decidable (Q s i)] :
    ∀ (s : α) (l : List ι), Decidable (Along step Q s l)
  | _, [] => isTrue trivial
  | s, i :: l => @instDecidableAnd _ _ _ (decidableAlong (step s i) l)

theorem along_append {Q : α → ι → Prop} {s : α} {l l' : List ι} :
    Along step Q s (l ++ l') ↔ Along step Q s l ∧ Along step Q (run step s l) l' := by
  induction l generalizing s with
  | nil => simp
  | cons i l ih => simp [ih, and_assoc]

theorem along_of_forall {Q : α → ι → Prop} (h : ∀ s i, Q s i) (s : α) (l : List ι) :
    Along step Q s l := by
  induction l generalizing s with
  | nil => trivial
  | cons i l ih => exact ⟨h s i, ih (step s i)⟩

/-- A condition on the inputs alone. -/
theorem along_iff_forall_mem {Q : ι → Prop} {s : α} {l : List ι} :
    Along step (fun _ i => Q i) s l ↔ ∀ i ∈ l, Q i := by
  induction l generalizing s with
  | nil => simp
  | cons i l ih => rw [along_cons, ih, List.forall_mem_cons]

/-- **Invariants along a conditional run.** A property kept by the steps that meet `Q` holds
after every run whose steps meet `Q`. -/
theorem run_induction_along {Q : α → ι → Prop} {P : α → Prop} {s : α} {l : List ι}
    (hl : Along step Q s l) (h₀ : P s) (hstep : ∀ s i, P s → Q s i → P (step s i)) :
    P (run step s l) := by
  induction l generalizing s with
  | nil => exact h₀
  | cons i l ih => exact ih hl.2 (hstep s i h₀ hl.1)

/-- **Invariants of runs.** A property kept by every step holds after every run. -/
theorem run_induction {P : α → Prop} {s : α} (h₀ : P s)
    (hstep : ∀ s i, P s → P (step s i)) (l : List ι) : P (run step s l) :=
  List.foldlRecOn l step h₀ fun s hs i _ => hstep s i hs

/-- **Two runs.** States stay related along runs whose inputs are related one by one. -/
theorem run_related {α' ι' : Type*} {step' : α' → ι' → α'} {rel : α → α' → Prop}
    {R : ι → ι' → Prop}
    (hstep : ∀ s s' i i', rel s s' → R i i' → rel (step s i) (step' s' i'))
    {l : List ι} {l' : List ι'} (hl : List.Forall₂ R l l') {s : α} {s' : α'} (h : rel s s') :
    rel (run step s l) (run step' s' l') := by
  induction hl generalizing s s' with
  | nil => exact h
  | cons hi _ ih => exact ih (hstep _ _ _ _ h hi)

/-! ### Emitted keys -/

section Emitted

variable {κ : Type*} {out : α → ι → List κ} {Has : κ → α → Prop} {P : α → Prop}

/-- What the steps of a run emit, in order. -/
def emitted (step : α → ι → α) (out : α → ι → List κ) : α → List ι → List κ
  | _, [] => []
  | s, i :: l => out s i ++ emitted step out (step s i) l

theorem emitted_map {κ' : Type*} (f : κ → κ') (s : α) (l : List ι) :
    emitted step (fun s i => (out s i).map f) s l = (emitted step out s l).map f := by
  induction l generalizing s with
  | nil => rfl
  | cons i l ih => rw [emitted, ih, emitted, List.map_append]

/-- A counter that every step raises by at most what it emits of a kind. -/
theorem le_add_countP_emitted {C : α → ℕ} {p : κ → Bool} (hP : ∀ s i, P s → P (step s i))
    (hC : ∀ s i, P s → C (step s i) ≤ C s + (out s i).countP p) {s : α} (h : P s) (l : List ι) :
    C (run step s l) ≤ C s + (emitted step out s l).countP p := by
  induction l generalizing s with
  | nil => exact Nat.le_add_right _ _
  | cons i l ih =>
    have hstep := hC s i h
    have hrun := ih (hP s i h)
    rw [run_cons, emitted, List.countP_append]
    omega

/-- **Conservation.** When every step takes in as much as it gives out and holds more, a run has
taken in what it has given out and what it holds in the end. -/
theorem conserved_emitted {gains losses : α → ι → List κ} (held : α → Multiset κ)
    (hP : ∀ s i, P s → P (step s i))
    (hstep : ∀ s i, P s → (gains s i : Multiset κ) + held s = losses s i + held (step s i))
    {s : α} (h : P s) (l : List ι) :
    (emitted step gains s l : Multiset κ) + held s =
      emitted step losses s l + held (run step s l) := by
  induction l generalizing s with
  | nil => rfl
  | cons i l ih =>
    have hone := hstep s i h
    have hrun := ih (hP s i h)
    rw [emitted, emitted, run_cons, ← Multiset.coe_add, ← Multiset.coe_add, add_right_comm, hone,
      add_assoc, add_assoc, ← hrun]
    exact congrArg _ (add_comm _ _)

/-- **First in, first out.** When every step appends what it takes in to what is held, and gives out
from the front of it, a run gives out what was held and what it has taken in, in this order, up to
what it holds in the end. -/
theorem fifo_emitted {gains losses : α → ι → List κ} (held : α → List κ)
    (hstep : ∀ s i, held s ++ gains s i = losses s i ++ held (step s i)) (s : α) (l : List ι) :
    held s ++ emitted step gains s l = emitted step losses s l ++ held (run step s l) := by
  induction l generalizing s with
  | nil => rw [emitted, emitted, List.append_nil, List.nil_append, run_nil]
  | cons i l ih =>
    rw [emitted, emitted, run_cons, ← List.append_assoc, hstep, List.append_assoc, ih,
      List.append_assoc]

/-- **Distinct keys.** When the states remember which keys have been emitted, no key is emitted
twice exactly if no step emits a key that has been emitted before. -/
theorem nodup_emitted_iff {Q : α → ι → Prop} (hP : ∀ s i, P s → P (step s i))
    (hHas : ∀ s i k, P s → (Has k (step s i) ↔ Has k s ∨ k ∈ out s i))
    (hout : ∀ s i, P s → (out s i).Nodup)
    (hQ : ∀ s i, P s → (Q s i ↔ ∀ k ∈ out s i, ¬Has k s)) {s : α} (h : P s) (l : List ι) :
    ((emitted step out s l).Nodup ∧ ∀ k ∈ emitted step out s l, ¬Has k s) ↔ Along step Q s l := by
  induction l generalizing s with
  | nil => simp [emitted]
  | cons i l ih =>
    have hrest : (∀ k ∈ emitted step out (step s i) l, ¬Has k (step s i)) ↔
        (∀ k ∈ emitted step out (step s i) l, ¬Has k s) ∧
          (out s i).Disjoint (emitted step out (step s i) l) := by
      constructor
      · intro hnew
        refine ⟨fun k hk hhas => hnew k hk ((hHas s i k h).mpr (.inl hhas)), fun k hk hk' => ?_⟩
        exact hnew k hk' ((hHas s i k h).mpr (.inr hk))
      · rintro ⟨hnew, hdisjoint⟩ k hk hhas
        rcases (hHas s i k h).mp hhas with hhas | hk'
        · exact hnew k hk hhas
        · exact hdisjoint hk' hk
    rw [along_cons, hQ s i h, ← ih (hP s i h), hrest, emitted, List.nodup_append',
      List.forall_mem_append]
    have hnodup := hout s i h
    tauto

end Emitted

/-! ### Simulation -/

/-- The state and the outputs after the inputs `l`. -/
def runOut (step : α → ι → α × ο) : α → List ι → α × List ο
  | s, [] => (s, [])
  | s, i :: l =>
    let r := runOut step (step s i).1 l
    (r.1, (step s i).2 :: r.2)

theorem fst_runOut (step : α → ι → α × ο) (s : α) (l : List ι) :
    (runOut step s l).1 = run (fun s i => (step s i).1) s l := by
  induction l generalizing s with
  | nil => rfl
  | cons i l ih => exact ih (step s i).1

theorem runOut_append (step : α → ι → α × ο) (s : α) (l l' : List ι) :
    runOut step s (l ++ l') =
      ((runOut step (runOut step s l).1 l').1,
        (runOut step s l).2 ++ (runOut step (runOut step s l).1 l').2) := by
  induction l generalizing s with
  | nil => rfl
  | cons i l ih => simp only [List.cons_append, runOut, ih]

/-- A step function with more in its outputs has the same runs. -/
theorem runOut_map {ο' : Type*} {step : α → ι → α × ο} {step' : α → ι → α × ο'} {f : ο' → ο}
    (h : ∀ s i, step s i = ((step' s i).1, f (step' s i).2)) (s : α) (l : List ι) :
    runOut step s l = ((runOut step' s l).1, (runOut step' s l).2.map f) := by
  induction l generalizing s with
  | nil => rfl
  | cons i l ih => simp only [runOut, h, ih, List.map_cons]

/-- The runs of a transition relation. -/
inductive Run (R : β → ι → ο → β → Prop) : β → List ι → List ο → β → Prop
  | nil (m : β) : Run R m [] [] m
  | cons {m m' m'' : β} {i : ι} {o : ο} {l : List ι} {os : List ο} (h : R m i o m')
      (hl : Run R m' l os m'') : Run R m (i :: l) (o :: os) m''

/-- **Forward simulation.** If every step from related states is a transition to related
states with the same output, every run is a run of the transition relation. -/
theorem exists_run_of_simulation {step : α → ι → α × ο} {R : β → ι → ο → β → Prop}
    {rel : α → β → Prop}
    (hstep : ∀ s m i, rel s m → ∃ m', R m i (step s i).2 m' ∧ rel (step s i).1 m')
    {s : α} {m : β} (h : rel s m) (l : List ι) :
    ∃ m', Run R m l (runOut step s l).2 m' ∧ rel (runOut step s l).1 m' := by
  induction l generalizing s m with
  | nil => exact ⟨m, .nil m, h⟩
  | cons i l ih =>
    obtain ⟨m₁, hR, h₁⟩ := hstep s m i h
    obtain ⟨m₂, hrun, h₂⟩ := ih h₁
    exact ⟨m₂, .cons hR hrun, h₂⟩

/-- **Backward simulation.** If whatever is related to the state after a step is reached by a step
from something related to the state before it, then what is related to the last state of a run is
reached by a run. -/
theorem exists_run_of_backward {κ : Type*} {step : α → ι → α} {step' : β → κ → β} {P : α → Prop}
    {rel : α → β → Prop} {sees : ι → κ → Prop} (hP : ∀ s i, P s → P (step s i))
    (hstep : ∀ s i m', P s → rel (step s i) m' → ∃ m k, rel s m ∧ sees i k ∧ step' m k = m')
    {s : α} (hs : P s) {l : List ι} {m' : β} (h : rel (run step s l) m') :
    ∃ m l', rel s m ∧ List.Forall₂ sees l l' ∧ run step' m l' = m' := by
  induction l generalizing s with
  | nil => exact ⟨m', [], h, .nil, rfl⟩
  | cons i l ih =>
    obtain ⟨m₁, l', hrel, hsees, hrun⟩ := ih (hP s i hs) h
    obtain ⟨m, k, hm, hk, heq⟩ := hstep s i m₁ hs hrel
    refine ⟨m, k :: l', hm, .cons hk hsees, ?_⟩
    rw [run_cons, heq, hrun]

end Machine
