import NdpiObserve.Library.Machine

/-!
# Machines made of parts

A machine whose state shows one part for every key. Each input belongs to one part at most: it
does to this part what a machine of the part alone does, whatever the other parts are, and it
leaves the other parts as they are. Then the machine is the product of the machines of its parts:
a run shows each part as its own machine leaves it on the inputs of this part, and two
interleavings of the same inputs of the parts lead to the same parts and the same outputs.

## Main definitions

* `Machine.inputsOf`: the inputs of a part.
* `Machine.Parts`: the machine is made of parts, in the steps that meet a condition.

## Main results

* `Machine.Parts.view_runOut`: what a run does to one part.
* `Machine.Parts.view_eq`, `Machine.Parts.perm_outputs`: interleavings of the same inputs.
-/

namespace Machine

variable {α ι κ σ ο : Type*}

/-! ### Inputs and outputs of a part -/

section Filter

variable [DecidableEq κ]

/-- The inputs of the part `k`. -/
def inputsOf (key : ι → Option κ) (k : κ) (l : List ι) : List ι := l.filter fun i => key i = some k

theorem inputsOf_cons_self {key : ι → Option κ} {k : κ} {i : ι} (h : key i = some k) (l : List ι) :
    inputsOf key k (i :: l) = i :: inputsOf key k l :=
  List.filter_cons_of_pos (decide_eq_true h)

theorem inputsOf_cons_of_ne {key : ι → Option κ} {k : κ} {i : ι} (h : key i ≠ some k)
    (l : List ι) : inputsOf key k (i :: l) = inputsOf key k l :=
  List.filter_cons_of_neg (by simpa using h)

theorem mem_inputsOf_iff {key : ι → Option κ} {k : κ} {i : ι} {l : List ι} :
    i ∈ inputsOf key k l ↔ i ∈ l ∧ key i = some k := by
  rw [inputsOf, List.mem_filter, decide_eq_true_eq]

/-- Neighbouring inputs of different parts may change places. -/
theorem inputsOf_swap {key : ι → Option κ} {i j : ι} (h : key i ≠ key j) (k : κ) (l : List ι) :
    inputsOf key k (i :: j :: l) = inputsOf key k (j :: i :: l) := by
  by_cases hi : key i = some k
  · have hj : key j ≠ some k := fun hj => h (hi.trans hj.symm)
    rw [inputsOf_cons_self hi, inputsOf_cons_of_ne hj, inputsOf_cons_of_ne hj,
      inputsOf_cons_self hi]
  · rw [inputsOf_cons_of_ne hi, inputsOf, inputsOf, List.filter_cons, List.filter_cons,
      List.filter_cons_of_neg (by simpa using hi)]

/-- Lists that have the same elements of every key in the same order are permutations of each
other. -/
theorem perm_of_filter_eq {key : ο → κ} {l l' : List ο}
    (h : ∀ k, l.filter (fun o => key o = k) = l'.filter fun o => key o = k) : l.Perm l' := by
  classical
  rw [List.perm_iff_count]
  intro o
  have hself (l : List ο) : (l.filter fun o' => key o' = key o).count o = l.count o :=
    List.count_filter (decide_eq_true rfl)
  rw [← hself l, h (key o), hself]

theorem reduceOption_cons (o : Option ο) (l : List (Option ο)) :
    (o :: l).reduceOption = o.toList ++ l.reduceOption := by
  cases o with
  | none => exact List.reduceOption_cons_of_none l
  | some o => exact List.reduceOption_cons_of_some o l

end Filter

/-! ### Machines made of parts -/

/-- From a state and on an input that meet `Q`, a step acts on the part of the input as the machine
`act` of this part, with its output, and on no other part. -/
structure Parts (step : α → ι → α × Option ο) (Q : α → ι → Prop) (key : ι → Option κ)
    (outKey : ο → κ) (view : κ → α → σ) (act : κ → σ → ι → σ × Option ο) : Prop where
  own : ∀ s i k, Q s i → key i = some k →
    view k (step s i).1 = (act k (view k s) i).1 ∧ (step s i).2 = (act k (view k s) i).2
  other : ∀ s i k, key i ≠ some k → view k (step s i).1 = view k s
  key_of_out : ∀ s i o, (step s i).2 = some o → key i = some (outKey o)

namespace Parts

variable [DecidableEq κ] {step : α → ι → α × Option ο} {Q : α → ι → Prop} {key : ι → Option κ}
  {outKey : ο → κ} {view : κ → α → σ} {act : κ → σ → ι → σ × Option ο}
  (h : Parts step Q key outKey view act)
include h

/-- The output of a step, as one of the part `k`. -/
theorem filter_out (s : α) (i : ι) (k : κ) :
    (step s i).2.toList.filter (fun o => outKey o = k) =
      if key i = some k then (step s i).2.toList else [] := by
  cases ho : (step s i).2 with
  | none => simp
  | some o => simp [h.key_of_out s i o ho, List.filter_cons]

/-- **What a run does to one part.** -/
theorem view_runOut (k : κ) {s : α} {l : List ι} (hl : Along (fun s i => (step s i).1) Q s l) :
    view k (runOut step s l).1 = (runOut (act k) (view k s) (inputsOf key k l)).1 ∧
      (runOut step s l).2.reduceOption.filter (fun o => outKey o = k) =
        (runOut (act k) (view k s) (inputsOf key k l)).2.reduceOption := by
  induction l generalizing s with
  | nil => exact ⟨rfl, rfl⟩
  | cons i l ih =>
    obtain ⟨hview, hout⟩ := ih hl.2
    rw [runOut]
    dsimp only
    rw [reduceOption_cons, List.filter_append, h.filter_out, hview, hout]
    by_cases hk : key i = some k
    · obtain ⟨hown, hself⟩ := h.own s i k hl.1 hk
      rw [inputsOf_cons_self hk, runOut, if_pos hk, hown, hself]
      dsimp only
      rw [reduceOption_cons]
      exact ⟨rfl, rfl⟩
    · rw [inputsOf_cons_of_ne hk, if_neg hk, h.other s i k hk]
      exact ⟨rfl, rfl⟩

/-- **Interleavings.** Runs on the same inputs of each part leave the parts alike. -/
theorem view_eq {s : α} {l l' : List ι} (hl : Along (fun s i => (step s i).1) Q s l)
    (hl' : Along (fun s i => (step s i).1) Q s l')
    (hsame : ∀ k, inputsOf key k l = inputsOf key k l') (k : κ) :
    view k (runOut step s l).1 = view k (runOut step s l').1 := by
  rw [(h.view_runOut k hl).1, (h.view_runOut k hl').1, hsame k]

/-- Each part has the same outputs in runs on the same inputs of each part. -/
theorem filter_outputs_eq {s : α} {l l' : List ι} (hl : Along (fun s i => (step s i).1) Q s l)
    (hl' : Along (fun s i => (step s i).1) Q s l')
    (hsame : ∀ k, inputsOf key k l = inputsOf key k l') (k : κ) :
    (runOut step s l).2.reduceOption.filter (fun o => outKey o = k) =
      (runOut step s l').2.reduceOption.filter fun o => outKey o = k := by
  rw [(h.view_runOut k hl).2, (h.view_runOut k hl').2, hsame k]

/-- The outputs of runs on the same inputs of each part are the same in another order. -/
theorem perm_outputs {s : α} {l l' : List ι} (hl : Along (fun s i => (step s i).1) Q s l)
    (hl' : Along (fun s i => (step s i).1) Q s l')
    (hsame : ∀ k, inputsOf key k l = inputsOf key k l') :
    (runOut step s l).2.reduceOption.Perm (runOut step s l').2.reduceOption :=
  perm_of_filter_eq (h.filter_outputs_eq hl hl' hsame)

end Parts

end Machine
