import NdpiObserve.Daemon.EngineRuns

/-!
# Totals by application and by category

The engine adds up the same traffic twice: by application and by category. A flow whose
application has a total is added to both, since every flow has one of the 64 categories, and a
flow whose application has none is added to neither. So what a flow adds has the same sum over
the applications as over the categories, and the sums agree in every run.

## Main definitions

* `Totals.Agrees`: the sums over the applications and over the categories are equal.

## Main results

* `FlowEntry.agrees_share`: one flow.
* `categoryTotals_run`: runs.
-/

namespace NdpiObserve

open Machine

/-- The totals by category have the sums of the totals by application. -/
def Totals.Agrees (t : Totals) : Prop := ∑ c, t.2 c = ∑ i, t.1 i

namespace Totals

theorem agrees_zero : Totals.Agrees 0 := by
  rw [Agrees, Prod.snd_zero, Prod.fst_zero]
  exact Finset.sum_const_zero.trans Finset.sum_const_zero.symm

theorem Agrees.add {t u : Totals} (ht : t.Agrees) (hu : u.Agrees) : Totals.Agrees (t + u) := by
  have hsnd : ∑ c, (t + u).2 c = ∑ c, t.2 c + ∑ c, u.2 c := Finset.sum_add_distrib
  have hfst : ∑ i, (t + u).1 i = ∑ i, t.1 i + ∑ i, u.1 i := Finset.sum_add_distrib
  rw [Agrees] at ht hu ⊢
  rw [hsnd, hfst, ht, hu]

theorem agrees_sum {l : List Totals} (h : ∀ t ∈ l, t.Agrees) : Totals.Agrees l.sum := by
  induction l with
  | nil => exact agrees_zero
  | cons t l ih =>
    rw [List.sum_cons]
    exact (h t List.mem_cons_self).add (ih fun u hu => h u (List.mem_cons_of_mem t hu))

end Totals

/-- The sum over the slots of a counter, when one slot number is added to. -/
theorem sum_slot {A : Type*} [AddCommMonoid A] (n k : ℕ) (x : A) :
    ∑ i : Fin n, (if i.val = k then x else 0) = if k < n then x else 0 := by
  split
  case isTrue hk =>
    have hslot (i : Fin n) : i.val = k ↔ i = ⟨k, hk⟩ := by rw [Fin.ext_iff]
    simp only [hslot, Finset.sum_ite_eq', Finset.mem_univ, if_true]
  case isFalse hk =>
    refine Finset.sum_eq_zero fun i _ => if_neg ?_
    have hi := i.isLt
    omega

/-- **One flow.** What a flow adds has the same sum over the categories as over the
applications. -/
theorem FlowEntry.agrees_share {env : Env} (henv : env.CategoriesBounded) (f : FlowEntry) :
    (f.share env).Agrees := by
  have hcat : (ndpiEngineCategoryFor env f.appId f.sni).toNat < numCats :=
    ndpiEngineCategoryFor_lt henv f.appId f.sni
  dsimp only [Totals.Agrees, share]
  rw [sum_slot]
  by_cases happ : f.appId.toNat < numApps
  · simp only [happ, true_and, if_true]
    rw [sum_slot, if_pos hcat]
  · simp only [happ, false_and, if_false, Finset.sum_const_zero]

namespace EngineRun

variable {env : Env} {w : EngineRun}

theorem agrees_step (henv : env.CategoriesBounded) (h : w.engine.totals.Agrees) (op : EngineOp) :
    (w.step env op).engine.totals.Agrees := by
  cases op with
  | process evt fd a =>
    cases ho : w.engine.obtain evt a with
    | none =>
      rw [step_process_of_none env fd ho, Engine.observeDns_totals]
      exact h
    | some f =>
      rw [totals_step_process env fd ho]
      refine h.add ?_
      split
      · exact FlowEntry.agrees_share henv _
      · exact Totals.agrees_zero
  | age now =>
    rw [totals_step_age]
    refine h.add (Totals.agrees_sum fun t ht => ?_)
    obtain ⟨f, -, rfl⟩ := List.mem_map.mp ht
    exact FlowEntry.agrees_share henv f

end EngineRun

/-- **Categories and applications.** In every run the bytes, the packets and the flows of the 64
categories have the same sums as those of the 512 applications. -/
theorem categoryTotals_run {env : Env} (henv : env.CategoriesBounded) (iface : Bytes)
    (ml dump : Bool) (ops : List EngineOp) :
    let e := (run (EngineRun.step env) (EngineRun.start iface ml dump) ops).engine
    ∑ c, e.catBytes c = ∑ i, e.appBytes i ∧ ∑ c, e.catPackets c = ∑ i, e.appPackets i ∧
      ∑ c, e.catFlows c = ∑ i, e.appFlows i := by
  intro e
  have hagrees : e.totals.Agrees := by
    refine run_induction (P := fun w : EngineRun => w.engine.totals.Agrees) ?_
      (fun w op hw => EngineRun.agrees_step henv hw op) ops
    exact Totals.agrees_zero
  have hbytes := congrArg Prod.fst hagrees
  have hcounts := congrArg Prod.snd hagrees
  rw [Prod.fst_sum, Prod.fst_sum] at hbytes
  rw [Prod.snd_sum, Prod.snd_sum] at hcounts
  have hpackets := congrArg Prod.fst hcounts
  have hflows := congrArg Prod.snd hcounts
  rw [Prod.fst_sum, Prod.fst_sum] at hpackets
  rw [Prod.snd_sum, Prod.snd_sum] at hflows
  exact ⟨hbytes, hpackets, hflows⟩

/-- A flow that is classified by its first packet and expires. -/
theorem categoryTotals_run_udp :
    (default : Env).CategoriesBounded ∧
      let e := (run (EngineRun.step default) (EngineRun.start (text "eth0") false false)
        [.process udpEvent (-1) { detection := { app := 7 } }, .age 1000]).engine
      ∑ c, e.catBytes c = ∑ i, e.appBytes i ∧ ∑ c, e.catPackets c = ∑ i, e.appPackets i ∧
        ∑ c, e.catFlows c = ∑ i, e.appFlows i := by
  have henv : (default : Env).CategoriesBounded := by
    rw [Env.CategoriesBounded]
    decide +kernel
  exact ⟨henv, categoryTotals_run henv _ _ _ _⟩

end NdpiObserve
