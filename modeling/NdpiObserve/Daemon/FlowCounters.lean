import NdpiObserve.Daemon.EngineRuns

/-!
# The counters of decided flows

The counters that the daemon exports about decisions are counts of flows: at every call boundary
of every run, `app_classified_<method>[id]` is the number of flows classified as `id` under that
method, and `flows_classified`, `flows_gave_up`, `flows_guessed` and `flows_ml_classified`
partition the decided flows. The counters that the code decrements are never decremented at zero.

## Main results

* `EngineRun.appClassified_run`: the credit of each method and application.
* `EngineRun.flow_partition_run`: the partition of the flows.
-/

namespace NdpiObserve

open Machine Ledger

/-- The number of elements with a property, as a wrapping counter that is incremented for each. -/
theorem sum_map_ite_eq_ofNat_countP {α : Type*} (s : Multiset α) (p : α → Prop)
    [DecidablePred p] :
    (s.map fun x => if p x then (1 : UInt64) else 0).sum = UInt64.ofNat (s.countP p) := by
  induction s using Multiset.induction_on with
  | empty => rfl
  | cons x s ih =>
    rw [Multiset.map_cons, Multiset.sum_cons, ih, Multiset.countP_cons]
    split <;> simp [add_comm]

/-- The number of elements with a property, as a sum of integers. -/
theorem sum_map_ite_eq_countP {α : Type*} (s : Multiset α) (p : α → Prop) [DecidablePred p] :
    (s.map fun x => if p x then (1 : ℤ) else 0).sum = s.countP p := by
  induction s using Multiset.induction_on with
  | empty => rfl
  | cons x s ih =>
    rw [Multiset.map_cons, Multiset.sum_cons, ih, Multiset.countP_cons]
    split <;> simp [add_comm]

theorem countP_le_countP {α : Type*} (s : Multiset α) {p q : α → Prop} [DecidablePred p]
    [DecidablePred q] (h : ∀ x, p x → q x) : s.countP p ≤ s.countP q := by
  rw [Multiset.countP_eq_card_filter, Multiset.countP_eq_card_filter]
  exact Multiset.card_le_card (Multiset.monotone_filter_right s h)

/-- The elements with a property are those with another one and those without it. -/
theorem countP_eq_countP_and_add {α : Type*} (s : Multiset α) (p q : α → Prop) [DecidablePred p]
    [DecidablePred q] :
    s.countP p = s.countP (fun x => p x ∧ q x) + s.countP fun x => p x ∧ ¬ q x := by
  rw [Multiset.countP_eq_countP_filter_add s p q, Multiset.countP_filter, Multiset.countP_filter]

/-! ### One call -/

namespace Call

variable (env : Env) (evt : FlowEvent) (fd : ℤ) (a : Answers) (e : Engine) {f : FlowEntry}

/-- A classified flow has its credit under one of the five methods. -/
theorem process_creditMethod (h : f.state = .classified → f.creditMethod ≠ .none) :
    let c := Call.process env evt fd a { engine := e, flow := f }
    c.flow.state = .classified → c.flow.creditMethod ≠ .none := by
  dsimp only
  cases hterm : f.state.isTerminal with
  | true =>
    obtain ⟨hs, hm, -⟩ := process_decision env evt fd a e hterm
    rw [hs, hm]
    exact h
  | false =>
    obtain ⟨x, -, hrec⟩ := process_records_entry env evt fd a e hterm
    have hleaves := hrec.leaves
    intro hs hm
    cases x <;> simp_all [Ending.Leaves, FlowState.isTerminal]

/-- An undecided flow holds no credit. -/
theorem not_holds (h : f.state.isTerminal = false) (m : CreditMethod) (app : UInt16) :
    ¬ f.Holds m app := by
  rintro ⟨hs, -, -⟩
  simp [hs, FlowState.isTerminal] at h

/-- No call overdraws an account. -/
theorem process_solvent :
    Solvent (postings (Call.process env evt fd a { engine := e, flow := f }).effects) := by
  cases hterm : f.state.isTerminal with
  | true =>
    rw [process_of_isTerminal env evt fd a (c := { engine := e, flow := f }) hterm]
    exact solvent_nil
  | false =>
    obtain ⟨x, -, hrec⟩ := process_records_entry env evt fd a e hterm
    exact hrec.solvent

end Call

/-- Only nDPI's own verdict leaves a flow classified directly. -/
theorem Exit.Allows.classified_iff {y : Exit} {x : Ending} (h : y.Allows x) :
    y = .classified ↔ x = .direct := by
  cases y <;> cases x <;> simp_all [Exit.Allows]

/-- A flow classified otherwise than by the model was classified by nDPI or by its guess. -/
theorem Ending.Leaves.classified_not_model_iff {x : Ending} {f : FlowEntry} (h : x.Leaves f) :
    f.state = .classified ∧ f.creditMethod ≠ .ml ↔ x = .direct ∨ x = .guessed := by
  cases x with
  | undecided =>
    have hterm : f.state.isTerminal = false := h
    refine iff_of_false (fun hs => ?_) (by simp)
    simp [hs.1, FlowState.isTerminal] at hterm
  | direct =>
    refine iff_of_true ⟨h.1, fun hm => ?_⟩ (.inl rfl)
    have hmem := h.2
    simp [hm] at hmem
  | guessed =>
    refine iff_of_true ⟨h.1, fun hm => ?_⟩ (.inr rfl)
    have hmem := h.2
    simp [hm] at hmem
  | model => exact iff_of_false (fun hs => hs.2 h.2) (by simp)
  | gaveUp =>
    have hstate : f.state = .gaveUp := h
    exact iff_of_false (fun hs => by simp [hstate] at hs) (by simp)

namespace EngineRun

variable (env : Env) {w : EngineRun}

/-! ### Whole runs -/

/-- The effects of every run overdraw no account. -/
theorem solvent_run (iface : Bytes) (ml dump : Bool) (ops : List EngineOp) :
    Solvent (postings (run (step env) (start iface ml dump) ops).effects) := by
  have hstart : Solvent (postings (start iface ml dump).effects) := solvent_nil
  refine run_induction (P := fun w : EngineRun => Solvent (postings w.effects)) hstart
    (fun w op hw => ?_) ops
  cases op with
  | age now =>
    rw [step_age]
    exact hw
  | process evt fd a =>
    cases ho : w.engine.obtain evt a with
    | none =>
      rw [step_process_of_none env fd ho]
      exact hw
    | some f =>
      rw [step_process_of_some env fd ho, postings_append]
      exact hw.append (Call.process_solvent env evt fd a _)

/-- A count of flows that calls on a flow keep never decreases. -/
theorem Sound.countP_le_step {p : FlowEntry → Prop} [DecidablePred p] (hw : w.Sound)
    (hp : ∀ evt fd a e f, p f → p (Call.process env evt fd a { engine := e, flow := f }).flow)
    (op : EngineOp) : w.flows.countP p ≤ (w.step env op).flows.countP p := by
  cases op with
  | age now => rw [flows_age]
  | process evt fd a =>
    cases ho : w.engine.obtain evt a with
    | none =>
      rw [step_process_of_none env fd ho, flows, flows, Engine.observeDns_flows]
    | some f =>
      obtain ⟨R, hR, hR'⟩ := hw.exists_flows_step env fd ho
      have hle : w.flows ≤ (w.entered evt a).flows := by
        rcases entered_cases ho with ⟨-, hb⟩ | ⟨-, -, hb⟩
        · rw [flows, flows, hb]
          exact le_refl _
        · rw [flows, flows, hb, FlowTable.entries_insert, Multiset.cons_add]
          exact Multiset.le_cons_self _ _
      refine (Multiset.countP_le_of_le p hle).trans ?_
      rw [hR, hR', Multiset.countP_cons, Multiset.countP_cons]
      have hkeep : p f → p (w.body env evt fd a f).flow := hp evt fd a _ f
      split_ifs with h₁ h₂
      · exact le_refl _
      · exact absurd (hkeep h₁) h₂
      · exact Nat.le_succ _
      · exact le_refl _

/-- A counter of the engine that is incremented for each flow that gets a property when it is
decided counts the flows with that property. -/
theorem tallies_counter {C : Engine → UInt64} {p : FlowEntry → Prop} [DecidablePred p]
    (hstart : ∀ iface ml dump, C (Engine.start iface ml dump) = 0)
    (hdns : ∀ e evt a, C (e.observeDns evt a) = C e)
    (htable : ∀ (e : Engine) t, C { e with flows := t } = C e)
    (hexpire : ∀ e f, C (onFlowExpire env f e) = C e)
    (hcached : ∀ (e : Engine) n, C { e with pktsCached := n } = C e)
    (hopen : ∀ f, f.state.isTerminal = false → ¬ p f)
    (htouch : ∀ (f : FlowEntry) t, p { f with lastSeen := t } ↔ p f)
    (hcall : ∀ e x c, Call.Records e x c → C c.engine = C e + if p c.flow then 1 else 0) :
    Tallies env (fun _ => True) (fun w => C w.engine) (fun f => if p f then (1 : UInt64) else 0)
    where
  start := hstart
  new k t := if_neg (hopen _ rfl)
  dns w evt a := hdns w.engine evt a
  table w t := htable w.engine t
  expire w f := hexpire w.engine f
  expired _ _ := rfl
  call w evt fd a f _ := by
    dsimp only
    cases hterm : f.state.isTerminal with
    | true =>
      rw [Call.process_of_isTerminal env evt fd a (c := { engine := w.engine, flow := f }) hterm]
      dsimp only
      rw [hcached, if_congr (htouch f _) rfl rfl, sub_self, add_zero]
    | false =>
      obtain ⟨x, -, hrec⟩ := Call.process_records_entry env evt fd a w.engine hterm
      rw [hcall _ _ _ hrec, if_neg (hopen f hterm), sub_zero]

theorem counter_eq_countP {C : Engine → UInt64} {p : FlowEntry → Prop} [DecidablePred p]
    (h : Tallies env (fun _ => True) (fun w => C w.engine)
      fun f => if p f then (1 : UInt64) else 0)
    (iface : Bytes) (ml dump : Bool) (ops : List EngineOp) :
    let w := run (step env) (start iface ml dump) ops
    C w.engine = UInt64.ofNat (w.flows.countP p) :=
  (h.sum_flows_run (fun _ _ => trivial) (fun _ _ _ _ _ _ => trivial) iface ml dump ops).trans
    (sum_map_ite_eq_ofNat_countP _ _)

theorem tallies_appClassified (m : CreditMethod) (app : UInt16) (h : app.toNat < numApps) :
    Tallies env (fun _ => True) (fun w => w.engine.appClassified m ⟨app.toNat, h⟩)
      (fun f => if f.Holds m app then (1 : UInt64) else 0) := by
  refine tallies_counter env (C := fun e => e.appClassified m ⟨app.toNat, h⟩) (fun _ _ _ => rfl)
    (fun e evt a => ?_) (fun _ _ => rfl) (fun _ _ => rfl) (fun _ _ => rfl)
    (fun f hf => Call.not_holds hf m app) (fun _ _ => Iff.rfl) (fun e x c hrec => ?_)
  · obtain ⟨cache, hc⟩ := Engine.exists_observeDns_eq e evt a
    rw [hc]
  · rw [hrec.appClassified m app h, hrec.balance_method m app h]
    split <;> rfl

theorem appClassified_eq_countP (m : CreditMethod) (app : UInt16) (h : app.toNat < numApps)
    (iface : Bytes) (ml dump : Bool) (ops : List EngineOp) :
    let w := run (step env) (start iface ml dump) ops
    w.engine.appClassified m ⟨app.toNat, h⟩ =
      UInt64.ofNat (w.flows.countP fun f => f.Holds m app) := by
  exact counter_eq_countP env (C := fun e => e.appClassified m ⟨app.toNat, h⟩)
    (tallies_appClassified env m app h) iface ml dump ops

/-- **The credit of a classification is exact.** At every call boundary of every run, the
counter of a method and an application is the number of flows classified as that application
with their credit under that method. Every classified flow has its credit in exactly one place,
a counter is only decremented while its account holds a credit, and none of the counts
decreases from one call to the next. -/
theorem appClassified_run (iface : Bytes) (ml dump : Bool) (ops : List EngineOp) :
    let w := run (step env) (start iface ml dump) ops
    (∀ m (app : UInt16) (h : app.toNat < numApps), w.engine.appClassified m ⟨app.toNat, h⟩ =
      UInt64.ofNat (w.flows.countP fun f => f.Holds m app)) ∧
    (∀ f ∈ w.flows, f.state = .classified →
      f.creditMethod ≠ .none ∧ ∃! p : CreditMethod × UInt16, f.Holds p.1 p.2) ∧
    (∀ l l' m app, w.effects = l ++ .debit m app :: l' →
      0 < balance (.method m app) (postings l)) ∧
    ∀ op m app, w.flows.countP (fun f => f.Holds m app) ≤
      (w.step env op).flows.countP fun f => f.Holds m app := by
  intro w
  have hsolvent : Solvent (postings w.effects) := solvent_run env iface ml dump ops
  refine ⟨fun m app h => appClassified_eq_countP env m app h iface ml dump ops,
    fun f hf hstate => ⟨?_, ?_⟩, fun l l' m app hl => ?_, fun op m app => ?_⟩
  · refine forall_flows_run (P := fun f => f.state = .classified → f.creditMethod ≠ .none)
      (fun k t h => by simp [FlowTable.fresh] at h) (fun evt fd a e f h => ?_)
      iface ml dump ops f hf hstate
    exact Call.process_creditMethod env evt fd a e h
  · refine ⟨(f.creditMethod, f.appId), ⟨hstate, rfl, rfl⟩, ?_⟩
    rintro ⟨m, app⟩ ⟨-, hm, happ⟩
    exact Prod.ext hm.symm happ.symm
  · rw [hl, postings_append] at hsolvent
    exact hsolvent.balance_pos_of_debit
  · refine (sound_run env iface ml dump ops).countP_le_step env (fun evt fd a e f hf => ?_) op
    obtain ⟨hstate, hmethod, happ⟩ := hf
    obtain ⟨hs, hm, ha⟩ := Call.process_decision env evt fd a e (f := f) (by rw [hstate]; rfl)
    exact ⟨hs.trans hstate, hm.trans hmethod, ha.trans happ⟩

/-! ### The partition of the flows -/

section Partition

theorem tallies_flowsClassified :
    Tallies env (fun _ => True) (fun w => w.engine.flowsClassified)
      (fun f => if f.state = .classified then (1 : UInt64) else 0) := by
  refine tallies_counter env (C := Engine.flowsClassified) (fun _ _ _ => rfl)
    (fun e evt a => ?_) (fun _ _ => rfl) (fun _ _ => rfl) (fun _ _ => rfl)
    (fun f hf hs => by simp [hs, FlowState.isTerminal] at hf) (fun _ _ => Iff.rfl)
    (fun e x c hrec => ?_)
  · obtain ⟨cache, hc⟩ := Engine.exists_observeDns_eq e evt a
    rw [hc]
  · have hleaves := hrec.leaves
    rw [hrec.flowsClassified]
    cases x <;> simp_all [Ending.Leaves, Ending.classifies, FlowState.isTerminal]

theorem tallies_flowsGaveUp :
    Tallies env (fun _ => True) (fun w => w.engine.flowsGaveUp)
      (fun f => if f.state = .gaveUp then (1 : UInt64) else 0) := by
  refine tallies_counter env (C := Engine.flowsGaveUp) (fun _ _ _ => rfl)
    (fun e evt a => ?_) (fun _ _ => rfl) (fun _ _ => rfl) (fun _ _ => rfl)
    (fun f hf hs => by simp [hs, FlowState.isTerminal] at hf) (fun _ _ => Iff.rfl)
    (fun e x c hrec => ?_)
  · obtain ⟨cache, hc⟩ := Engine.exists_observeDns_eq e evt a
    rw [hc]
  · have hleaves := hrec.leaves
    rw [hrec.flowsGaveUp]
    cases x <;> simp_all [Ending.Leaves, FlowState.isTerminal]

theorem tallies_flowsMlClassified :
    Tallies env (fun _ => True) (fun w => w.engine.flowsMlClassified)
      (fun f => if f.state = .classified ∧ f.creditMethod = .ml then (1 : UInt64) else 0) := by
  refine tallies_counter env (C := Engine.flowsMlClassified) (fun _ _ _ => rfl)
    (fun e evt a => ?_) (fun _ _ => rfl) (fun _ _ => rfl) (fun _ _ => rfl)
    (fun f hf hs => by simp [hs.1, FlowState.isTerminal] at hf) (fun _ _ => Iff.rfl)
    (fun e x c hrec => ?_)
  · obtain ⟨cache, hc⟩ := Engine.exists_observeDns_eq e evt a
    rw [hc]
  · have hleaves := hrec.leaves
    rw [hrec.flowsMlClassified]
    cases x <;> simp_all [Ending.Leaves, FlowState.isTerminal]
    all_goals
      intro hm
      simp [hm] at hleaves

/-- nDPI itself classified the flow in this call. -/
def isDirect (call : FlowEntry × FlowEvent × Answers) : Bool :=
  call.1.exit call.2.1 call.2.2 = .classified

/-- Flows that are classified, but not by the model, were classified by nDPI or are guesses. -/
theorem tallies_guesses :
    Tallies env (fun _ => True)
      (fun w => balance .guesses (postings w.effects) + (w.calls.countP isDirect : ℤ))
      (fun f => if f.state = .classified ∧ f.creditMethod ≠ .ml then (1 : ℤ) else 0) where
  start _ _ _ := rfl
  new _ _ := rfl
  dns _ _ _ := rfl
  table _ _ := rfl
  expire _ _ := rfl
  expired _ _ := rfl
  call w evt fd a f _ := by
    dsimp only
    rw [postings_append, balance_append, List.countP_append, List.countP_singleton]
    cases hterm : f.state.isTerminal with
    | true =>
      have hdirect : isDirect (f, evt, a) = false := by
        simp [isDirect, Call.exit_eq_cached_iff.mpr hterm]
      rw [Call.process_of_isTerminal env evt fd a (c := { engine := w.engine, flow := f }) hterm]
      simp [hdirect]
    | false =>
      obtain ⟨x, hallows, hrec⟩ := Call.process_records_entry env evt fd a w.engine hterm
      have hdirect : isDirect (f, evt, a) = true ↔ x = .direct := by
        rw [isDirect, decide_eq_true_iff, hallows.classified_iff]
      have hopen : ¬ (f.state = .classified ∧ f.creditMethod ≠ .ml) := by
        rintro ⟨hs, -⟩
        simp [hs, FlowState.isTerminal] at hterm
      rw [hrec.balance_guesses, if_neg hopen, sub_zero, if_congr hdirect rfl rfl,
        if_congr hrec.leaves.classified_not_model_iff rfl rfl]
      cases x <;> simp <;> ring

/-- `flows_guessed` follows the guesses that stand. -/
theorem tallies_flowsGuessed :
    Tallies env (fun _ => True) (fun w => w.engine.flowsGuessed -
      UInt64.ofInt (balance .guesses (postings w.effects))) (fun _ => 0) where
  start _ _ _ := sub_self _
  new _ _ := rfl
  dns w evt a := by
    obtain ⟨cache, hc⟩ := Engine.exists_observeDns_eq w.engine evt a
    rw [hc]
  table _ _ := rfl
  expire _ _ := rfl
  expired _ _ := rfl
  call w evt fd a f _ := by
    dsimp only
    rw [postings_append, balance_append, UInt64.ofInt_add, sub_self, add_zero]
    cases hterm : f.state.isTerminal with
    | true =>
      rw [Call.process_of_isTerminal env evt fd a (c := { engine := w.engine, flow := f }) hterm]
      simp [ofInt_zero]
    | false =>
      obtain ⟨x, -, hrec⟩ := Call.process_records_entry env evt fd a w.engine hterm
      rw [hrec.flowsGuessed]
      abel

end Partition

/-- **The partition of the flows.** At every call boundary of every run, `flows_classified` and
`flows_gave_up` are the numbers of flows in these states, which no later call changes;
`flows_ml_classified` is the number of flows with the model's verdict and `flows_guessed` the
number of guesses that stand, and the classified flows are these and the ones that nDPI
classified directly. `flows_guessed` is only decremented while a guess stands. -/
theorem flow_partition_run (iface : Bytes) (ml dump : Bool) (ops : List EngineOp) :
    let w := run (step env) (start iface ml dump) ops
    let classified := w.flows.countP fun f => f.state = .classified
    let gaveUp := w.flows.countP fun f => f.state = .gaveUp
    let model := w.flows.countP fun f => f.state = .classified ∧ f.creditMethod = .ml
    (w.engine.flowsClassified = UInt64.ofNat classified ∧
      w.engine.flowsGaveUp = UInt64.ofNat gaveUp ∧
      w.engine.flowsMlClassified = UInt64.ofNat model ∧
      w.engine.flows.totalCreated = UInt64.ofNat (Multiset.card w.flows)) ∧
    classified + gaveUp ≤ Multiset.card w.flows ∧
    (∃ guesses : ℕ, w.engine.flowsGuessed = UInt64.ofNat guesses ∧
      classified = w.calls.countP isDirect + guesses + model) ∧
    (∀ l l', w.effects = l ++ .unguessed :: l' → 0 < balance .guesses (postings l)) ∧
    ∀ e evt fd a f, f.state.isTerminal = true →
      (Call.process env evt fd a { engine := e, flow := f }).flow.state = f.state := by
  intro w classified gaveUp model
  have hsolvent : Solvent (postings w.effects) := solvent_run env iface ml dump ops
  refine ⟨⟨counter_eq_countP env (tallies_flowsClassified env) iface ml dump ops,
    counter_eq_countP env (tallies_flowsGaveUp env) iface ml dump ops,
    counter_eq_countP env (tallies_flowsMlClassified env) iface ml dump ops,
    (sound_run env iface ml dump ops).totalCreated_eq⟩, ?_, ?_, fun l l' hl => ?_,
    fun e evt fd a f hf => (Call.process_decision env evt fd a e hf).1⟩
  · -- no flow is in both states
    have hsub : gaveUp ≤ w.flows.countP fun f => ¬ f.state = .classified :=
      countP_le_countP w.flows fun f hf => by simp [hf]
    have hcard := Multiset.card_eq_countP_add_countP (fun f : FlowEntry => f.state = .classified)
      w.flows
    omega
  · have hguesses : balance .guesses (postings w.effects) + (w.calls.countP isDirect : ℤ) =
        w.flows.countP fun f => f.state = .classified ∧ ¬ f.creditMethod = .ml :=
      ((tallies_guesses env).sum_flows_run (fun _ _ => trivial) (fun _ _ _ _ _ _ => trivial)
        iface ml dump ops).trans (sum_map_ite_eq_countP _ _)
    have hcounter : w.engine.flowsGuessed -
        UInt64.ofInt (balance .guesses (postings w.effects)) = (w.flows.map fun _ => 0).sum :=
      (tallies_flowsGuessed env).sum_flows_run (fun _ _ => trivial) (fun _ _ _ _ _ _ => trivial)
        iface ml dump ops
    have hnonneg := hsolvent.balance_nonneg .guesses
    refine ⟨(balance .guesses (postings w.effects)).toNat, ?_, ?_⟩
    · rw [Multiset.sum_map_zero, sub_eq_zero] at hcounter
      rw [hcounter, ← ofInt_natCast, Int.toNat_of_nonneg hnonneg]
    · have hsplit := countP_eq_countP_and_add w.flows (fun f => f.state = .classified)
        fun f => f.creditMethod = .ml
      omega
  · rw [hl, postings_append] at hsolvent
    exact hsolvent.balance_pos_of_debit

end EngineRun

end NdpiObserve
