import NdpiObserve.Daemon.FlowCounters
import NdpiObserve.Daemon.FlowMachine

/-!
# What the model changes

Two engines run on the same events, one with the model and one without. The model is asked only
where a flow would otherwise be given up, so it changes the decisions of such flows and what they
touch: labels, the DNS cache, counters. The entries of the two engines stay twins: same traffic,
same features, decided at the same event, and given up with the model only where they are given
up without it.

## Main definitions

* `SameOp`: the same event or sweep, with the same clock, allocations and nDPI verdict.
* `Twin`: entries of one flow in the two engines.
* `EngineRun.Twins`: runs whose entries are twins and whose calls left by the same exits.

## Main results

* `Twin.process`: a call keeps entries twins.
* `EngineRun.direct_run`: the counters determine how many flows nDPI classified itself.
* `EngineRun.ml_rescues_run`: what the model changes in a whole run.
-/

namespace NdpiObserve

open Machine

/-! ### Twins -/

/-- The same operation in two engines. What nDPI guesses in the end and what the hostname lookups
find may differ, and so may the time of the lookups. -/
inductive SameOp : EngineOp → EngineOp → Prop
  | process (evt : FlowEvent) (fd : ℤ) {a a' : Answers} (hcalloc : a.calloc = a'.calloc)
    (hcreated : a.timeCreated = a'.timeCreated) (hseen : a.timeSeen = a'.timeSeen)
    (hmalloc : a.ndpiMalloc = a'.ndpiMalloc) (hdetection : a.detection = a'.detection) :
    SameOp (.process evt fd a) (.process evt fd a')
  | age (now : ℤ) : SameOp (.age now) (.age now)

theorem SameOp.replicate {op op' : EngineOp} (h : SameOp op op') (n : ℕ) :
    List.Forall₂ SameOp (.replicate n op) (.replicate n op') := by
  induction n with
  | zero => exact .nil
  | succ n ih => exact .cons h ih

/-- Entries that differ at most in their decision, where the first is decided if and only if the
second is, and given up only if the second is. -/
structure Twin (f f' : FlowEntry) : Prop where
  tracked_eq : f.tracked = f'.tracked
  ndpiFlow_eq : f.ndpiFlow = f'.ndpiFlow
  isTerminal_eq : f.state.isTerminal = f'.state.isTerminal
  gaveUp : f.state = .gaveUp → f'.state = .gaveUp

theorem Twin.refl (f : FlowEntry) : Twin f f := ⟨rfl, rfl, rfl, id⟩

namespace Twin

variable {f f' : FlowEntry} {evt : FlowEvent} {a a' : Answers}

theorem key_eq (h : Twin f f') : f.key = f'.key := by
  have hkey := congrArg FlowEntry.key h.tracked_eq
  exact hkey

theorem pktCount_eq (h : Twin f f') : f.pktCount = f'.pktCount := by
  have hcount := congrArg FlowEntry.pktCount h.tracked_eq
  exact hcount

theorem isIdle_eq (h : Twin f f') (now : ℚ) : f.isIdle now = f'.isIdle now := by
  have hidle := congrArg (FlowEntry.isIdle now) h.tracked_eq
  exact hidle

/-- Twins leave a call by the same exit. -/
theorem exit_eq (h : Twin f f') (hmalloc : a.ndpiMalloc = a'.ndpiMalloc)
    (hdetection : a.detection = a'.detection) : f.exit evt a = f'.exit evt a' := by
  rw [FlowEntry.exit, FlowEntry.exit, h.isTerminal_eq, h.pktCount_eq, h.ndpiFlow_eq, hmalloc,
    hdetection]

end Twin

namespace Call

variable (env : Env) (evt : FlowEvent) (fd : ℤ) (a : Answers)

theorem verdictTail_flow (c : Call) : (c.verdictTail env fd).flow = c.flow := by
  obtain ⟨rows, heq⟩ := exists_verdictTail_eq env fd c
  rw [heq]

theorem scanned_ndpiFlow (c : Call) :
    (c.scanned evt a).flow.ndpiFlow = c.flow.ndpiFlow.or a.ndpiMalloc := by
  have haccumulate (f : FlowEntry) : (mlAccumulate evt f).ndpiFlow = f.ndpiFlow := by
    dsimp only [mlAccumulate]
    split <;> rfl
  have hptr : (c.counted evt a).flow.ndpiFlow = c.flow.ndpiFlow := rfl
  rw [scanned, ensureNdpiFlow, hptr]
  dsimp only [scan, emit]
  rw [haccumulate]
  cases hflow : c.flow.ndpiFlow with
  | some p => exact hptr.trans hflow
  | none =>
    cases a.ndpiMalloc with
    | some p => rfl
    | none => exact hptr.trans hflow

/-- The nDPI flow structure after a call, by its exit. -/
theorem process_ndpiFlow (c : Call) : (c.process env evt fd a).flow.ndpiFlow =
    if (c.flow.exit evt a).hasTail then none
    else if c.flow.exit evt a = .pending then c.flow.ndpiFlow.or a.ndpiMalloc
    else c.flow.ndpiFlow := by
  rw [process_eq]
  cases hexit : c.flow.exit evt a with
  | cached | emptyPending | allocFailed => rfl
  | emptyGaveUp =>
    dsimp only [giveUpEmpty, publish]
    split <;> rfl
  | classified | lastResort => exact congrArg FlowEntry.ndpiFlow (verdictTail_flow env fd _)
  | pending => exact scanned_ndpiFlow evt a c

/-- A call that gives a flow up leaves by one of three exits. -/
theorem exit_of_gaveUp {e : Engine} {f : FlowEntry} (hopen : f.state.isTerminal = false)
    (h : (Call.process env evt fd a { engine := e, flow := f }).flow.state = .gaveUp) :
    f.exit evt a = .emptyGaveUp ∨ f.exit evt a = .allocFailed ∨ f.exit evt a = .lastResort := by
  obtain ⟨x, hallows, hrec⟩ := process_records_entry env evt fd a e hopen
  have hx : x = .gaveUp := by
    have hleaves := hrec.leaves
    cases x <;> simp_all [Ending.Leaves, FlowState.isTerminal]
  subst hx
  revert hallows
  cases f.exit evt a <;> simp [Exit.Allows]

/-- Without the model these three exits always give the flow up. -/
theorem process_gaveUp {e : Engine} {f : FlowEntry} (hopen : f.state.isTerminal = false)
    (hml : e.mlEnabled = false)
    (hexit : f.exit evt a = .emptyGaveUp ∨ f.exit evt a = .allocFailed ∨
      f.exit evt a = .lastResort) :
    (Call.process env evt fd a { engine := e, flow := f }).flow.state = .gaveUp := by
  obtain ⟨x, hallows, hrec⟩ := process_records_entry env evt fd a e hopen
  rcases hexit with hexit | hexit | hexit
  · rw [hexit] at hallows
    obtain rfl : x = .gaveUp := hallows
    exact hrec.leaves
  · rw [hexit] at hallows
    obtain rfl : x = .gaveUp := hallows
    exact hrec.leaves
  · rw [process_eq, hexit]
    dsimp only
    have hscanned : (Call.scanned evt a { engine := e, flow := f }).engine.mlEnabled = false :=
      (congrArg Prod.fst (scanned_settings evt a _)).trans hml
    rw [verdictTail_flow, lastResort, hscanned]
    have hstate : (Call.scanned evt a { engine := e, flow := f }).flow.state ≠ .classified := by
      obtain ⟨ptr, l, -, -, heq⟩ := exists_scanned_eq evt a { engine := e, flow := f }
      rw [heq]
      dsimp only
      rw [state_mlAccumulate]
      intro hstate
      have hdone : f.state = .classified := hstate
      simp [hdone, FlowState.isTerminal] at hopen
    dsimp only
    rw [if_neg Bool.false_ne_true, if_pos hstate]
    rfl

end Call

/-- **A call keeps entries twins.** The second engine has no model. -/
theorem Twin.process (env env' : Env) (evt : FlowEvent) (fd : ℤ) {a a' : Answers} {e e' : Engine}
    {f f' : FlowEntry} (h : Twin f f') (hseen : a.timeSeen = a'.timeSeen)
    (hmalloc : a.ndpiMalloc = a'.ndpiMalloc) (hdetection : a.detection = a'.detection)
    (hml : e'.mlEnabled = false) :
    Twin (Call.process env evt fd a { engine := e, flow := f }).flow
      (Call.process env' evt fd a' { engine := e', flow := f' }).flow := by
  have hexit : f.exit evt a = f'.exit evt a' := h.exit_eq hmalloc hdetection
  refine ⟨?_, ?_, ?_, fun hgave => ?_⟩
  · have hcounted : (f.countedBy evt a).tracked = (f'.countedBy evt a').tracked := by
      have htouch := congrArg (FlowEntry.countedBy evt a) h.tracked_eq
      rw [show f'.countedBy evt a' = f'.countedBy evt a by
        rw [FlowEntry.countedBy, FlowEntry.countedBy, hseen]]
      exact htouch
    rw [Call.process_tracked, Call.process_tracked]
    dsimp only
    rw [h.isTerminal_eq, hexit, hcounted, h.tracked_eq, hseen]
  · rw [Call.process_ndpiFlow, Call.process_ndpiFlow]
    dsimp only
    rw [hexit, h.ndpiFlow_eq, hmalloc]
  · rw [Call.process_isTerminal, Call.process_isTerminal, h.isTerminal_eq, hexit]
  · cases hterm : f.state.isTerminal with
    | true =>
      have hterm' : f'.state.isTerminal = true := h.isTerminal_eq ▸ hterm
      obtain ⟨hstate, -⟩ := Call.process_decision env evt fd a e hterm
      obtain ⟨hstate', -⟩ := Call.process_decision env' evt fd a' e' hterm'
      rw [hstate']
      exact h.gaveUp (hstate.symm.trans hgave)
    | false =>
      have hopen' : f'.state.isTerminal = false := h.isTerminal_eq ▸ hterm
      refine Call.process_gaveUp env' evt fd a' hopen' hml ?_
      rw [← hexit]
      exact Call.exit_of_gaveUp env evt fd a hterm hgave

/-! ### Runs -/

/-- The flow of a call and the exit it left by. -/
def exitOf (call : FlowEntry × FlowEvent × Answers) : FlowKey × Exit :=
  (call.1.key, call.1.exit call.2.1 call.2.2)

namespace EngineRun

variable (env env' : Env) {w w' : EngineRun}

/-- The second run has no model, the entries are twins, the calls left by the same exits, and the
first run gave up at most as many flows. -/
structure Twins (w w' : EngineRun) : Prop where
  sound : w.Sound
  sound' : w'.Sound
  mlEnabled : w'.engine.mlEnabled = false
  entries : ∀ k, Option.Rel Twin (w.entry k) (w'.entry k)
  calls : w.calls.map exitOf = w'.calls.map exitOf
  gaveUp_le : w.flows.countP (fun f => f.state = .gaveUp) ≤
    w'.flows.countP fun f => f.state = .gaveUp

/-- The entries that the same event finds or creates in two runs with twin entries. -/
theorem Twins.obtain (h : Twins w w') (evt : FlowEvent) {a a' : Answers}
    (hcalloc : a.calloc = a'.calloc) (hcreated : a.timeCreated = a'.timeCreated) :
    Option.Rel Twin (w.engine.obtain evt a) (w'.engine.obtain evt a') := by
  have hentry := h.entries evt.key
  rw [entry, entry] at hentry
  rw [Engine.obtain, Engine.obtain]
  cases hl : flowTableLookup w.engine.flows evt.key with
  | none =>
    cases hl' : flowTableLookup w'.engine.flows evt.key with
    | none =>
      rw [FlowTable.getOrCreate_of_none hl, FlowTable.getOrCreate_of_none hl', ← hcalloc,
        ← hcreated]
      cases a.calloc with
      | true => exact .some (.refl _)
      | false => exact .none
    | some f' => simp [hl, hl'] at hentry
  | some f =>
    cases hl' : flowTableLookup w'.engine.flows evt.key with
    | none => simp [hl, hl'] at hentry
    | some f' =>
      rw [FlowTable.getOrCreate_of_some hl, FlowTable.getOrCreate_of_some hl']
      rw [hl, hl'] at hentry
      exact hentry

/-- The flows that were given up, before and after a call. -/
theorem Sound.countP_gaveUp_step (hw : w.Sound) {evt : FlowEvent} {a : Answers} (fd : ℤ)
    {f : FlowEntry} (h : w.engine.obtain evt a = some f) :
    ∃ n, w.flows.countP (fun f => f.state = .gaveUp) =
        n + (if f.state = .gaveUp then 1 else 0) ∧
      (w.step env (.process evt fd a)).flows.countP (fun f => f.state = .gaveUp) =
        n + if (w.body env evt fd a f).flow.state = .gaveUp then 1 else 0 := by
  obtain ⟨R, hR, hR'⟩ := hw.exists_flows_step env fd h
  refine ⟨R.countP fun f => f.state = .gaveUp, ?_, by rw [hR', Multiset.countP_cons]⟩
  have hexpired : (w.entered evt a).expired = w.expired := rfl
  rw [← Multiset.countP_cons, ← hR]
  rcases entered_cases h with ⟨-, hb⟩ | ⟨rfl, -, hb⟩
  · rw [flows, flows, hb, hexpired]
  · rw [flows, flows, hb, hexpired, FlowTable.entries_insert, Multiset.cons_add,
      Multiset.countP_cons, if_neg (by simp [FlowTable.fresh]), add_zero]

/-- A call that gives a twin up gives the other one up, at the latest in the same call. -/
theorem Twins.gaveUp_le_step (h : Twins w w') {evt : FlowEvent} {a a' : Answers} (fd : ℤ)
    {f f' : FlowEntry} (hf : w.engine.obtain evt a = some f)
    (hf' : w'.engine.obtain evt a' = some f') (htwin : Twin f f')
    (hnext : Twin (w.body env evt fd a f).flow (w'.body env' evt fd a' f').flow) :
    (w.step env (.process evt fd a)).flows.countP (fun f => f.state = .gaveUp) ≤
      (w'.step env' (.process evt fd a')).flows.countP fun f => f.state = .gaveUp := by
  obtain ⟨n, hn, hstep⟩ := h.sound.countP_gaveUp_step env fd hf
  obtain ⟨n', hn', hstep'⟩ := h.sound'.countP_gaveUp_step env' fd hf'
  have hle := h.gaveUp_le
  rw [hn, hn'] at hle
  rw [hstep, hstep']
  cases hterm : f.state.isTerminal with
  | true =>
    -- both are decided, so neither changes
    have hterm' : f'.state.isTerminal = true := htwin.isTerminal_eq ▸ hterm
    have hstate := (Call.process_decision env evt fd a (w.engine.bodyStart evt a) hterm).1
    have hstate' := (Call.process_decision env' evt fd a' (w'.engine.bodyStart evt a') hterm').1
    rw [body, body, hstate, hstate']
    exact hle
  | false =>
    have hterm' : f'.state.isTerminal = false := htwin.isTerminal_eq ▸ hterm
    have hopen : f.state ≠ .gaveUp := fun hs => by simp [hs, FlowState.isTerminal] at hterm
    have hopen' : f'.state ≠ .gaveUp := fun hs => by simp [hs, FlowState.isTerminal] at hterm'
    rw [if_neg hopen, if_neg hopen'] at hle
    have hgave := hnext.gaveUp
    split_ifs with h₁ h₂
    · omega
    · exact absurd (hgave h₁) h₂
    · omega
    · omega

/-- **One step of two runs.** -/
theorem Twins.step (h : Twins w w') {op op' : EngineOp} (hop : SameOp op op') :
    Twins (w.step env op) (w'.step env' op') := by
  have hml : (w'.step env' op').engine.mlEnabled = false :=
    (congrArg Prod.fst (settings_step env' op')).trans h.mlEnabled
  cases hop with
  | age now =>
    refine ⟨h.sound.step env _, h.sound'.step env' _, hml, fun k => ?_, ?_, ?_⟩
    · rw [entry, entry, h.sound.lookup_step_age, h.sound'.lookup_step_age]
      have hentry := h.entries k
      rw [entry, entry] at hentry
      generalize flowTableLookup w.engine.flows k = o at hentry ⊢
      generalize flowTableLookup w'.engine.flows k = o' at hentry ⊢
      cases hentry with
      | none => exact .none
      | @some f f' htwin =>
        rw [Option.filter_some, Option.filter_some, ← htwin.isIdle_eq now]
        split
        · exact .some htwin
        · exact .none
    · rw [step_age, step_age]
      exact h.calls
    · rw [flows_age, flows_age]
      exact h.gaveUp_le
  | @process evt fd a a' hcalloc hcreated hseen hmalloc hdetection =>
    have hobtain := h.obtain evt hcalloc hcreated
    cases hf : w.engine.obtain evt a with
    | none =>
      have hf' : w'.engine.obtain evt a' = none := by
        rw [hf] at hobtain
        cases hobtain' : w'.engine.obtain evt a' with
        | none => rfl
        | some f' => simp [hobtain'] at hobtain
      refine ⟨h.sound.step env _, h.sound'.step env' _, hml, fun k => ?_, ?_, ?_⟩
      · rw [entry, entry, lookup_step_process_of_none env fd hf,
          lookup_step_process_of_none env' fd hf']
        exact h.entries k
      · rw [step_process_of_none env fd hf, step_process_of_none env' fd hf']
        exact h.calls
      · rw [step_process_of_none env fd hf, step_process_of_none env' fd hf', flows, flows,
          Engine.observeDns_flows, Engine.observeDns_flows]
        exact h.gaveUp_le
    | some f =>
      obtain ⟨f', hf', htwin⟩ : ∃ f', w'.engine.obtain evt a' = some f' ∧ Twin f f' := by
        rw [hf] at hobtain
        cases hobtain' : w'.engine.obtain evt a' with
        | none => simp [hobtain'] at hobtain
        | some f' =>
          rw [hobtain'] at hobtain
          exact ⟨f', rfl, Option.rel_some_some.mp hobtain⟩
      have hstart : (w'.engine.bodyStart evt a').mlEnabled = false :=
        (w'.engine.bodyStart_mlEnabled evt a').trans h.mlEnabled
      have hnext : Twin (w.body env evt fd a f).flow (w'.body env' evt fd a' f').flow :=
        htwin.process env env' evt fd hseen hmalloc hdetection hstart
      refine ⟨h.sound.step env _, h.sound'.step env' _, hml, fun k => ?_, ?_,
        h.gaveUp_le_step env env' fd hf hf' htwin hnext⟩
      · rw [entry, entry, h.sound.lookup_step_process env fd hf,
          h.sound'.lookup_step_process env' fd hf']
        split
        · exact .some hnext
        · exact h.entries k
      · have hexit : exitOf (f, evt, a) = exitOf (f', evt, a') :=
          Prod.ext htwin.key_eq (htwin.exit_eq hmalloc hdetection)
        rw [step_process_of_some env fd hf, step_process_of_some env' fd hf', List.map_append,
          List.map_append, h.calls, List.map_singleton, List.map_singleton, hexit]

/-- Runs of an engine with the model and of one without. -/
theorem twins_run (iface : Bytes) (dump : Bool) {ops ops' : List EngineOp}
    (hops : List.Forall₂ SameOp ops ops') :
    Twins (run (EngineRun.step env) (start iface true dump) ops)
      (run (EngineRun.step env') (start iface false dump) ops') := by
  have hstep (w w' : EngineRun) (op op' : EngineOp) (h : Twins w w') (hop : SameOp op op') :
      Twins (w.step env op) (w'.step env' op') :=
    h.step env env' hop
  refine run_related hstep hops ⟨sound_start iface true dump, sound_start iface false dump, rfl,
    fun k => ?_, rfl, ?_⟩
  · exact .none
  · rw [flows_start, flows_start]

/-! ### The counters -/

/-- The classified flows without guesses and verdicts of the model are the ones nDPI classified. -/
theorem tallies_direct :
    Tallies env (fun _ => True) (fun w => w.engine.flowsClassified - w.engine.flowsGuessed -
      w.engine.flowsMlClassified - UInt64.ofNat (w.calls.countP isDirect)) (fun _ => 0) where
  start _ _ _ := (by decide : (0 : UInt64) - 0 - 0 - UInt64.ofNat 0 = 0)
  new _ _ := rfl
  dns w evt a := by
    obtain ⟨cache, hc⟩ := Engine.exists_observeDns_eq w.engine evt a
    rw [hc]
  table _ _ := rfl
  expire _ _ := rfl
  expired _ _ := rfl
  call w evt fd a f _ := by
    dsimp only
    rw [List.countP_append, List.countP_singleton, UInt64.ofNat_add, sub_self, add_zero]
    cases hterm : f.state.isTerminal with
    | true =>
      have hdirect : isDirect (f, evt, a) = false := by
        simp [isDirect, Call.exit_eq_cached_iff.mpr hterm]
      rw [Call.process_of_isTerminal env evt fd a (c := { engine := w.engine, flow := f }) hterm]
      simp [hdirect]
    | false =>
      obtain ⟨x, hallows, hrec⟩ := Call.process_records_entry env evt fd a w.engine hterm
      have hdirect : isDirect (f, evt, a) = true ↔ x = .direct := by
        rw [isDirect, decide_eq_true_iff, hallows.classified_iff]
      have hending : (if x.classifies then (1 : UInt64) else 0) =
          UInt64.ofInt (if x = .guessed then 1 else 0) + (if x = .model then 1 else 0) +
            UInt64.ofNat (if x = .direct then 1 else 0) := by
        cases x <;> rfl
      rw [hrec.flowsClassified, hrec.flowsMlClassified, hrec.flowsGuessed, hrec.balance_guesses,
        if_congr hdirect rfl rfl, hending]
      abel

/-- `flows_classified - flows_guessed - flows_ml_classified` counts the calls in which nDPI
classified a flow itself. -/
theorem direct_run (iface : Bytes) (ml dump : Bool) (ops : List EngineOp) :
    let w := run (step env) (start iface ml dump) ops
    w.engine.flowsClassified - w.engine.flowsGuessed - w.engine.flowsMlClassified =
      UInt64.ofNat (w.calls.countP isDirect) := by
  intro w
  have hzero : w.engine.flowsClassified - w.engine.flowsGuessed - w.engine.flowsMlClassified -
      UInt64.ofNat (w.calls.countP isDirect) = (w.flows.map fun _ => 0).sum :=
    (tallies_direct env).sum_flows_run (fun _ _ => trivial) (fun _ _ _ _ _ _ => trivial)
      iface ml dump ops
  rwa [Multiset.sum_map_zero, sub_eq_zero] at hzero

theorem countP_isDirect (l : List (FlowEntry × FlowEvent × Answers)) :
    l.countP isDirect = (l.map exitOf).countP fun x => x.2 = .classified := by
  rw [List.countP_map]
  rfl

/-- **The model only rescues.** In two runs on the same events and sweeps, one with the model and
one without, every call is on the same flow and leaves by the same exit, so the flows are decided
at the same events and nDPI classifies the same ones itself. The entries are twins: same traffic
and features, decided together, given up with the model only where they are given up without it.
So no more flows are given up with the model, and the classified flows without guesses and
verdicts of the model are equally many. -/
theorem ml_rescues_run (iface : Bytes) (dump : Bool) (ops ops' : List EngineOp)
    (hops : List.Forall₂ SameOp ops ops') :
    let w := run (EngineRun.step env) (start iface true dump) ops
    let w' := run (EngineRun.step env) (start iface false dump) ops'
    let gaveUp := w.flows.countP fun f => f.state = .gaveUp
    let gaveUp' := w'.flows.countP fun f => f.state = .gaveUp
    w.calls.map exitOf = w'.calls.map exitOf ∧
    (∀ k, Option.Rel Twin (w.entry k) (w'.entry k)) ∧
    (w.engine.flowsGaveUp = UInt64.ofNat gaveUp ∧ w'.engine.flowsGaveUp = UInt64.ofNat gaveUp' ∧
      gaveUp ≤ gaveUp') ∧
    (Multiset.card w'.flows < 2 ^ 64 → w.engine.flowsGaveUp ≤ w'.engine.flowsGaveUp) ∧
    w.engine.flowsClassified - w.engine.flowsGuessed - w.engine.flowsMlClassified =
      w'.engine.flowsClassified - w'.engine.flowsGuessed - w'.engine.flowsMlClassified := by
  intro w w' gaveUp gaveUp'
  have h : Twins w w' := twins_run env env iface dump hops
  have hgave : w.engine.flowsGaveUp = UInt64.ofNat gaveUp :=
    counter_eq_countP env (tallies_flowsGaveUp env) iface true dump ops
  have hgave' : w'.engine.flowsGaveUp = UInt64.ofNat gaveUp' :=
    counter_eq_countP env (tallies_flowsGaveUp env) iface false dump ops'
  have hle : gaveUp ≤ gaveUp' := h.gaveUp_le
  refine ⟨h.calls, h.entries, ⟨hgave, hgave', hle⟩, fun hcard => ?_, ?_⟩
  · have hlt : gaveUp' < 2 ^ 64 := (Multiset.countP_le_card _ _).trans_lt hcard
    rw [hgave, hgave', UInt64.le_iff_toNat_le, UInt64.toNat_ofNat', UInt64.toNat_ofNat',
      Nat.mod_eq_of_lt hlt, Nat.mod_eq_of_lt (hle.trans_lt hlt)]
    exact hle
  · have hdirect : w.engine.flowsClassified - w.engine.flowsGuessed -
        w.engine.flowsMlClassified = UInt64.ofNat (w.calls.countP isDirect) :=
      direct_run env iface true dump ops
    have hdirect' : w'.engine.flowsClassified - w'.engine.flowsGuessed -
        w'.engine.flowsMlClassified = UInt64.ofNat (w'.calls.countP isDirect) :=
      direct_run env iface false dump ops'
    rw [hdirect, hdirect', countP_isDirect, countP_isDirect, h.calls]

/-- Two engines on eight packets of a flow that nDPI does not recognise, but guesses in the one
with the model. -/
theorem ml_rescues_run_guess :
    let ops : List EngineOp := List.replicate 8 (.process udpEvent (-1) { giveup := { app := 7 } })
    let ops' : List EngineOp := List.replicate 8 (.process udpEvent (-1) {})
    let w := run (EngineRun.step default) (start [] true false) ops
    let w' := run (EngineRun.step default) (start [] false false) ops'
    w.calls.map exitOf = w'.calls.map exitOf ∧
      w.flows.countP (fun f => f.state = .gaveUp) ≤
        w'.flows.countP fun f => f.state = .gaveUp := by
  intro ops ops' w w'
  have hop : SameOp (.process udpEvent (-1) { giveup := { app := 7 } })
      (.process udpEvent (-1) {}) :=
    .process udpEvent (-1) rfl rfl rfl rfl rfl
  have hops : List.Forall₂ SameOp ops ops' := hop.replicate 8
  obtain ⟨hcalls, -, ⟨-, -, hle⟩, -⟩ := ml_rescues_run default [] false ops ops' hops
  exact ⟨hcalls, hle⟩

end EngineRun

end NdpiObserve
