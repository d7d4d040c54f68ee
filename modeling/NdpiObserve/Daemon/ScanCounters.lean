import NdpiObserve.Daemon.FlowMachine

/-!
# The packets of a run

Every call of `ndpi_engine_process` that has an entry takes one of the exits of its body, and three
counters of the engine tell them apart: `pkts_cached` counts the calls on decided flows,
`pkts_scanned` and `ndpi_calls` those that give a packet to nDPI. The calls on the other exits, on
packets without payload or without an nDPI flow structure, are counted nowhere.

## Main definitions

* `Engine.packetCounters`: the three counters.
* `EngineRun.exitOf`: the way of a call of a run through the body.

## Main results

* `EngineRun.calls_counter_run`: a counter that is raised by the calls of a kind counts them.
* `EngineRun.packetCounters_run`: the three counters count the calls of the run by their exits.
-/

namespace NdpiObserve

open Machine

/-- `pkts_cached`, `pkts_scanned` and `ndpi_calls`. -/
def Engine.packetCounters (e : Engine) : UInt64 × UInt64 × UInt64 :=
  (e.pktsCached, e.pktsScanned, e.ndpiCalls)

namespace Call

variable (env : Env) (evt : FlowEvent) (fd : ℤ) (a : Answers) (c : Call)

theorem packetCounters_of_core {c d : Call} (h : c.core = d.core) :
    c.engine.packetCounters = d.engine.packetCounters := by
  have hcounters := congrArg (fun c => c.engine.packetCounters) h
  exact hcounters

theorem packetCounters_scanned : (c.scanned evt a).engine.packetCounters =
    (c.engine.pktsCached, c.engine.pktsScanned + 1, c.engine.ndpiCalls + 1) := by
  obtain ⟨ptr, l, -, -, heq⟩ := exists_scanned_eq evt a c
  rw [heq]
  rfl

theorem packetCounters_verdictTail :
    (c.verdictTail env fd).engine.packetCounters = c.engine.packetCounters := by
  obtain ⟨rows, heq⟩ := exists_verdictTail_eq env fd c
  rw [heq]
  rfl

/-- A call on a decided flow is counted as cached, and one that gives its packet to nDPI as
scanned. -/
theorem process_packetCounters : (c.process env evt fd a).engine.packetCounters =
    let x := c.flow.exit evt a
    (if x = .cached then c.engine.pktsCached + 1 else c.engine.pktsCached,
      if x.scans then c.engine.pktsScanned + 1 else c.engine.pktsScanned,
      if x.scans then c.engine.ndpiCalls + 1 else c.engine.ndpiCalls) := by
  rw [process_eq]
  cases c.flow.exit evt a with
  | cached | emptyPending | allocFailed => rfl
  | emptyGaveUp =>
    show ((c.counted evt a).giveUpEmpty fd).engine.packetCounters = _
    rw [giveUpEmpty, publish]
    split <;> rfl
  | classified =>
    show (((c.scanned evt a).ndpiVerdict env a).verdictTail env fd).engine.packetCounters = _
    rw [packetCounters_verdictTail, packetCounters_of_core (ndpiVerdict_core env a _),
      packetCounters_scanned]
    rfl
  | pending => exact packetCounters_scanned evt a c
  | lastResort =>
    show (((c.scanned evt a).lastResort env a).verdictTail env fd).engine.packetCounters = _
    rw [packetCounters_verdictTail, packetCounters_of_core (lastResort_core env a _),
      packetCounters_scanned]
    rfl

end Call

namespace EngineRun

variable (env : Env)

/-- **Counters of calls.** A counter of the engine that depends neither on the DNS cache nor on the
table, that expiry leaves alone, and that is raised by the calls of a kind, counts them. -/
theorem calls_counter_run {C : Engine → UInt64} {p : FlowEntry × FlowEvent × Answers → Bool}
    (hdns : ∀ e evt a, C (e.observeDns evt a) = C e)
    (htable : ∀ (e : Engine) t, C { e with flows := t } = C e)
    (hexpire : ∀ e f, C (onFlowExpire env f e) = C e)
    (hcall : ∀ evt fd a e f, C (Call.process env evt fd a { engine := e, flow := f }).engine =
      if p (f, evt, a) then C e + 1 else C e)
    {w : EngineRun} (hw : C w.engine = UInt64.ofNat (w.calls.countP p)) (ops : List EngineOp) :
    C (run (step env) w ops).engine = UInt64.ofNat ((run (step env) w ops).calls.countP p) := by
  refine run_induction (P := fun w : EngineRun => C w.engine = UInt64.ofNat (w.calls.countP p)) hw
    (fun w op hw => ?_) ops
  cases op with
  | age now =>
    have hfold (l : List FlowEntry) (e : Engine) :
        C (l.foldl (fun e f => onFlowExpire env f e) e) = C e := by
      induction l generalizing e with
      | nil => rfl
      | cons f l ih => exact (ih _).trans (hexpire e f)
    rw [step_age]
    exact (htable _ _).trans ((hfold _ _).trans hw)
  | process evt fd a =>
    cases ho : w.engine.obtain evt a with
    | none =>
      rw [step_process_of_none env fd ho]
      exact (hdns w.engine evt a).trans hw
    | some f =>
      rw [step_process_of_some env fd ho, List.countP_append, List.countP_singleton]
      have hstart : C (w.engine.bodyStart evt a) = UInt64.ofNat (w.calls.countP p) :=
        (htable _ _).trans ((hdns w.engine evt a).trans hw)
      refine (htable _ _).trans ((hcall evt fd a _ f).trans ?_)
      rw [hstart]
      split
      · rw [UInt64.ofNat_add]
        rfl
      · rw [add_zero]

/-- The way of a call through the body. -/
def exitOf (c : FlowEntry × FlowEvent × Answers) : Exit := c.1.exit c.2.1 c.2.2

variable (iface : Bytes) (ml dump : Bool) (ops : List EngineOp)

/-- **The packet counters.** In every run, the counters count the calls by their exits. -/
theorem packetCounters_run :
    let w := run (step env) (start iface ml dump) ops
    w.engine.packetCounters =
      (UInt64.ofNat (w.calls.countP fun c => exitOf c = .cached),
        UInt64.ofNat (w.calls.countP fun c => (exitOf c).scans),
        UInt64.ofNat (w.calls.countP fun c => (exitOf c).scans)) := by
  intro w
  have hdns (e : Engine) (evt : FlowEvent) (a : Answers) :
      (e.observeDns evt a).packetCounters = e.packetCounters := by
    obtain ⟨cache, h⟩ := e.exists_observeDns_eq evt a
    rw [h]
    rfl
  have hcall (evt : FlowEvent) (fd : ℤ) (a : Answers) (e : Engine) (f : FlowEntry) :=
    Call.process_packetCounters env evt fd a { engine := e, flow := f }
  refine Prod.ext ?_ (Prod.ext ?_ ?_)
  · refine calls_counter_run env (C := Engine.pktsCached)
      (fun e evt a => congrArg Prod.fst (hdns e evt a)) (fun _ _ => rfl) (fun _ _ => rfl)
      (fun evt fd a e f => ?_) rfl ops
    simp only [decide_eq_true_eq]
    exact congrArg Prod.fst (hcall evt fd a e f)
  · exact calls_counter_run env (C := Engine.pktsScanned)
      (fun e evt a => congrArg (fun c => c.2.1) (hdns e evt a)) (fun _ _ => rfl) (fun _ _ => rfl)
      (fun evt fd a e f => congrArg (fun c => c.2.1) (hcall evt fd a e f)) rfl ops
  · exact calls_counter_run env (C := Engine.ndpiCalls)
      (fun e evt a => congrArg (fun c => c.2.2) (hdns e evt a)) (fun _ _ => rfl) (fun _ _ => rfl)
      (fun evt fd a e f => congrArg (fun c => c.2.2) (hcall evt fd a e f)) rfl ops

end EngineRun

end NdpiObserve
