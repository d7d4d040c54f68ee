import NdpiObserve.Daemon.EngineRuns
import NdpiObserve.Kernel.SlowPath

/-!
# The pipeline

The kernel program and the daemon of `daemon/main.c`, with the ring buffer between them. The
kernel program appends events to the ring buffer; the main loop drains it through `ring_buf_cb`,
and sweeps the idle flows only after it has seen the ring buffer empty. The two sides take their
steps in any order. A step that the main loop cannot take where it stands changes nothing.

## Main definitions

* `Pipeline`, `PipelineOp`, `Pipeline.step`: the two sides, and their steps.
* `Pipeline.ringOf`: the events of one flow that wait in the ring buffer.

## Main results

* `Pipeline.step_deliver_cases`: what a delivered event does to both sides.
* `Pipeline.kernel_run`: the kernel's side of a run is a run of the kernel program.
-/

namespace NdpiObserve

open Machine

/-! ### States and steps -/

/-- Where the main loop stands: it drains the ring buffer, or has seen it empty. -/
inductive LoopPhase where
  | draining
  | serving
deriving DecidableEq

/-- The kernel's maps, the ring buffer from its oldest event on, the daemon and its main loop. -/
structure Pipeline where
  kernel : Kernel := {}
  ring : List FlowEvent := []
  daemon : EngineRun
  phase : LoopPhase := .draining

/-- The steps of both sides. -/
inductive PipelineOp where
  /-- The kernel program runs on a packet. -/
  | packet (p : Pkt)
  /-- `ring_buf_cb` is called with the oldest event. -/
  | deliver (a : Answers)
  /-- `ring_buffer__poll` finds the ring buffer empty and returns. -/
  | drained
  /-- The sweep of idle flows. -/
  | age (now : ℤ)
  /-- The main loop starts over. -/
  | loop

/-- The effect of the daemon on the kernel's maps. -/
def Kernel.receive (s : Kernel) : Effect → Kernel
  | .verdictMapUpdate k app => s.writeVerdict k app
  | _ => s

namespace Pipeline

/-- Both sides when the main loop starts. -/
def start (iface : Bytes) (ml dump : Bool) : Pipeline :=
  { daemon := EngineRun.start iface ml dump }

/-- One step, and what is seen of a packet; `fd` is `verdict_fd`. -/
def step (env : Env) (fd : ℤ) (w : Pipeline) : PipelineOp → Pipeline × Option PktOut
  | .packet p =>
    let r := processPkt w.kernel p
    ({ w with kernel := r.1, ring := w.ring ++ (r.2.bind fun o => o.path.event).toList }, r.2)
  | .deliver a =>
    match w.phase, w.ring with
    | .draining, evt :: rest =>
      let effects := (ndpiEngineProcess env w.daemon.engine evt fd a).2
      ({ w with
          ring := rest
          daemon := w.daemon.step env (.process evt fd a)
          kernel := effects.foldl Kernel.receive w.kernel }, none)
    | _, _ => (w, none)
  | .drained => (if w.ring = [] then { w with phase := .serving } else w, none)
  | .age now =>
    (if w.phase = .serving then { w with daemon := w.daemon.step env (.age now) } else w, none)
  | .loop => ({ w with phase := .draining }, none)

/-- The state after a step. -/
def next (env : Env) (fd : ℤ) (w : Pipeline) (op : PipelineOp) : Pipeline := (w.step env fd op).1

/-- The events of the flow `k` that wait in the ring buffer. -/
def ringOf (w : Pipeline) (k : FlowKey) : List FlowEvent := w.ring.filter fun evt => evt.key = k

/-- The kernel's entry of a flow. -/
def kernelEntry (w : Pipeline) (k : FlowKey) : Option ObsFlowState := w.kernel.flowMap.lookup k

/-- The kernel has given the flow up. -/
def GaveUp (k : FlowKey) (w : Pipeline) : Prop :=
  (w.kernelEntry k).map ObsFlowState.state = some .gaveUp

instance (k : FlowKey) (w : Pipeline) : Decidable (GaveUp k w) :=
  inferInstanceAs (Decidable (_ = _))

/-- The verdict that the kernel finds for a flow. -/
def verdict (w : Pipeline) (k : FlowKey) : Option UInt16 := w.kernel.verdictMap.lookup k

/-- The daemon's entry of a flow. -/
def daemonEntry (w : Pipeline) (k : FlowKey) : Option FlowEntry :=
  flowTableLookup w.daemon.engine.flows k

/-- The daemon's entry of the flow is classified or given up. -/
def Decided (k : FlowKey) (w : Pipeline) : Prop :=
  (w.daemonEntry k).any (fun f => f.state.isTerminal) = true

instance (k : FlowKey) (w : Pipeline) : Decidable (Decided k w) :=
  inferInstanceAs (Decidable (_ = true))

theorem decided_of_daemonEntry {w : Pipeline} {k : FlowKey} {f : FlowEntry}
    (h : w.daemonEntry k = some f) : w.Decided k ↔ f.state.isTerminal = true := by
  rw [Decided, h, Option.any_some]

theorem Decided.exists_daemonEntry {w : Pipeline} {k : FlowKey} (h : w.Decided k) :
    ∃ f, w.daemonEntry k = some f ∧ f.state.isTerminal = true := by
  cases hf : w.daemonEntry k with
  | none => simp [Decided, hf] at h
  | some f => exact ⟨f, rfl, (decided_of_daemonEntry hf).mp h⟩

/-- The daemon's calls on the entry of a flow, each with the entry before it. -/
def callsOf (w : Pipeline) (k : FlowKey) : List (FlowEntry × FlowEvent × Answers) :=
  w.daemon.calls.filter fun c => c.2.1.key = k

variable (env : Env) (fd : ℤ) {w : Pipeline}

/-! ### Writes to the verdict map -/

theorem foldl_receive (s : Kernel) (l : List Effect) :
    l.foldl Kernel.receive s = (l.filter Effect.publishes).foldl Kernel.receive s := by
  induction l generalizing s with
  | nil => rfl
  | cons x l ih =>
    rw [List.foldl_cons, ih, List.filter_cons]
    cases x <;> rfl

/-- The effects of a call with an entry, as far as the kernel is concerned. -/
theorem published_of_some {evt : FlowEvent} {a : Answers} {f : FlowEntry}
    (h : w.daemon.engine.obtain evt a = some f) :
    (ndpiEngineProcess env w.daemon.engine evt fd a).2.filter Effect.publishes =
      if fd ≥ 0 ∧ (f.exit evt a).publishes then
        [.verdictMapUpdate f.key (w.daemon.body env evt fd a f).flow.appId]
      else [] := by
  rw [ndpiEngineProcess_of_some env fd h]
  exact Call.process_published env evt fd a
    { engine := w.daemon.engine.bodyStart evt a, flow := f } rfl

/-- **Delivery.** The oldest event reaches the daemon: without an entry it is lost; with one, the
entry changes, and the verdict may be published. -/
theorem step_deliver_cases (hw : w.daemon.Sound) (a : Answers) :
    w.next env fd (.deliver a) = w ∨
    ∃ evt rest, w.phase = .draining ∧ w.ring = evt :: rest ∧
      (w.next env fd (.deliver a)).ring = rest ∧
      (w.next env fd (.deliver a)).phase = .draining ∧
      (w.next env fd (.deliver a)).daemon = w.daemon.step env (.process evt fd a) ∧
      ((w.daemon.engine.obtain evt a = none ∧ (w.next env fd (.deliver a)).kernel = w.kernel) ∨
        ∃ f, w.daemon.engine.obtain evt a = some f ∧ f.key = evt.key ∧
          (w.next env fd (.deliver a)).kernel =
            if fd ≥ 0 ∧ (f.exit evt a).publishes then
              w.kernel.writeVerdict evt.key (w.daemon.body env evt fd a f).flow.appId
            else w.kernel) := by
  rw [next, step]
  split
  case h_2 => exact .inl rfl
  case h_1 evt rest hphase hring =>
    refine .inr ⟨evt, rest, hphase, hring, rfl, hphase, rfl, ?_⟩
    dsimp only
    rw [foldl_receive]
    cases ho : w.daemon.engine.obtain evt a with
    | none =>
      rw [ndpiEngineProcess_of_none env fd ho]
      exact .inl ⟨rfl, rfl⟩
    | some f =>
      obtain ⟨hsound, hl⟩ := hw.entered ho
      have hkey : f.key = evt.key := hsound.valid.key_lookup hl
      refine .inr ⟨f, rfl, hkey, ?_⟩
      rw [published_of_some env fd ho, hkey]
      split <;> rfl

/-! ### One flow -/

theorem lookup_writeVerdict_of_ne (s : Kernel) {k k' : FlowKey} (hne : k' ≠ k) (app : UInt16) :
    (s.writeVerdict k app).verdictMap.lookup k' = s.verdictMap.lookup k' := by
  rw [Kernel.writeVerdict]
  cases h : s.verdictMap.update k app with
  | none => rfl
  | some m =>
    dsimp only [Option.getD_some]
    rw [BoundedMap.lookup_update h, if_neg hne]

/-- Both sides are the same as far as the flow `k` goes. -/
structure Same (k : FlowKey) (w w' : Pipeline) : Prop where
  kernelEntry : w'.kernelEntry k = w.kernelEntry k
  verdict : w'.verdict k = w.verdict k
  ringOf : w'.ringOf k = w.ringOf k
  daemonEntry : w'.daemonEntry k = w.daemonEntry k
  callsOf : w'.callsOf k = w.callsOf k

theorem Same.refl (k : FlowKey) (w : Pipeline) : Same k w w := ⟨rfl, rfl, rfl, rfl, rfl⟩

/-- **Packets.** A packet does nothing to the other flows. To its own flow it does what `FlowStep`
says, and its event joins the ring buffer. -/
theorem step_packet_cases (w : Pipeline) (p : Pkt) (k : FlowKey) :
    (pathsOf k [(w.step env fd (.packet p)).2] = [] ∧ Same k w (w.next env fd (.packet p))) ∨
    ∃ tot path, parsePkt p.skb = some (k, tot) ∧
      pathsOf k [(w.step env fd (.packet p)).2] = [path] ∧
      FlowStep p (p.event k tot) w.kernel.flowMap.IsFull (w.verdict k) (w.kernelEntry k) path
        ((w.next env fd (.packet p)).kernelEntry k) ∧
      (w.next env fd (.packet p)).verdict k = w.verdict k ∧
      (w.next env fd (.packet p)).ringOf k = w.ringOf k ++ path.event.toList := by
  have hevent {k' : FlowKey} {tot : UInt16} (h : parsePkt p.skb = some (k', tot)) (evt : FlowEvent)
      (hevt : (processFlow w.kernel p k' (p.event k' tot)).2.event = some evt) : evt.key = k' := by
    rcases (processFlow_flowStep w.kernel p k' (p.event k' tot)).event_eq_or with hnone | heq
    · rw [hnone] at hevt
      cases hevt
    · exact Pkt.key_event (heq.symm.trans hevt)
  cases h : parsePkt p.skb with
  | none =>
    rw [next, step, processPkt_of_none h]
    refine .inl ⟨rfl, rfl, rfl, ?_, rfl, rfl⟩
    exact congrArg (List.filter _) (List.append_nil _)
  | some r =>
    obtain ⟨k', tot⟩ := r
    specialize hevent h
    rw [next, step, processPkt_of_some h]
    generalize hpath : (processFlow w.kernel p k' (p.event k' tot)).2 = path at hevent
    by_cases hk : k' = k
    · subst hk
      refine .inr ⟨tot, path, rfl, by simp [pathsOf, List.reduceOption], ?_, ?_, ?_⟩
      · rw [← hpath]
        exact processFlow_flowStep w.kernel p k' _
      · exact congrArg (BoundedMap.lookup · k') (processFlow_verdictMap w.kernel p k' _)
      · dsimp only [ringOf, Option.bind_some]
        rw [List.filter_append]
        congr 1
        cases hpath' : path.event with
        | none => rfl
        | some evt => simp [hevent evt hpath']
    · refine .inl ⟨by simp [pathsOf, List.reduceOption, hk], ?_, ?_, ?_, rfl, rfl⟩
      · exact processFlow_lookup_of_ne (Ne.symm hk) _
      · exact congrArg (BoundedMap.lookup · k) (processFlow_verdictMap w.kernel p k' _)
      · dsimp only [ringOf, Option.bind_some]
        rw [List.filter_append]
        cases hpath' : path.event with
        | none => simp
        | some evt => simp [hevent evt hpath', hk]

/-- **Delivery to one flow.** A delivered event does nothing to the other flows. With an entry of
its own flow it becomes a call on that entry, and the verdict may be published. -/
theorem step_deliver_flow (hw : w.daemon.Sound) (a : Answers) (k : FlowKey) :
    Same k w (w.next env fd (.deliver a)) ∨
    ∃ evt, w.phase = .draining ∧ evt.key = k ∧
      w.ringOf k = evt :: (w.next env fd (.deliver a)).ringOf k ∧
      (w.next env fd (.deliver a)).kernelEntry k = w.kernelEntry k ∧
      ((w.daemonEntry k = none ∧ (w.next env fd (.deliver a)).daemonEntry k = none ∧
          (w.next env fd (.deliver a)).verdict k = w.verdict k ∧
          (w.next env fd (.deliver a)).callsOf k = w.callsOf k) ∨
        ∃ f, (w.daemonEntry k = some f ∨
            w.daemonEntry k = none ∧ f = FlowTable.fresh k a.timeCreated) ∧
          (w.next env fd (.deliver a)).daemonEntry k =
            some (w.daemon.body env evt fd a f).flow ∧
          (w.next env fd (.deliver a)).kernel =
            (if fd ≥ 0 ∧ (f.exit evt a).publishes then
              w.kernel.writeVerdict k (w.daemon.body env evt fd a f).flow.appId
            else w.kernel) ∧
          (w.next env fd (.deliver a)).callsOf k = w.callsOf k ++ [(f, evt, a)]) := by
  rcases step_deliver_cases env fd hw a with
    heq | ⟨evt, rest, hphase, hring, hring', -, hdaemon, hcases⟩
  · rw [heq]
    exact .inl (Same.refl k w)
  generalize w.next env fd (.deliver a) = w' at hring' hdaemon hcases
  have hringOf : w.ringOf k = (if evt.key = k then [evt] else []) ++ w'.ringOf k := by
    rw [ringOf, hring, ringOf, hring', List.filter_cons]
    by_cases hk : evt.key = k <;> simp [hk]
  rcases hcases with ⟨ho, hkernel⟩ | ⟨f, ho, hkey, hkernel⟩
  · have hlookup (k : FlowKey) : w'.daemonEntry k = w.daemonEntry k := by
      rw [daemonEntry, hdaemon]
      exact EngineRun.lookup_step_process_of_none env fd ho k
    have hcalls : w'.daemon.calls = w.daemon.calls := by
      rw [hdaemon, EngineRun.step_process_of_none env fd ho]
    have hverdict : w'.verdict k = w.verdict k := by rw [verdict, hkernel]; rfl
    have hentry : w'.kernelEntry k = w.kernelEntry k := by rw [kernelEntry, hkernel]; rfl
    by_cases hk : evt.key = k
    · have hnone : w.daemonEntry k = none := by
        rcases w.daemon.engine.obtain_cases evt a with ⟨g, -, hg, -⟩ | ⟨-, hg, -⟩ | ⟨hl, -, -⟩
        · rw [hg] at ho; cases ho
        · rw [hg] at ho; cases ho
        · rw [← hk]; exact hl
      rw [if_pos hk] at hringOf
      exact .inr ⟨evt, hphase, hk, hringOf, hentry,
        .inl ⟨hnone, (hlookup k).trans hnone, hverdict, by rw [callsOf, hcalls, callsOf]⟩⟩
    · rw [if_neg hk] at hringOf
      exact .inl ⟨hentry, hverdict, hringOf.symm, hlookup k, by rw [callsOf, hcalls, callsOf]⟩
  · have hlookup : w'.daemonEntry k = if evt.key = k then some (w.daemon.body env evt fd a f).flow
        else w.daemonEntry k := by
      rw [daemonEntry, hdaemon]
      exact hw.lookup_step_process env fd ho k
    have hcalls : w'.daemon.calls = w.daemon.calls ++ [(f, evt, a)] := by
      rw [hdaemon, EngineRun.step_process_of_some env fd ho]
    have hentry : w'.kernelEntry k = w.kernelEntry k := by
      rw [kernelEntry, hkernel]
      split <;> rfl
    by_cases hk : evt.key = k
    · rw [if_pos hk] at hringOf hlookup
      refine .inr ⟨evt, hphase, hk, hringOf, hentry, .inr ⟨f, ?_, hlookup, by rw [hkernel, hk], ?_⟩⟩
      · rcases EngineRun.entered_cases ho with ⟨hl, -⟩ | ⟨rfl, hl, -⟩
        · exact .inl (by rw [← hk]; exact hl)
        · exact .inr ⟨by rw [← hk]; exact hl, by rw [hk]⟩
      · rw [callsOf, hcalls, List.filter_append]
        simp [callsOf, hk]
    · rw [if_neg hk] at hringOf hlookup
      refine .inl ⟨hentry, ?_, hringOf.symm, hlookup, ?_⟩
      · rw [verdict, hkernel]
        split
        · exact lookup_writeVerdict_of_ne w.kernel (Ne.symm hk) _
        · rfl
      · rw [callsOf, hcalls, List.filter_append]
        simp [callsOf, hk]

theorem step_deliver_phase (w : Pipeline) (a : Answers) :
    (w.next env fd (.deliver a)).phase = w.phase := by
  rw [next, step]
  split <;> rfl

theorem step_drained_cases (w : Pipeline) :
    w.next env fd .drained = w ∨
      w.ring = [] ∧ w.next env fd .drained = { w with phase := .serving } := by
  rw [next, step]
  dsimp only
  split
  case isTrue h => exact .inr ⟨h, rfl⟩
  case isFalse => exact .inl rfl

theorem step_age_cases (w : Pipeline) (now : ℤ) :
    w.next env fd (.age now) = w ∨
      w.phase = .serving ∧
        w.next env fd (.age now) = { w with daemon := w.daemon.step env (.age now) } := by
  rw [next, step]
  dsimp only
  split
  case isTrue h => exact .inr ⟨h, rfl⟩
  case isFalse => exact .inl rfl

/-- A sweep that the main loop makes, by what it does to the daemon. -/
theorem step_age_daemon (hw : w.daemon.Sound) (now : ℤ) :
    w.next env fd (.age now) = w ∨
      w.phase = .serving ∧ ∃ d : EngineRun, w.next env fd (.age now) = { w with daemon := d } ∧
        d.Sound ∧ d.calls = w.daemon.calls ∧
        ∀ k, flowTableLookup d.engine.flows k =
          (w.daemonEntry k).filter fun f => !f.isIdle now := by
  rcases step_age_cases env fd w now with heq | ⟨hphase, heq⟩
  · exact .inl heq
  · have hcalls : (w.daemon.step env (.age now)).calls = w.daemon.calls := by
      rw [EngineRun.step_age]
    exact .inr ⟨hphase, _, heq, hw.step env (.age now), hcalls, hw.lookup_step_age env now⟩

/-- Every step keeps the table of the daemon valid. -/
theorem step_sound (hw : w.daemon.Sound) (op : PipelineOp) :
    (w.next env fd op).daemon.Sound := by
  cases op with
  | packet p => exact hw
  | deliver a =>
    rcases step_deliver_cases env fd hw a with heq | ⟨evt, rest, -, -, -, -, hdaemon, -⟩
    · rw [heq]
      exact hw
    · rw [hdaemon]
      exact hw.step env (.process evt fd a)
  | drained =>
    rcases step_drained_cases env fd w with heq | ⟨-, heq⟩
    · rw [heq]
      exact hw
    · rw [heq]
      exact hw
  | age now =>
    rcases step_age_cases env fd w now with heq | ⟨-, heq⟩
    · rw [heq]
      exact hw
    · rw [heq]
      exact hw.step env (.age now)
  | loop => exact hw

/-! ### The kernel's side -/

/-- The writes of the daemon are steps of the kernel's maps. -/
theorem exists_foldl_receive_eq (s : Kernel) (l : List Effect) : ∃ kops,
    l.foldl Kernel.receive s = (runOut Kernel.step s kops).1 ∧
      (runOut Kernel.step s kops).2.reduceOption = [] := by
  induction l generalizing s with
  | nil => exact ⟨[], rfl, rfl⟩
  | cons x l ih =>
    obtain ⟨kops, hstate, houts⟩ := ih (s.receive x)
    cases x with
    | verdictMapUpdate k app => exact ⟨.verdict k app :: kops, hstate, houts⟩
    | _ => exact ⟨kops, hstate, houts⟩

theorem exists_step_kernel_eq (w : Pipeline) (op : PipelineOp) : ∃ kops,
    (w.step env fd op).1.kernel = (runOut Kernel.step w.kernel kops).1 ∧
      [(w.step env fd op).2].reduceOption = (runOut Kernel.step w.kernel kops).2.reduceOption := by
  cases op with
  | packet p => exact ⟨[.packet p], rfl, rfl⟩
  | deliver a =>
    rw [step]
    split
    · obtain ⟨kops, hstate, houts⟩ := exists_foldl_receive_eq w.kernel
        (ndpiEngineProcess env w.daemon.engine _ fd a).2
      exact ⟨kops, hstate, houts.symm⟩
    · exact ⟨[], rfl, rfl⟩
  | drained =>
    rw [step]
    refine ⟨[], ?_, rfl⟩
    split <;> rfl
  | age now =>
    rw [step]
    refine ⟨[], ?_, rfl⟩
    split <;> rfl
  | loop => exact ⟨[], rfl, rfl⟩

/-- **The kernel's side.** The kernel's side of a run is a run of the kernel program with the same
packets. -/
theorem kernel_run (w : Pipeline) (ops : List PipelineOp) : ∃ kops,
    (runOut (step env fd) w ops).1.kernel = (runOut Kernel.step w.kernel kops).1 ∧
      (runOut (step env fd) w ops).2.reduceOption =
        (runOut Kernel.step w.kernel kops).2.reduceOption := by
  induction ops generalizing w with
  | nil => exact ⟨[], rfl, rfl⟩
  | cons op ops ih =>
    obtain ⟨kops₁, hstate₁, houts₁⟩ := exists_step_kernel_eq env fd w op
    obtain ⟨kops₂, hstate₂, houts₂⟩ := ih (w.step env fd op).1
    rw [hstate₁] at hstate₂ houts₂
    refine ⟨kops₁ ++ kops₂, ?_, ?_⟩
    · rw [runOut_append]
      exact hstate₂
    · rw [runOut_append, List.reduceOption_append, ← houts₁, ← houts₂, ← List.reduceOption_append]
      rfl

/-- The counters of the applications count the packets of the fast path. -/
theorem counted_run (w : Pipeline) (ops : List PipelineOp) (cpu : ℕ)
    (i : Fin appCounterEntries) :
    (runOut (step env fd) w ops).1.kernel.counted cpu i = w.kernel.counted cpu i +
      ((runOut (step env fd) w ops).2.reduceOption.map fun o => o.share cpu i).sum := by
  obtain ⟨kops, hstate, houts⟩ := kernel_run env fd w ops
  rw [hstate, houts]
  exact Kernel.counted_run w.kernel kops cpu i

/-! ### A sample run -/

/-- Eight packets of one flow and the delivery of the seven events; nDPI answers `p` for the
first event and does not know the others. -/
def eightPackets (p : NdpiProtocol) : List PipelineOp :=
  List.replicate 8 (.packet udpPkt) ++ .deliver { detection := p } ::
    List.replicate 6 (.deliver {})

end Pipeline

end NdpiObserve
