import NdpiObserve.Daemon.CpuCounters
import NdpiObserve.Daemon.ScanCounters
import NdpiObserve.Pipeline.MainLoop

/-!
# The way of every packet

What the kernel program sends to the ring buffer reaches `ndpi_engine_process` once and in order:
the daemon's side of every run is a run of the engine on the events that have left the ring buffer,
and these are the events that have been submitted, up to the ones that still wait. So every packet
that the kernel program accepts can be found in exactly one place: it is counted in the kernel, it
was lost because the ring buffer was full, it waits in the ring buffer, or it is a call of
`ndpi_engine_process`, which takes one of the exits of its body or ends early without an entry.

## Main definitions

* `Pipeline.delivered`, `Pipeline.engineOps`: what a step takes out of the ring buffer, and what it
  makes the engine do.
* `EngineRun.unrecorded`: the events for which no entry could be made.

## Main results

* `Pipeline.packet_ledger_run`: the places of all packets, and the counters that show them.
-/

namespace NdpiObserve

open Machine

/-! ### The events of the engine -/

/-- The event of a call. -/
def EngineOp.event : EngineOp → Option FlowEvent
  | .process evt _ _ => some evt
  | .age _ => none

/-! ### The counters of the kernel -/

/-- The packet is lost, because the ring buffer is full. -/
def PktOut.isLost (o : PktOut) : Bool := o.path.event.isNone && o.path.app.isNone

/-- The packet is counted under the application on the CPU. -/
def PktOut.isCountedAt (cpu : ℕ) (i : Fin appCounterEntries) (o : PktOut) : Bool :=
  o.cpu = cpu && o.path.app.any fun app => app.toNat = i.val

/-- The packet is counted where the daemon reads, on one of the first CPUs and under an application
that has a counter. -/
def PktOut.isCountedBelow (ncpu : ℕ) (o : PktOut) : Bool :=
  o.cpu < ncpu && o.path.app.any fun app => app.toNat < appCounterEntries

/-- A packet is counted in the kernel, submitted or lost. -/
theorem length_outs (outs : List PktOut) : outs.length =
    outs.countP (fun o => o.path.app.isSome) + outs.countP PktOut.isLost +
      (outs.filterMap fun o => o.path.event).length := by
  induction outs with
  | nil => rfl
  | cons o outs ih =>
    rw [List.length_cons, List.countP_cons, List.countP_cons, List.filterMap_cons, ih]
    unfold PktOut.isLost
    cases o.path with
    | counted app =>
      simp only [PktPath.app, PktPath.event, Option.isSome_some, Option.isNone_some,
        Bool.and_false, if_true, Bool.false_eq_true, if_false]
      omega
    | ring evt =>
      cases evt with
      | none =>
        simp only [PktPath.app, PktPath.event, Option.isSome_none, Option.isNone_none,
          Bool.and_true, if_true, Bool.false_eq_true, if_false]
        omega
      | some evt =>
        simp only [PktPath.app, PktPath.event, Option.isSome_none, Option.isNone_some,
          Bool.false_and, Bool.false_eq_true, if_false, List.length_cons]
        omega

theorem snd_share (o : PktOut) (cpu : ℕ) (i : Fin appCounterEntries) :
    (o.share cpu i).2 = UInt64.ofNat (if o.isCountedAt cpu i then 1 else 0) := by
  rw [PktOut.share, PktOut.isCountedAt]
  cases o.path.app with
  | none =>
    rw [Option.any_none, Bool.and_false]
    rfl
  | some app =>
    rw [Option.any_some]
    by_cases h : o.cpu = cpu ∧ app.toNat = i.val
    · simp only [h.1, h.2, decide_true, Bool.and_true, if_true]
      rfl
    · have hnot : (decide (o.cpu = cpu) && decide (app.toNat = i.val)) = false := by
        rw [← Bool.decide_and]
        exact decide_eq_false h
      simp only [hnot, if_neg h]
      rfl

/-- The shares of the packets add up to their number. -/
theorem snd_sum_share (outs : List PktOut) (cpu : ℕ) (i : Fin appCounterEntries) :
    ((outs.map fun o : PktOut => o.share cpu i).sum).2 =
      UInt64.ofNat (outs.countP (PktOut.isCountedAt cpu i)) := by
  induction outs with
  | nil => rfl
  | cons o outs ih =>
    rw [List.map_cons, List.sum_cons, Prod.snd_add, ih, snd_share, ← UInt64.ofNat_add,
      List.countP_cons, add_comm]

/-- Every packet that is counted where the daemon reads is counted at one place. -/
theorem sum_isCountedAt (o : PktOut) (ncpu : ℕ) :
    ∑ i, ∑ cpu ∈ Finset.range ncpu, (if o.isCountedAt cpu i then 1 else 0) =
      if o.isCountedBelow ncpu then 1 else 0 := by
  unfold PktOut.isCountedAt PktOut.isCountedBelow
  generalize o.path.app = x
  cases x with
  | none => simp
  | some app =>
    simp only [Option.any_some, Bool.and_eq_true, decide_eq_true_eq, ite_and]
    by_cases happ : app.toNat < appCounterEntries
    · rw [Finset.sum_eq_single ⟨app.toNat, happ⟩]
      · simp [happ]
      · intro i _ hne
        have hval : app.toNat ≠ i.val := fun heq => hne (Fin.ext heq.symm)
        simp [hval]
      · intro hnot
        exact absurd (Finset.mem_univ _) hnot
    · have hval (i : Fin appCounterEntries) : app.toNat ≠ i.val :=
        fun heq => happ (heq ▸ i.isLt)
      simp [happ, hval]

theorem sum_countP_isCountedAt (outs : List PktOut) (ncpu : ℕ) :
    ∑ i, ∑ cpu ∈ Finset.range ncpu, outs.countP (PktOut.isCountedAt cpu i) =
      outs.countP (PktOut.isCountedBelow ncpu) := by
  induction outs with
  | nil => simp
  | cons o outs ih => simp only [List.countP_cons, Finset.sum_add_distrib, ih, sum_isCountedAt]

/-- **The fast path.** What the daemon reads is the number of packets that are counted where it
reads. -/
theorem statsFastpath_eq {s : Kernel} {outs : List PktOut} {ncpu : ℕ} (hcpu : ncpu ≤ perCpuSize)
    (h : ∀ cpu i, (s.appCounters cpu i).packets =
      UInt64.ofNat (outs.countP (PktOut.isCountedAt cpu i))) :
    statsFastpath s ncpu = .ok (UInt64.ofNat (outs.countP (PktOut.isCountedBelow ncpu))) := by
  rw [(sums_eq_metricsIn hcpu ndpiEngineInit).1, MetricsIn.fastpath_eq, ← sum_countP_isCountedAt,
    Ledger.ofNat_sum]
  refine congrArg Except.ok (Finset.sum_congr rfl fun i _ => ?_)
  rw [sum_perCpu_ofKernel hcpu, Ledger.ofNat_sum]
  exact Finset.sum_congr rfl fun cpu _ => h cpu i

namespace EngineRun

variable (env : Env)

/-- The event for which a call finds no entry and can make none. -/
def unrecorded (w : EngineRun) : EngineOp → List FlowEvent
  | .process evt _ a => if w.engine.obtain evt a = none then [evt] else []
  | .age _ => []

/-- Every event of a run becomes a call with an entry or is unrecorded. -/
theorem length_events (w : EngineRun) (ops : List EngineOp) :
    w.calls.length + (ops.filterMap EngineOp.event).length =
      (emitted (step env) unrecorded w ops).length + (run (step env) w ops).calls.length := by
  induction ops generalizing w with
  | nil => simp [emitted]
  | cons op ops ih =>
    have hrest := ih (w.step env op)
    rw [emitted, run_cons, List.length_append]
    cases op with
    | age now =>
      have hcalls : (w.step env (.age now)).calls = w.calls := by rw [step_age]
      rw [hcalls] at hrest
      simp only [List.filterMap_cons, EngineOp.event, unrecorded, List.length_nil]
      omega
    | process evt fd a =>
      simp only [List.filterMap_cons, EngineOp.event, List.length_cons, unrecorded]
      cases ho : w.engine.obtain evt a with
      | none =>
        have hcalls : (w.step env (.process evt fd a)).calls = w.calls := by
          rw [step_process_of_none env fd ho]
        rw [hcalls] at hrest
        rw [if_pos rfl, List.length_singleton]
        omega
      | some f =>
        have hcalls : (w.step env (.process evt fd a)).calls = w.calls ++ [(f, evt, a)] := by
          rw [step_process_of_some env fd ho]
        rw [hcalls, List.length_append, List.length_singleton] at hrest
        rw [if_neg (Option.some_ne_none f), List.length_nil]
        omega

end EngineRun

namespace Pipeline

variable (env : Env) (fd : ℤ)

/-! ### The ring buffer -/

/-- What a step puts into the ring buffer. -/
def submitted (w : Pipeline) : PipelineOp → List FlowEvent
  | .packet p => ((processPkt w.kernel p).2.bind fun o => o.path.event).toList
  | _ => []

/-- What a step takes out of the ring buffer. -/
def delivered (w : Pipeline) : PipelineOp → List FlowEvent
  | .deliver _ => if w.phase = .draining then w.ring.take 1 else []
  | _ => []

/-- What a step makes the engine do. -/
def engineOps (w : Pipeline) : PipelineOp → List EngineOp
  | .deliver a => (w.delivered (.deliver a)).map fun evt => .process evt fd a
  | .age now => if w.phase = .serving then [.age now] else []
  | _ => []

theorem filterMap_event_engineOps (w : Pipeline) (op : PipelineOp) :
    (w.engineOps fd op).filterMap EngineOp.event = w.delivered op := by
  cases op with
  | deliver a =>
    rw [engineOps, List.filterMap_map]
    exact List.filterMap_some
  | age now =>
    rw [engineOps]
    split <;> rfl
  | _ => rfl

/-- A step puts its events at the end and takes its event from the front. -/
theorem ring_step (w : Pipeline) (op : PipelineOp) :
    w.ring ++ w.submitted op = w.delivered op ++ (w.next env fd op).ring := by
  cases op with
  | packet p => rfl
  | deliver a =>
    show w.ring ++ [] = (if w.phase = .draining then w.ring.take 1 else []) ++ _
    rw [List.append_nil, next, step]
    cases hphase : w.phase with
    | serving => rfl
    | draining =>
      cases hring : w.ring with
      | nil => exact hring.symm
      | cons evt rest => rfl
  | drained =>
    show w.ring ++ [] = [] ++ _
    rw [List.append_nil, List.nil_append]
    rcases step_drained_cases env fd w with heq | ⟨-, heq⟩ <;> rw [heq]
  | age now =>
    show w.ring ++ [] = [] ++ _
    rw [List.append_nil, List.nil_append]
    rcases step_age_cases env fd w now with heq | ⟨-, heq⟩ <;> rw [heq]
  | loop => exact List.append_nil w.ring

/-- The daemon's side of a step is what the engine does. -/
theorem daemon_step (w : Pipeline) (op : PipelineOp) :
    (w.next env fd op).daemon = run (EngineRun.step env) w.daemon (w.engineOps fd op) := by
  cases op with
  | packet p => rfl
  | deliver a =>
    show _ = run (EngineRun.step env) w.daemon
      ((if w.phase = .draining then w.ring.take 1 else []).map fun evt => .process evt fd a)
    rw [next, step]
    cases hphase : w.phase with
    | serving => rfl
    | draining =>
      cases hring : w.ring with
      | nil => rfl
      | cons evt rest => rfl
  | drained =>
    rcases step_drained_cases env fd w with heq | ⟨-, heq⟩ <;> rw [heq] <;> rfl
  | age now =>
    show _ = run (EngineRun.step env) w.daemon (if w.phase = .serving then [.age now] else [])
    rw [next, step]
    split <;> rfl
  | loop => rfl

/-! ### Runs -/

/-- The daemon's side of a run is a run of the engine. -/
theorem daemon_run (w : Pipeline) (ops : List PipelineOp) :
    (run (next env fd) w ops).daemon =
      run (EngineRun.step env) w.daemon (emitted (next env fd) (engineOps fd) w ops) := by
  induction ops generalizing w with
  | nil => rfl
  | cons op ops ih =>
    rw [run_cons, ih, emitted, run_append, daemon_step]

/-- What the engine gets is what leaves the ring buffer. -/
theorem filterMap_event_emitted (w : Pipeline) (ops : List PipelineOp) :
    (emitted (next env fd) (engineOps fd) w ops).filterMap EngineOp.event =
      emitted (next env fd) delivered w ops := by
  induction ops generalizing w with
  | nil => rfl
  | cons op ops ih =>
    rw [emitted, List.filterMap_append, filterMap_event_engineOps, ih, emitted]

/-- What is submitted is seen of the packets. -/
theorem submitted_eq (w : Pipeline) (op : PipelineOp) :
    w.submitted op = ([(w.step env fd op).2].reduceOption).filterMap fun o => o.path.event := by
  cases op with
  | packet p =>
    show ((processPkt w.kernel p).2.bind fun o => o.path.event).toList = _
    rw [step]
    cases (processPkt w.kernel p).2 with
    | none => rfl
    | some o =>
      show o.path.event.toList = [o].filterMap fun o => o.path.event
      rw [List.filterMap_cons]
      cases o.path.event <;> rfl
  | deliver a =>
    rw [step]
    split <;> rfl
  | _ => rfl

theorem emitted_submitted (w : Pipeline) (ops : List PipelineOp) :
    emitted (next env fd) submitted w ops =
      (runOut (step env fd) w ops).2.reduceOption.filterMap fun o => o.path.event := by
  induction ops generalizing w with
  | nil => rfl
  | cons op ops ih =>
    rw [emitted, ih, submitted_eq env fd, next, runOut]
    show _ = (List.reduceOption ([(w.step env fd op).2] ++ _)).filterMap _
    rw [List.reduceOption_append, List.filterMap_append]

section Start

variable (iface : Bytes) (ml dump : Bool) (ops : List PipelineOp)

/-- What has been submitted has left the ring buffer or waits in it. -/
theorem submitted_run (w : Pipeline) (hw : w.ring = []) :
    (runOut (step env fd) w ops).2.reduceOption.filterMap (fun o => o.path.event) =
      (emitted (next env fd) (engineOps fd) w ops).filterMap EngineOp.event ++
        (run (next env fd) w ops).ring := by
  have hfifo := fifo_emitted ring (ring_step env fd) w ops
  rw [hw, List.nil_append, emitted_submitted] at hfifo
  rw [hfifo, filterMap_event_emitted]

/-- The counters of the kernel count its packets. -/
theorem appCounters_packets_run (cpu : ℕ) (i : Fin appCounterEntries) :
    let r := runOut (step env fd) (start iface ml dump) ops
    (r.1.kernel.appCounters cpu i).packets =
      UInt64.ofNat (r.2.reduceOption.countP (PktOut.isCountedAt cpu i)) := by
  intro r
  have hcounted := congrArg Prod.snd (counted_run env fd (start iface ml dump) ops cpu i)
  rw [Prod.snd_add, snd_sum_share] at hcounted
  exact hcounted.trans (zero_add _)

/-- **Every packet once.** In every run of both sides, each packet that the kernel program accepts
is counted in the kernel, or was lost at a full ring buffer, or waits in the ring buffer, or found
no entry in the daemon, or is a call on an entry. What `show stats` shows are these numbers: the
fast path on the CPUs that are read, and the calls by their exits; the calls on the other exits are
shown nowhere. -/
theorem packet_ledger_run {ncpu : ℕ} (hcpu : ncpu ≤ perCpuSize) :
    let r := runOut (step env fd) (start iface ml dump) ops
    let outs := r.2.reduceOption
    let w := r.1
    let eops := emitted (next env fd) (engineOps fd) (start iface ml dump) ops
    let noEntry := emitted (EngineRun.step env) EngineRun.unrecorded
      (EngineRun.start iface ml dump) eops
    outs.length = outs.countP (fun o => o.path.app.isSome) + outs.countP PktOut.isLost +
        w.ring.length + noEntry.length + w.daemon.calls.length ∧
      statsFastpath w.kernel ncpu =
        .ok (UInt64.ofNat (outs.countP (PktOut.isCountedBelow ncpu))) ∧
      w.daemon.engine.packetCounters =
        (UInt64.ofNat (w.daemon.calls.countP fun c => EngineRun.exitOf c = .cached),
          UInt64.ofNat (w.daemon.calls.countP fun c => (EngineRun.exitOf c).scans),
          UInt64.ofNat (w.daemon.calls.countP fun c => (EngineRun.exitOf c).scans)) := by
  intro r outs w eops noEntry
  have hw : w = run (next env fd) (start iface ml dump) ops := fst_runOut _ _ _
  have hdaemon : w.daemon = run (EngineRun.step env) (EngineRun.start iface ml dump) eops := by
    rw [hw]
    exact daemon_run env fd (start iface ml dump) ops
  refine ⟨?_, statsFastpath_eq hcpu fun cpu i => ?_, ?_⟩
  · have hsubmitted : (outs.filterMap fun o => o.path.event).length =
        (eops.filterMap EngineOp.event).length + w.ring.length := by
      rw [hw, ← List.length_append]
      exact congrArg List.length (submitted_run env fd ops (start iface ml dump) rfl)
    have hevents : (eops.filterMap EngineOp.event).length =
        noEntry.length + w.daemon.calls.length := by
      rw [hdaemon, ← EngineRun.length_events]
      exact (Nat.zero_add _).symm
    have houts := length_outs outs
    omega
  · exact appCounters_packets_run env fd iface ml dump ops cpu i
  · rw [hdaemon]
    exact EngineRun.packetCounters_run env iface ml dump eops

end Start

/-- Seven of the eight packets are calls that give their packet to nDPI. The last one is counted in
the kernel. -/
theorem packet_ledger_run_eight :
    let r := runOut (step default 3) (start [] true false) (eightPackets {})
    statsFastpath r.1.kernel 1 = .ok 1 ∧ r.1.daemon.engine.packetCounters = (0, 7, 7) := by
  intro r
  obtain ⟨-, hfast, hcounters⟩ :=
    packet_ledger_run default 3 [] true false (eightPackets {})
      (show 1 ≤ perCpuSize by decide)
  have hone : r.2.reduceOption.countP (PktOut.isCountedBelow 1) = 1 := by decide +kernel
  have hcached : r.1.daemon.calls.countP (fun c => EngineRun.exitOf c = .cached) = 0 := by
    decide +kernel
  have hscans : r.1.daemon.calls.countP (fun c => (EngineRun.exitOf c).scans) = 7 := by
    decide +kernel
  rw [hone] at hfast
  rw [hcached, hscans] at hcounters
  exact ⟨hfast, hcounters⟩

end Pipeline

end NdpiObserve
