import NdpiObserve.Pipeline.MainLoop

/-!
# Giving up on both sides

The kernel gives a flow up on its eighth packet, which it does not submit any more; the daemon
gives a flow up on the eighth event that it receives. So at most seven events of a flow reach the
daemon, and the daemon's own last resort is out of reach: it decides the flow only when nDPI names
a protocol for one of the events, or when nDPI's flow structure cannot be allocated.

## Main definitions

* `Settles`: an event that makes the daemon decide before its last resort.
* `Pipeline.KeepsFlow`: the steps that keep a flow on both sides.
* `Pipeline.Balanced`: the invariant that relates the two packet counters.

## Main results

* `Pipeline.kernel_give_up_decided_iff`: when the kernel's decision implies the daemon's.
* `Pipeline.kernel_gave_up_daemon_undecided`: eight packets that leave the daemon undecided.
-/

namespace NdpiObserve

open Machine

/-! ### Settling events -/

/-- A call on an event with captured bytes for which nDPI names a protocol, or for which no flow
structure can be allocated. -/
def Settles (c : FlowEntry × FlowEvent × Answers) : Prop :=
  c.2.1.actualDataLen ≠ 0 ∧
    (c.2.2.detection.isKnown = true ∨ c.1.ndpiFlow = none ∧ c.2.2.ndpiMalloc = none)

instance (c : FlowEntry × FlowEvent × Answers) : Decidable (Settles c) :=
  inferInstanceAs (Decidable (_ ∧ _))

/-- Before the last packet that may be inspected, a call decides exactly on settling events. -/
theorem exit_decides_iff {f : FlowEntry} {evt : FlowEvent} {a : Answers}
    (hopen : f.state.isTerminal = false) (hcount : f.pktCount.toNat + 1 < 8) :
    (f.exit evt a).decides = true ↔ Settles (f, evt, a) := by
  have hmore : ¬f.pktCount + 1 ≥ flowMaxClassifyPkts := by
    rw [ge_iff_le, UInt8.not_le, UInt8.lt_iff_toNat_lt, UInt8.toNat_add, UInt8.toNat_one]
    change _ < 8
    omega
  rw [FlowEntry.exit, Settles, hopen]
  simp only [Bool.false_eq_true, if_false, hmore]
  by_cases hdata : evt.actualDataLen = 0
  · simp [hdata, Exit.decides]
  · by_cases halloc : f.ndpiFlow = none ∧ a.ndpiMalloc = none
    · simp [hdata, halloc, Exit.decides]
    · cases hknown : a.detection.isKnown <;> simp [hdata, halloc, Exit.decides]

namespace Pipeline

/-! ### The two counters -/

/-- The flow is stored by the kernel and not aged out by the daemon. -/
def KeepsFlow (k : FlowKey) (w : Pipeline) : PipelineOp → Prop
  | .packet p => Kernel.StoresFlow k w.kernel (.packet p)
  | .age now => ∀ f ∈ w.daemonEntry k, f.isIdle now = false
  | .deliver _ | .drained | .loop => True

instance (k : FlowKey) (w : Pipeline) (op : PipelineOp) : Decidable (KeepsFlow k w op) :=
  match op with
  | .packet p => inferInstanceAs (Decidable (Kernel.StoresFlow k w.kernel (.packet p)))
  | .age now => inferInstanceAs (Decidable (∀ f ∈ w.daemonEntry k, f.isIdle now = false))
  | .deliver _ | .drained | .loop => isTrue trivial

/-- The events of a flow that the daemon has received, that wait, and that the kernel may still
submit are at most seven. The daemon's entry has counted those received, and is decided when one
of them settled it. -/
structure Balanced (k : FlowKey) (w : Pipeline) : Prop where
  sound : w.daemon.Sound
  budget : (w.callsOf k).length + (w.ringOf k).length + slowLeft (w.kernelEntry k) ≤ 7
  absent : w.daemonEntry k = none → w.callsOf k = []
  decided_iff : ∀ f, w.daemonEntry k = some f →
    (f.state.isTerminal = true ↔ ∃ c ∈ w.callsOf k, Settles c)
  pktCount_eq : ∀ f, w.daemonEntry k = some f → f.state.isTerminal = false →
    f.pktCount.toNat = (w.callsOf k).length

variable (env : Env) (fd : ℤ) {w : Pipeline} {k : FlowKey}

theorem Balanced.of_same {w' : Pipeline} (h : w.Balanced k) (hs : Same k w w')
    (hsound : w'.daemon.Sound) : w'.Balanced k := by
  obtain ⟨hkernel, -, hring, hdaemon, hcalls⟩ := hs
  refine ⟨hsound, ?_, ?_, ?_, ?_⟩
  · rw [hkernel, hring, hcalls]
    exact h.budget
  · rw [hdaemon, hcalls]
    exact h.absent
  · rw [hdaemon, hcalls]
    exact h.decided_iff
  · rw [hdaemon, hcalls]
    exact h.pktCount_eq

theorem balanced_start (iface : Bytes) (ml dump : Bool) (k : FlowKey) :
    (start iface ml dump).Balanced k := by
  have hnone : (start iface ml dump).daemonEntry k = none := rfl
  refine ⟨EngineRun.sound_start iface ml dump, ?_, fun _ => rfl, ?_, ?_⟩
  · have hentry : (start iface ml dump).kernelEntry k = none := BoundedMap.lookup_empty k
    rw [hentry]
    exact le_refl 7
  · rw [hnone]
    rintro f ⟨⟩
  · rw [hnone]
    rintro f ⟨⟩

/-- A packet of the flow. -/
theorem Balanced.packet (h : w.Balanced k) (p : Pkt)
    (hkeeps : Kernel.StoresFlow k w.kernel (.packet p)) :
    (w.next env fd (.packet p)).Balanced k := by
  rcases step_packet_cases env fd w p k with ⟨-, hsame⟩ | ⟨tot, path, hparse, -, hflow, -, hring⟩
  · exact h.of_same hsame h.sound
  · have hstored : w.kernelEntry k = none → ¬w.kernel.flowMap.IsFull := hkeeps (by rw [hparse]; rfl)
    have hcalls : (w.next env fd (.packet p)).callsOf k = w.callsOf k := rfl
    refine ⟨h.sound, ?_, h.absent, h.decided_iff, h.pktCount_eq⟩
    have hbudget := h.budget
    rw [hcalls, hring, List.length_append]
    rcases hflow.slowLeft_lt_or hstored with ⟨rfl, hlt⟩ | ⟨app, rfl, hzero⟩
    · have hone : (PktPath.ring (p.event k tot)).event.toList.length ≤ 1 := by
        cases p.event k tot <;> simp [PktPath.event]
      omega
    · have hzero' : (PktPath.counted app).event.toList.length = 0 := rfl
      omega

/-- An event of the flow that reaches its entry. -/
theorem Balanced.call (h : w.Balanced k) (evt : FlowEvent) {f : FlowEntry} {a : Answers}
    (hf : w.daemonEntry k = some f ∨ w.daemonEntry k = none ∧ f = FlowTable.fresh k a.timeCreated)
    (hlen : (w.callsOf k).length + 1 ≤ 7) :
    let f' := (w.daemon.body env evt fd a f).flow
    (f'.state.isTerminal = true ↔ ∃ c ∈ w.callsOf k ++ [(f, evt, a)], Settles c) ∧
      (f'.state.isTerminal = false → f'.pktCount.toNat = (w.callsOf k).length + 1) := by
  have hdecided : f.state.isTerminal = true ↔ ∃ c ∈ w.callsOf k, Settles c := by
    rcases hf with hf | ⟨hnone, rfl⟩
    · exact h.decided_iff f hf
    · rw [h.absent hnone]
      simp [FlowTable.fresh, FlowState.isTerminal]
  have hcount : f.state.isTerminal = false → f.pktCount.toNat = (w.callsOf k).length := by
    rcases hf with hf | ⟨hnone, rfl⟩
    · exact h.pktCount_eq f hf
    · rw [h.absent hnone]
      exact fun _ => rfl
  intro f'
  have hterm : f'.state.isTerminal = (f.state.isTerminal || (f.exit evt a).decides) :=
    Call.process_isTerminal env evt fd a (w.daemon.engine.bodyStart evt a)
  have hexists : (∃ c ∈ w.callsOf k ++ [(f, evt, a)], Settles c) ↔
      (∃ c ∈ w.callsOf k, Settles c) ∨ Settles (f, evt, a) := by
    simp [or_and_right, exists_or]
  rw [hexists, ← hdecided, hterm]
  cases hopen : f.state.isTerminal with
  | true => simp
  | false =>
    have hmeters := Call.process_meters env evt fd a
      { engine := w.daemon.engine.bodyStart evt a, flow := f }
    simp only [hopen, Bool.false_eq_true, if_false] at hmeters
    have hpkt : f'.pktCount = f.pktCount + 1 := congrArg (fun m => m.2.1) hmeters
    have hlt := hcount hopen
    refine ⟨?_, fun _ => ?_⟩
    · rw [Bool.false_or, exit_decides_iff hopen (by omega)]
      simp
    · rw [hpkt, UInt8.toNat_add, UInt8.toNat_one, hlt]
      omega

theorem Balanced.deliver (h : w.Balanced k) (a : Answers) :
    (w.next env fd (.deliver a)).Balanced k := by
  have hsound := step_sound env fd h.sound (.deliver a)
  rcases step_deliver_flow env fd h.sound a k with
    hsame | ⟨evt, -, -, hring, hentry, ⟨hnone, hnone', -, hcalls⟩ | ⟨f, hf, hentry', -, hcalls⟩⟩
  · exact h.of_same hsame hsound
  · have hbudget := h.budget
    rw [hring, List.length_cons, ← hentry] at hbudget
    refine ⟨hsound, ?_, fun _ => hcalls.trans (h.absent hnone), ?_, ?_⟩
    · rw [hcalls]
      omega
    · rw [hnone']
      rintro f ⟨⟩
    · rw [hnone']
      rintro f ⟨⟩
  · have hbudget := h.budget
    rw [hring, List.length_cons, ← hentry] at hbudget
    obtain ⟨hdecided, hcount⟩ := h.call env fd evt hf (by omega)
    refine ⟨hsound, ?_, ?_, ?_, ?_⟩
    · rw [hcalls, List.length_append, List.length_singleton]
      omega
    · rw [hentry']
      rintro ⟨⟩
    · rw [hentry', hcalls]
      rintro _ ⟨⟩
      exact hdecided
    · rw [hentry', hcalls, List.length_append, List.length_singleton]
      rintro _ ⟨⟩
      exact hcount

/-- Every step that keeps the flow keeps the two counters balanced. -/
theorem Balanced.step (h : w.Balanced k) (op : PipelineOp) (hkeeps : KeepsFlow k w op) :
    (w.next env fd op).Balanced k := by
  cases op with
  | packet p => exact h.packet env fd p hkeeps
  | deliver a => exact h.deliver env fd a
  | drained =>
    rcases step_drained_cases env fd w with heq | ⟨-, heq⟩
    · rwa [heq]
    · rw [heq]
      exact h.of_same ⟨rfl, rfl, rfl, rfl, rfl⟩ h.sound
  | age now =>
    rcases step_age_daemon env fd h.sound now with heq | ⟨-, d, heq, hd, hcalls, hlookup⟩
    · rwa [heq]
    · have hkeep : (w.daemonEntry k).filter (fun f => !f.isIdle now) = w.daemonEntry k := by
        cases hf : w.daemonEntry k with
        | none => rfl
        | some f => simp [Option.filter, hkeeps f hf]
      rw [heq]
      refine h.of_same ⟨rfl, rfl, rfl, (hlookup k).trans hkeep, ?_⟩ hd
      rw [callsOf, callsOf, hcalls]
  | loop => exact h.of_same ⟨rfl, rfl, rfl, rfl, rfl⟩ h.sound

/-! ### Decisions -/

/-- The daemon has processed every event of the flow. -/
def Drained (k : FlowKey) (w : Pipeline) : Prop := w.ringOf k = []

instance (k : FlowKey) (w : Pipeline) : Decidable (Drained k w) :=
  inferInstanceAs (Decidable (w.ringOf k = []))

/-- The daemon's entry is decided exactly when an event of the flow has settled it. -/
theorem Balanced.decided (h : w.Balanced k) : w.Decided k ↔ ∃ c ∈ w.callsOf k, Settles c := by
  rw [Decided]
  cases hf : w.daemonEntry k with
  | none => simp [h.absent hf]
  | some f => simpa using h.decided_iff f hf

/-- **Giving up on both sides.** In a run that keeps a flow on both sides, the daemon has decided
the flow once the kernel has given it up and all its events are processed, if and only if one of
these events carried captured bytes and nDPI named a protocol for it or its flow structure could
not be allocated. -/
theorem kernel_give_up_decided_iff (iface : Bytes) (ml dump : Bool) (k : FlowKey)
    (ops : List PipelineOp) (h : Along (next env fd) (KeepsFlow k) (start iface ml dump) ops) :
    let w := run (next env fd) (start iface ml dump) ops
    (w.GaveUp k → w.Drained k → w.Decided k) ↔
      (w.GaveUp k → w.Drained k → ∃ c ∈ w.callsOf k, Settles c) := by
  have hbalanced : (run (next env fd) (start iface ml dump) ops).Balanced k :=
    run_induction_along h (balanced_start iface ml dump k) fun w op hw hop => hw.step env fd op hop
  exact imp_congr_right fun _ => imp_congr_right fun _ => hbalanced.decided

/-- A flow that nDPI knows is decided on both sides. -/
theorem kernel_give_up_decided_known :
    let w := run (next default 3) (start [] true false) (eightPackets { app := 5 })
    w.GaveUp udpKey ∧ w.Drained udpKey ∧ w.Decided udpKey := by
  intro w
  have hgave : w.GaveUp udpKey := by decide +kernel
  have hdrained : w.Drained udpKey := by decide +kernel
  refine ⟨hgave, hdrained, (kernel_give_up_decided_iff default 3 [] true false udpKey
    (eightPackets { app := 5 }) (by decide +kernel)).mpr (fun _ _ => ?_) hgave hdrained⟩
  decide +kernel

/-- A flow that nDPI does not know is given up by the kernel and left open by the daemon. -/
theorem kernel_gave_up_daemon_undecided : ¬ ∀ (env : Env) (fd : ℤ) (iface : Bytes) (ml dump : Bool)
    (k : FlowKey) (ops : List PipelineOp),
    Along (next env fd) (KeepsFlow k) (start iface ml dump) ops →
      let w := run (next env fd) (start iface ml dump) ops
      w.GaveUp k → w.Drained k → w.Decided k := by
  intro h
  have hdecided := h default 3 [] true false udpKey (eightPackets {}) (by decide +kernel)
    (by decide +kernel) (by decide +kernel)
  exact absurd hdecided (by decide +kernel)

end Pipeline

end NdpiObserve
