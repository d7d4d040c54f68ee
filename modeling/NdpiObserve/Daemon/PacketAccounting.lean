import NdpiObserve.Daemon.FlowCounters

/-!
# The packets of the flows

`ndpi_engine_process` counts a packet in its flow's entry before it looks at the payload, but
after the early return for decided flows. So over a whole run the packet counters of all flows
add up to the packets that met an undecided flow, and the others appear in `pkts_cached` alone.

## Main definitions

* `Metered`: the packet counters of an entry are within the classification budget.

## Main results

* `EngineRun.sum_packets_run`, `EngineRun.sum_bytes_run`: the conservation law of every run.
* `EngineRun.all_packets_counted_iff`: when every packet is counted in its flow.
-/

namespace NdpiObserve

open Machine

/-! ### The classification budget -/

/-- Every packet of the entry was counted, there were at most as many as classification allows,
and strictly fewer while the flow is undecided. -/
structure Metered (f : FlowEntry) : Prop where
  packets_eq : f.packets.toNat = f.pktCount.toNat
  pktCount_le : f.pktCount.toNat ≤ 8
  pktCount_lt : f.state.isTerminal = false → f.pktCount.toNat < 8
  bytes_le : f.bytes.toNat ≤ f.pktCount.toNat * (2 ^ 32 - 1)

theorem metered_fresh (k : FlowKey) (t : ℤ) : Metered (FlowTable.fresh k t) where
  packets_eq := rfl
  pktCount_le := Nat.zero_le _
  pktCount_lt _ := Nat.succ_pos _
  bytes_le := Nat.zero_le _

namespace Call

variable (env : Env) (evt : FlowEvent) (fd : ℤ) (a : Answers) (e : Engine) {f : FlowEntry}

/-- A call that leaves the flow undecided has not used up its budget. -/
theorem pktCount_succ_lt {x : Ending} (hallows : (f.exit evt a).Allows x) (hx : x = .undecided) :
    ¬ f.pktCount + 1 ≥ flowMaxClassifyPkts := by
  subst hx
  intro hfull
  rw [FlowEntry.exit] at hallows
  split_ifs at hallows <;> simp [Exit.Allows] at hallows

/-- The packet counters after a call on an entry that is not decided. -/
theorem process_meters_toNat (hf : Metered f) (h : f.state.isTerminal = false) :
    let c := Call.process env evt fd a { engine := e, flow := f }
    c.flow.pktCount.toNat = f.pktCount.toNat + 1 ∧ c.flow.packets.toNat = f.packets.toNat + 1 ∧
      c.flow.bytes.toNat = f.bytes.toNat + evt.pktLen.toNat := by
  intro c
  have hmeters : c.flow.meters = (f.key, f.pktCount + 1, f.bytes + evt.pktLen.toUInt64,
      f.packets + 1) := by
    rw [process_meters]
    exact if_neg (by simp [h])
  simp only [FlowEntry.meters, Prod.mk.injEq] at hmeters
  obtain ⟨-, hcount, hbytes, hpackets⟩ := hmeters
  have hlt := hf.pktCount_lt h
  have hp := hf.packets_eq
  have hb := hf.bytes_le
  have hlen : evt.pktLen.toNat < 2 ^ 32 := evt.pktLen.toNat_lt
  rw [hcount, hpackets, hbytes, UInt8.toNat_add, UInt64.toNat_add, UInt64.toNat_add,
    UInt32.toNat_toUInt64]
  simp only [UInt8.toNat_one, UInt64.toNat_one]
  omega

theorem process_metered (hf : Metered f) :
    Metered (Call.process env evt fd a { engine := e, flow := f }).flow := by
  cases hterm : f.state.isTerminal with
  | true =>
    rw [process_of_isTerminal env evt fd a (c := { engine := e, flow := f }) hterm]
    exact ⟨hf.packets_eq, hf.pktCount_le, hf.pktCount_lt, hf.bytes_le⟩
  | false =>
    obtain ⟨hcount, hpackets, hbytes⟩ := process_meters_toNat env evt fd a e hf hterm
    have hlt := hf.pktCount_lt hterm
    have hp := hf.packets_eq
    have hb := hf.bytes_le
    have hlen : evt.pktLen.toNat < 2 ^ 32 := evt.pktLen.toNat_lt
    refine ⟨by omega, by omega, fun hopen => ?_, by omega⟩
    obtain ⟨x, hallows, hrec⟩ := process_records_entry env evt fd a e hterm
    have hx : x = .undecided := by
      have hleaves := hrec.leaves
      cases x <;> simp_all [Ending.Leaves, FlowState.isTerminal]
    have hnot := pktCount_succ_lt evt a hallows hx
    rw [hcount]
    simp only [flowMaxClassifyPkts, ge_iff_le, UInt8.le_iff_toNat_le, UInt8.toNat_add] at hnot
    simp at hnot
    omega

/-- A decided flow does not count the packet, and an undecided one does. -/
theorem process_counts_iff :
    let c := Call.process env evt fd a { engine := e, flow := f }
    (c.flow.packets = f.packets + 1 ∧ c.flow.bytes = f.bytes + evt.pktLen.toUInt64) ↔
      f.state.isTerminal = false := by
  intro c
  have hmeters : c.flow.meters = _ := process_meters env evt fd a { engine := e, flow := f }
  simp only [FlowEntry.meters] at hmeters
  cases hterm : f.state.isTerminal with
  | true =>
    rw [if_pos hterm, Prod.mk.injEq, Prod.mk.injEq, Prod.mk.injEq] at hmeters
    refine iff_of_false (fun h => ?_) (by simp)
    have hsame : f.packets + 1 = f.packets := by rw [← h.1, hmeters.2.2.2]
    exact absurd (left_eq_add.mp hsame.symm) (by decide)
  | false =>
    rw [if_neg (by simp [hterm]), Prod.mk.injEq, Prod.mk.injEq, Prod.mk.injEq] at hmeters
    exact iff_of_true ⟨hmeters.2.2.2, hmeters.2.2.1⟩ rfl

end Call

namespace EngineRun

variable (env : Env) {w : EngineRun}

/-! ### Whole runs -/

/-- The call met a flow that was not decided. -/
def isOpen (call : FlowEntry × FlowEvent × Answers) : Bool := !call.1.state.isTerminal

/-- The packets that met an undecided flow. -/
theorem tallies_packets :
    Tallies env Metered (fun w => (w.calls.countP isOpen : ℤ)) (fun f => (f.packets.toNat : ℤ))
    where
  start _ _ _ := rfl
  new _ _ := rfl
  dns _ _ _ := rfl
  table _ _ := rfl
  expire _ _ := rfl
  expired _ _ := rfl
  call w evt fd a f hf := by
    dsimp only
    rw [List.countP_append, List.countP_singleton]
    cases hterm : f.state.isTerminal with
    | true =>
      rw [Call.process_of_isTerminal env evt fd a (c := { engine := w.engine, flow := f }) hterm]
      simp [isOpen, hterm]
    | false =>
      obtain ⟨-, hpackets, -⟩ := Call.process_meters_toNat env evt fd a w.engine hf hterm
      rw [hpackets]
      simp [isOpen, hterm]

/-- The bytes of the packets that met an undecided flow. -/
theorem tallies_bytes :
    Tallies env Metered
      (fun w => ((w.calls.filter isOpen).map fun c => (c.2.1.pktLen.toNat : ℤ)).sum)
      (fun f => (f.bytes.toNat : ℤ)) where
  start _ _ _ := rfl
  new _ _ := rfl
  dns _ _ _ := rfl
  table _ _ := rfl
  expire _ _ := rfl
  expired _ _ := rfl
  call w evt fd a f hf := by
    dsimp only
    rw [List.filter_append, List.map_append, List.sum_append]
    cases hterm : f.state.isTerminal with
    | true =>
      rw [Call.process_of_isTerminal env evt fd a (c := { engine := w.engine, flow := f }) hterm]
      simp [isOpen, hterm]
    | false =>
      obtain ⟨-, -, hbytes⟩ := Call.process_meters_toNat env evt fd a w.engine hf hterm
      rw [hbytes]
      simp [isOpen, hterm]

variable (iface : Bytes) (ml dump : Bool) (ops : List EngineOp)

/-- **Conservation of packets.** The packets of all flows, live and expired, are the packets that
met an undecided flow. -/
theorem sum_packets_run :
    let w := run (step env) (start iface ml dump) ops
    (w.flows.map fun f => f.packets.toNat).sum = w.calls.countP isOpen := by
  intro w
  have h := (tallies_packets env).sum_flows_run metered_fresh
    (fun evt fd a e f => Call.process_metered env evt fd a e) iface ml dump ops
  refine Nat.cast_injective (R := ℤ) ?_
  rw [Nat.cast_multiset_sum, Multiset.map_map]
  exact h.symm

/-- **Conservation of bytes.** -/
theorem sum_bytes_run :
    let w := run (step env) (start iface ml dump) ops
    (w.flows.map fun f => f.bytes.toNat).sum =
      ((w.calls.filter isOpen).map fun c => c.2.1.pktLen.toNat).sum := by
  intro w
  have h := (tallies_bytes env).sum_flows_run metered_fresh
    (fun evt fd a e f => Call.process_metered env evt fd a e) iface ml dump ops
  refine Nat.cast_injective (R := ℤ) ?_
  rw [Nat.cast_multiset_sum, Multiset.map_map, Nat.cast_list_sum, List.map_map]
  exact h.symm

/-- **When every packet is counted in its flow.** In every run, the packets and the bytes of all
flows, live and expired, add up to those of all processed packets exactly when no packet met a
flow that was already decided. A single packet is counted in its flow exactly when the flow is
not decided. -/
theorem all_packets_counted_iff :
    (let w := run (step env) (start iface ml dump) ops
    ((w.flows.map fun f => f.packets.toNat).sum = w.calls.length ∧
      (w.flows.map fun f => f.bytes.toNat).sum =
        (w.calls.map fun c => c.2.1.pktLen.toNat).sum) ↔
      ∀ c ∈ w.calls, c.1.state.isTerminal = false) ∧
    ∀ evt fd a e f, let c := Call.process env evt fd a { engine := e, flow := f }
      (c.flow.packets = f.packets + 1 ∧ c.flow.bytes = f.bytes + evt.pktLen.toUInt64) ↔
        f.state.isTerminal = false := by
  refine ⟨?_, fun evt fd a e f => Call.process_counts_iff env evt fd a e⟩
  intro w
  rw [sum_packets_run env iface ml dump ops, sum_bytes_run env iface ml dump ops]
  have hopen : w.calls.countP isOpen = w.calls.length ↔
      ∀ c ∈ w.calls, c.1.state.isTerminal = false := by
    rw [List.countP_eq_length]
    simp [isOpen]
  constructor
  · exact fun h => hopen.mp h.1
  · intro h
    refine ⟨hopen.mpr h, ?_⟩
    rw [List.filter_eq_self.mpr fun c hc => ?_]
    simp [isOpen, h c hc]

/-- Two packets of a flow that nDPI classifies on the first one: the second is counted in no
flow. -/
theorem classified_packet_not_counted :
    let w := run (step default) (start [] true false)
      [.process udpEvent (-1) { detection := { app := 7 } }, .process udpEvent (-1) {}]
    w.calls.length = 2 ∧ (w.flows.map fun f => f.packets.toNat).sum ≠ w.calls.length := by
  intro w
  have hlength : w.calls.length = 2 := by decide +kernel
  have hopen : w.calls.countP isOpen = 1 := by decide +kernel
  refine ⟨hlength, ?_⟩
  rw [sum_packets_run default [] true false, hopen, hlength]
  decide

end EngineRun

end NdpiObserve
