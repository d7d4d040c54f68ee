import NdpiObserve.Daemon.CounterGrowth
import NdpiObserve.Pipeline.MergedFlows
import NdpiObserve.Pipeline.PacketLedger

/-!
# Readings of the counters

The counters of the engine and those of the kernel are meters of the runs of both sides together. A
packet that the kernel program accepts either is counted in the kernel or comes to the engine
through the ring buffer, where its event waits as part of the supply. So what a counter of the
metrics page shows, the part of the engine and that of the kernel, does not fall from one reading to
a later one, as long as the traffic of the run fits 64 bits.

## Main definitions

* `PipelineOp.load`: what a step can bring in.
* `Kernel.sumOver`: what the kernel has counted in some of its counters.

## Main results

* `Pipeline.draws_daemon`, `Pipeline.draws_kernel`: the meters of both sides.
* `Pipeline.reading_le`, `Pipeline.mergedReading_le`: later readings are not below earlier ones.
-/

namespace NdpiObserve

open Machine Meter

/-- The packet's bytes, with the largest length that its IP header can state. -/
def PipelineOp.load : PipelineOp → ℕ
  | .packet p => p.skb.len + 65536
  | _ => 0

/-! ### The kernel -/

/-- The counter of the quantity. -/
def Quantity.count (q : Quantity) (c : ObsAppCnt) : UInt64 := q.get (c.bytes, c.packets, c.flows)

/-- What the kernel has counted in the counters `cells`, each of a CPU and an application. -/
def Kernel.sumOver (q : Quantity) (cells : Finset (ℕ × Fin numApps)) (s : Kernel) : UInt64 :=
  ∑ x ∈ cells, q.count (s.appCounters x.1 x.2)

/-- A packet is counted in one place at most. -/
theorem PktOut.exists_sum_credit_eq (q : Quantity) (cells : Finset (ℕ × Fin numApps)) (o : PktOut)
    {n : ℕ} (hbytes : o.bytes = UInt64.ofNat n) (isNewFlow : Bool) : ∃ d ≤ n + 1,
      ∑ x ∈ cells, q.get (o.credit isNewFlow x.1 x.2) = UInt64.ofNat d := by
  have hnothing {g : ℕ × Fin numApps → UInt64} (hg : ∀ x, g x = 0) :
      ∃ d ≤ n + 1, ∑ x ∈ cells, g x = UInt64.ofNat d :=
    ⟨0, Nat.zero_le _, Finset.sum_eq_zero fun x _ => hg x⟩
  cases hpath : o.path.app with
  | none => exact hnothing fun x => by rw [credit, hpath, q.get_zero]
  | some app =>
    have hcredit (x : ℕ × Fin numApps) : q.get (o.credit isNewFlow x.1 x.2) =
        if o.cpu = x.1 ∧ app.toNat = x.2.val then
          q.get (o.bytes, 1, if isNewFlow then 1 else 0) else 0 := by
      rw [credit, hpath]
      dsimp only
      rw [apply_ite q.get, q.get_zero]
    by_cases happ : app.toNat < numApps
    · have hcell (x : ℕ × Fin numApps) :
          (o.cpu = x.1 ∧ app.toNat = x.2.val) ↔ (o.cpu, (⟨app.toNat, happ⟩ : Fin numApps)) = x := by
        rw [Prod.ext_iff, Fin.ext_iff]
      simp only [hcredit, hcell, Finset.sum_ite_eq]
      split
      · cases q with
        | bytes => exact ⟨n, Nat.le_succ n, hbytes⟩
        | packets => exact ⟨1, by omega, rfl⟩
        | flows =>
          refine ⟨if isNewFlow then 1 else 0, by split <;> omega, ?_⟩
          show (if isNewFlow then 1 else 0 : UInt64) = _
          split <;> rfl
      · exact ⟨0, Nat.zero_le _, rfl⟩
    · refine hnothing fun x => ?_
      rw [hcredit, if_neg]
      rintro ⟨-, hx⟩
      exact happ (hx ▸ x.2.isLt)

theorem Kernel.exists_sumOver_processPkt_eq (q : Quantity) (cells : Finset (ℕ × Fin numApps))
    (s : Kernel) (p : Pkt) : ∃ d ≤ p.skb.len + 1,
      (processPkt s p).1.sumOver q cells = s.sumOver q cells + UInt64.ofNat d := by
  cases hparse : parsePkt p.skb with
  | none =>
    rw [processPkt_of_none hparse]
    exact ⟨0, Nat.zero_le _, (add_zero _).symm⟩
  | some r =>
    rw [processPkt_of_some hparse]
    dsimp only
    have hcounters := fun x : ℕ × Fin numApps =>
      congrArg q.get (counters_processFlow s p r.1 (p.event r.1 r.2) x.1 x.2)
    obtain ⟨d, hd, hsum⟩ := PktOut.exists_sum_credit_eq q cells
      ⟨r.1, p.cpu, p.bytes, (processFlow s p r.1 (p.event r.1 r.2)).2⟩ (n := p.skb.len) rfl
      (s.isNewFlow ⟨r.1, p.cpu, p.bytes, (processFlow s p r.1 (p.event r.1 r.2)).2⟩)
    refine ⟨d, hd, ?_⟩
    rw [← hsum, sumOver, sumOver, ← Finset.sum_add_distrib]
    exact Finset.sum_congr rfl fun x _ => (hcounters x).trans (q.get_add _ _)

/-! ### Events -/

theorem pktLen_sendToRingbuf_lt (s : Skb) (key : FlowKey) (ipOff : ℕ) (pktLen : UInt16)
    (ts : UInt64) (stale : ℕ → UInt8) :
    (sendToRingbuf s key ipOff pktLen ts stale).pktLen.toNat < 65536 := by
  have hlen : (sendToRingbuf s key ipOff pktLen ts stale).pktLen = pktLen.toUInt32 := by
    rw [sendToRingbuf]
    split <;> rfl
  rw [hlen, UInt16.toNat_toUInt32]
  exact pktLen.toNat_lt

theorem Pkt.load_event_le {p : Pkt} {k : FlowKey} {tot : UInt16} {evt : FlowEvent}
    (h : p.event k tot = some evt) : evt.load ≤ 2 * 65536 := by
  rw [event] at h
  split at h
  · have hlt := pktLen_sendToRingbuf_lt p.skb k ethHlen tot p.ts p.stale
    rw [Option.some.inj h] at hlt
    rw [FlowEvent.load]
    omega
  · cases h

namespace Pipeline

variable (env : Env) (fd : ℤ)

/-- What the events that wait in the ring buffer can bring in. -/
def waiting (w : Pipeline) : ℕ := (w.ring.map FlowEvent.load).sum

theorem load_submitted_le (w : Pipeline) (op : PipelineOp) :
    ((w.submitted op).map FlowEvent.load).sum ≤ 2 * op.load := by
  cases op with
  | packet p =>
    show (((processPkt w.kernel p).2.bind fun o => o.path.event).toList.map FlowEvent.load).sum ≤
      2 * (p.skb.len + 65536)
    cases hparse : parsePkt p.skb with
    | none =>
      rw [processPkt_of_none hparse, Option.bind_none, Option.toList_none, List.map_nil]
      exact Nat.zero_le _
    | some r =>
      rw [processPkt_of_some hparse, Option.bind_some]
      rcases (processFlow_flowStep w.kernel p r.1 (p.event r.1 r.2)).event_eq_or with hnone | heq
      · rw [hnone, Option.toList_none, List.map_nil]
        exact Nat.zero_le _
      · rw [heq]
        cases hevt : p.event r.1 r.2 with
        | none =>
          rw [Option.toList_none, List.map_nil]
          exact Nat.zero_le _
        | some evt =>
          rw [Option.toList_some, List.map_singleton, List.sum_singleton]
          exact (Pkt.load_event_le hevt).trans (Nat.mul_le_mul_left 2 (Nat.le_add_left _ _))
  | _ => exact Nat.zero_le _

theorem load_engineOps (w : Pipeline) (op : PipelineOp) :
    ((w.engineOps fd op).map EngineOp.load).sum =
      ((w.delivered op).map FlowEvent.load).sum := by
  cases op with
  | deliver a =>
    rw [engineOps, List.map_map]
    rfl
  | age now =>
    rw [engineOps]
    split <;> rfl
  | _ => rfl

/-- **The ring buffer as supply.** What the engine is given and what waits is what waited before and
what the packet brings in. -/
theorem load_queue (w : Pipeline) (op : PipelineOp) :
    ((w.engineOps fd op).map EngineOp.load).sum + (w.next env fd op).waiting ≤
      w.waiting + 2 * op.load := by
  have hring := congrArg (fun l => (l.map FlowEvent.load).sum) (ring_step env fd w op)
  have hle := w.load_submitted_le op
  simp only [List.map_append, List.sum_append] at hring
  rw [load_engineOps, waiting, waiting]
  omega

/-! ### Meters of both sides -/

/-- **The engine.** A meter of the engine is one of both sides. -/
theorem draws_daemon {C : EngineRun → UInt64} {supply : EngineRun → ℕ}
    (h : Draws (EngineRun.step env) EngineRun.Measured C supply EngineOp.load) :
    Draws (next env fd) (fun w => w.daemon.Measured) (fun w => C w.daemon)
      (fun w => supply w.daemon + w.waiting) (fun op => 2 * op.load) :=
  h.pull (fun _ op hw => hw.step env op) (daemon_step env fd) (load_queue env fd)

/-- **The kernel.** Its counters, some of them together, are a meter of both sides. -/
theorem draws_kernel (q : Quantity) (cells : Finset (ℕ × Fin numApps)) :
    Draws (next env fd) (fun w => w.daemon.Measured) (fun w => w.kernel.sumOver q cells)
      (fun _ => 0) PipelineOp.load := by
  intro w op _
  have hsame (h : (w.next env fd op).kernel.appCounters = w.kernel.appCounters) :
      ∃ d, (w.next env fd op).kernel.sumOver q cells = w.kernel.sumOver q cells + UInt64.ofNat d ∧
        d + 0 ≤ 0 + op.load := by
    refine ⟨0, ?_, Nat.zero_le _⟩
    rw [Kernel.sumOver, h]
    exact (add_zero _).symm
  cases op with
  | packet p =>
    obtain ⟨d, hd, hsum⟩ := w.kernel.exists_sumOver_processPkt_eq q cells p
    refine ⟨d, hsum, ?_⟩
    show d + 0 ≤ 0 + (p.skb.len + 65536)
    omega
  | deliver a =>
    refine hsame ?_
    rw [next, step]
    split
    · exact (Kernel.foldl_receive_flowMap _ _).2
    · rfl
  | drained =>
    refine hsame ?_
    rcases step_drained_cases env fd w with heq | ⟨-, heq⟩ <;> rw [heq]
  | age now =>
    refine hsame ?_
    rcases step_age_cases env fd w now with heq | ⟨-, heq⟩ <;> rw [heq]
  | loop => exact hsame rfl

theorem measured_next (w : Pipeline) (op : PipelineOp) (hw : w.daemon.Measured) :
    (w.next env fd op).daemon.Measured := by
  rw [daemon_step]
  exact run_induction hw (fun _ op hw => hw.step env op) _

/-! ### Two readings -/

section Readings

variable (iface : Bytes) (ml dump : Bool) (ops ops' : List PipelineOp)

/-- The traffic of the two runs, one after the other, fits 64 bits: no counter can go round, not
even one that counts it three times. -/
def Fits (ops : List PipelineOp) : Prop := 3 * (ops.map PipelineOp.load).sum < 2 ^ 64

instance (ops : List PipelineOp) : Decidable (Fits ops) := inferInstanceAs (Decidable (_ < _))

variable {ops ops'} {C : EngineRun → UInt64} {supply : EngineRun → ℕ}

/-- **A counter of both sides.** What the engine and the kernel have counted together does not fall
from one reading to a later one. -/
theorem mergedReading_le (hfits : Fits (ops ++ ops'))
    (h : Draws (EngineRun.step env) EngineRun.Measured C supply EngineOp.load)
    (hC : C (EngineRun.start iface ml dump) = 0)
    (hsupply : supply (EngineRun.start iface ml dump) = 0) (q : Quantity)
    (cells : Finset (ℕ × Fin numApps)) :
    let w := run (next env fd) (start iface ml dump) ops
    let w' := run (next env fd) (start iface ml dump) (ops ++ ops')
    (C w.daemon + w.kernel.sumOver q cells).toNat ≤
      (C w'.daemon + w'.kernel.sumOver q cells).toNat := by
  intro w w'
  have hdraws := (draws_daemon env fd h).add (draws_kernel env fd q cells)
  have hload (op : PipelineOp) : 2 * op.load + op.load = 3 * op.load := by ring
  simp only [hload] at hdraws
  refine hdraws.toNat_le_run (measured_next env fd) (EngineRun.measured_start iface ml dump) ?_
    ops ops' ?_
  · have hkernel : (start iface ml dump).kernel.sumOver q cells = 0 :=
      Finset.sum_eq_zero fun x _ => by cases q <;> rfl
    have hdaemon : C (start iface ml dump).daemon = 0 := hC
    rw [hdaemon, hkernel]
    rfl
  · have hdaemon : supply (start iface ml dump).daemon = 0 := hsupply
    rw [hdaemon, List.sum_map_mul_left]
    exact (Nat.zero_add _).trans_lt hfits

/-- **Counters of the kernel.** -/
theorem kernelReading_le (hfits : Fits (ops ++ ops')) (q : Quantity)
    (cells : Finset (ℕ × Fin numApps)) :
    ((run (next env fd) (start iface ml dump) ops).kernel.sumOver q cells).toNat ≤
      ((run (next env fd) (start iface ml dump) (ops ++ ops')).kernel.sumOver q cells).toNat := by
  have hdraws := (draws_kernel env fd q cells).mono fun op : PipelineOp =>
    (Nat.le_mul_of_pos_left op.load (by norm_num : 0 < 3))
  refine hdraws.toNat_le_run (measured_next env fd) (EngineRun.measured_start iface ml dump) ?_
    ops ops' ?_
  · exact Finset.sum_eq_zero fun x _ => by cases q <;> rfl
  · rw [List.sum_map_mul_left]
    exact (Nat.zero_add _).trans_lt hfits

/-- **A counter of the engine.** -/
theorem reading_le (hfits : Fits (ops ++ ops'))
    (h : Draws (EngineRun.step env) EngineRun.Measured C supply EngineOp.load)
    (hC : C (EngineRun.start iface ml dump) = 0)
    (hsupply : supply (EngineRun.start iface ml dump) = 0) :
    (C (run (next env fd) (start iface ml dump) ops).daemon).toNat ≤
      (C (run (next env fd) (start iface ml dump) (ops ++ ops')).daemon).toNat := by
  have hmerged := mergedReading_le env fd iface ml dump hfits h hC hsupply .bytes ∅
  simp only [Kernel.sumOver, Finset.sum_empty, add_zero] at hmerged
  exact hmerged

end Readings

end Pipeline

end NdpiObserve
