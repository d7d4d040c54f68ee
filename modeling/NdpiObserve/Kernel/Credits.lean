import NdpiObserve.Kernel.ProcessPkt

/-!
# The credits of packets

What the packets of the fast path add to the counters of the applications on each CPU. The packet
with which a flow leaves CLASSIFYING adds the flow as well.

## Main definitions

* `PktOut.credit`: what a packet adds to the counters of an application on a CPU.
* `Kernel.isNewFlow`, `Kernel.creditStep`: the packet with which its flow leaves CLASSIFYING.

## Main results

* `Kernel.counters_run`: the counters are the sums of the credits.
-/

namespace NdpiObserve

open Machine

/-- What a packet adds to the bytes, packets and flows of an application on a CPU. -/
def PktOut.credit (o : PktOut) (isNewFlow : Bool) (cpu : ℕ) (i : Fin appCounterEntries) :
    UInt64 × UInt64 × UInt64 :=
  match o.path.app with
  | none => 0
  | some app =>
    if o.cpu = cpu ∧ app.toNat = i.val then (o.bytes, 1, if isNewFlow then 1 else 0) else 0

namespace Kernel

/-- The maps after a packet or a write. -/
def next (s : Kernel) (op : KernelOp) : Kernel := (s.step op).1

/-- The flow of the packet is stored and not decided. -/
def isOpen (s : Kernel) (k : FlowKey) : Bool :=
  (s.flowMap.lookup k).any fun fs => !fs.state.isTerminal

/-- The argument `is_new_flow` for a packet that is counted: its flow leaves CLASSIFYING. -/
def isNewFlow (s : Kernel) (o : PktOut) : Bool := s.isOpen o.key && o.path.app.isSome

/-- A step, with the packet and whether it counts its flow. -/
def creditStep (s : Kernel) (op : KernelOp) : Kernel × Option (PktOut × Bool) :=
  ((s.step op).1, (s.step op).2.map fun o => (o, s.isNewFlow o))

/-- The counters of an application on a CPU: bytes, packets and flows. -/
def counters (s : Kernel) (cpu : ℕ) (i : Fin appCounterEntries) : UInt64 × UInt64 × UInt64 :=
  ((s.appCounters cpu i).bytes, (s.appCounters cpu i).packets, (s.appCounters cpu i).flows)

theorem counters_updateAppCounter (s : Kernel) (cpu : ℕ) (app : UInt16) (bytes : UInt64)
    (isNewFlow : Bool) (cpu' : ℕ) (i : Fin appCounterEntries) :
    (updateAppCounter cpu app.toUInt32 bytes isNewFlow s).counters cpu' i =
      s.counters cpu' i +
        if cpu = cpu' ∧ app.toNat = i.val then (bytes, 1, if isNewFlow then 1 else 0) else 0 := by
  rw [updateAppCounter]
  split
  case isTrue h =>
    by_cases hcpu : cpu = cpu'
    · subst hcpu
      by_cases hi : app.toNat = i.val
      · obtain rfl : i = ⟨app.toUInt32.toNat, h⟩ := Fin.ext hi.symm
        cases isNewFlow <;> simp [counters]
      · have hne (hlt : app.toNat < appCounterEntries) : i ≠ ⟨app.toNat, hlt⟩ :=
          fun heq => hi (congrArg Fin.val heq).symm
        simp [counters, hi, hne]
    · simp [counters, hcpu, Function.update_of_ne (Ne.symm hcpu)]
  case isFalse h =>
    have hne : app.toNat ≠ i.val := fun heq => h (by
      rw [UInt16.toNat_toUInt32, heq]
      exact i.isLt)
    simp [hne]

theorem counters_processFlow (s : Kernel) (p : Pkt) (k : FlowKey) (evt : Option FlowEvent)
    (cpu : ℕ) (i : Fin appCounterEntries) :
    let o : PktOut := ⟨k, p.cpu, p.bytes, (processFlow s p k evt).2⟩
    (processFlow s p k evt).1.counters cpu i =
      s.counters cpu i + o.credit (s.isNewFlow o) cpu i := by
  intro o
  cases hfs : s.flowMap.lookup k with
  | none =>
    simp only [o, processFlow, hfs]
    exact (add_zero _).symm
  | some fs =>
    have hopen : s.isOpen k = !fs.state.isTerminal := by
      rw [isOpen, hfs]
      rfl
    have hnew (app : UInt16) :
        s.isNewFlow ⟨k, p.cpu, p.bytes, .counted app⟩ = !fs.state.isTerminal := by
      rw [isNewFlow, hopen]
      exact Bool.and_true _
    simp only [o, processFlow, hfs]
    split
    case isTrue hterm =>
      have hdone : fs.state.isTerminal = true := by
        simpa [FlowState.isTerminal, ObsFlowState.touch] using hterm
      rw [hnew, hdone]
      exact counters_updateAppCounter ..
    case isFalse hterm =>
      have hdone : fs.state.isTerminal = false := by
        simpa [FlowState.isTerminal, ObsFlowState.touch] using hterm
      split
      · rw [hnew, hdone]
        exact counters_updateAppCounter ..
      · split
        · rw [hnew, hdone]
          exact counters_updateAppCounter _ p.cpu 0 ..
        · exact (add_zero _).symm

/-- **The credits of a run.** The counters of an application on a CPU grow by the credits of the
packets. -/
theorem counters_run (s : Kernel) (ops : List KernelOp) (cpu : ℕ) (i : Fin appCounterEntries) :
    (run next s ops).counters cpu i = s.counters cpu i +
      ((runOut creditStep s ops).2.reduceOption.map fun o => o.1.credit o.2 cpu i).sum := by
  induction ops generalizing s with
  | nil => exact (add_zero _).symm
  | cons op ops ih =>
    have hstep : (s.next op).counters cpu i = s.counters cpu i +
        ((s.creditStep op).2.elim 0 fun o => o.1.credit o.2 cpu i) := by
      cases op with
      | verdict k app => exact (add_zero _).symm
      | packet p =>
        cases h : parsePkt p.skb with
        | none =>
          rw [creditStep, next, step, processPkt_of_none h]
          exact (add_zero _).symm
        | some r =>
          rw [creditStep, next, step, processPkt_of_some h]
          exact counters_processFlow ..
    rw [run_cons, ih, hstep, add_assoc, runOut]
    dsimp only
    cases (s.creditStep op).2 with
    | none => simp [List.reduceOption, creditStep, next]
    | some o => simp [List.reduceOption, creditStep, next]

end Kernel

end NdpiObserve
