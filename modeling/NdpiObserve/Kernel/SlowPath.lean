import NdpiObserve.Kernel.Credits

/-!
# The slow path

How many packets of a flow the kernel program copies to the ring buffer, over any run and from any
contents of its maps. The bound rests on the entry of the flow: as long as it is stored, the
packet counter of the entry moves towards the threshold, and from the first packet that is counted
in the kernel on the entry is decided for good. A flow that is new when the flow map is full is
never stored, and every packet of it takes the slow path.

## Main definitions

* `pathsOf`: the paths of the packets of one flow, in order.
* `slowLeft`: how many more packets of a flow may take the slow path.
* `StoresFlow`: a packet of the flow does not find the flow missing and the flow map full.

## Main results

* `Kernel.slow_path_bounded_run`: the bound, and what becomes of the later packets.
* `Kernel.counted_run`: the counters of the applications count the packets of the fast path.
* `Kernel.unstored_flow_unbounded`: a full flow map breaks the bound.
-/

namespace NdpiObserve

open Machine

/-! ### Budgets -/

/-- The number of further packets that the entry of a flow allows on the slow path. -/
def slowLeft : Option ObsFlowState → ℕ
  | none => flowMaxClassifyPkts.toNat - 1
  | some fs =>
    if fs.state.isTerminal then 0 else flowMaxClassifyPkts.toNat - (fs.pktCount + 1).toNat

theorem slowLeft_le (old : Option ObsFlowState) : slowLeft old ≤ flowMaxClassifyPkts.toNat := by
  cases old with
  | none => exact Nat.sub_le _ _
  | some fs =>
    rw [slowLeft]
    split
    · exact Nat.zero_le _
    · exact Nat.sub_le _ _

theorem slowLeft_of_isTerminal {fs : ObsFlowState} (h : fs.state.isTerminal = true) :
    slowLeft (some fs) = 0 :=
  if_pos h

/-- The packets that the entry of a flow has counted. -/
def packetsOf (old : Option ObsFlowState) : UInt64 := old.elim 0 ObsFlowState.packets

section FlowStep

variable {p : Pkt} {evt : Option FlowEvent} {full : Prop} {verdict : Option UInt16}
  {old new : Option ObsFlowState} {path : PktPath}

/-- A packet of a stored flow either uses up the budget of the slow path or closes it. -/
theorem FlowStep.slowLeft_lt_or (h : FlowStep p evt full verdict old path new)
    (hstored : old = none → ¬full) :
    (path = .ring evt ∧ slowLeft new < slowLeft old) ∨
      ∃ app, path = .counted app ∧ slowLeft new = 0 := by
  cases h with
  | first => exact .inl ⟨rfl, (by decide : 6 < 7)⟩
  | unstored hfull => exact absurd hfull (hstored rfl)
  | decided fs hterm => exact .inr ⟨fs.appId, rfl, slowLeft_of_isTerminal hterm⟩
  | learned fs v => exact .inr ⟨v, rfl, slowLeft_of_isTerminal rfl⟩
  | gaveUp fs => exact .inr ⟨0, rfl, slowLeft_of_isTerminal rfl⟩
  | pending fs hopen hv hmore =>
    refine .inl ⟨rfl, ?_⟩
    have hlt : (fs.pktCount + 1).toNat < 8 := UInt8.lt_iff_toNat_lt.mp hmore
    have hnext : (fs.pktCount + 1 + 1).toNat = (fs.pktCount + 1).toNat + 1 := by
      rw [UInt8.toNat_add, UInt8.toNat_one]
      omega
    have height : flowMaxClassifyPkts.toNat = 8 := rfl
    simp only [slowLeft, ObsFlowState.touch, hopen, Bool.false_eq_true, if_false, hnext, height]
    omega

/-- The event of a packet's path is the packet's. -/
theorem FlowStep.event_eq_or (h : FlowStep p evt full verdict old path new) :
    path.event = none ∨ path.event = evt := by
  cases h with
  | first | unstored | pending => exact .inr rfl
  | decided | learned | gaveUp => exact .inl rfl

theorem FlowStep.packetsOf_eq (h : FlowStep p evt full verdict old path new)
    (hstored : old = none → ¬full) : packetsOf new = packetsOf old + 1 := by
  cases h with
  | unstored hfull => exact absurd hfull (hstored rfl)
  | first | decided | learned | gaveUp | pending => rfl

end FlowStep

/-! ### Runs -/

/-- The paths of the packets of the flow `k`. -/
def pathsOf (k : FlowKey) (outs : List (Option PktOut)) : List PktPath :=
  (outs.reduceOption.filter fun o => o.key = k).map PktOut.path

namespace Kernel

/-- If the packet is one of the flow `k`, that flow is stored, or the flow map has room for it. -/
def StoresFlow (k : FlowKey) (s : Kernel) : KernelOp → Prop
  | .packet p => (parsePkt p.skb).map Prod.fst = some k → s.flowMap.lookup k = none →
      ¬s.flowMap.IsFull
  | .verdict _ _ => True

instance (k : FlowKey) (s : Kernel) (op : KernelOp) : Decidable (StoresFlow k s op) :=
  match op with
  | .packet p => inferInstanceAs (Decidable ((parsePkt p.skb).map Prod.fst = some k →
      s.flowMap.lookup k = none → ¬s.flowMap.IsFull))
  | .verdict _ _ => isTrue trivial

/-- What a step does to a flow: nothing, or what `FlowStep` says of a packet of the flow. -/
theorem step_flow (s : Kernel) (op : KernelOp) (k : FlowKey) :
    (pathsOf k [(s.step op).2] = [] ∧ (s.next op).flowMap.lookup k = s.flowMap.lookup k) ∨
    ∃ p tot path, op = .packet p ∧ parsePkt p.skb = some (k, tot) ∧
      pathsOf k [(s.step op).2] = [path] ∧
      FlowStep p (p.event k tot) s.flowMap.IsFull (s.verdictMap.lookup k) (s.flowMap.lookup k)
        path ((s.next op).flowMap.lookup k) := by
  cases op with
  | verdict k' app => exact .inl ⟨rfl, rfl⟩
  | packet p =>
    cases h : parsePkt p.skb with
    | none =>
      rw [next, step, processPkt_of_none h]
      exact .inl ⟨rfl, rfl⟩
    | some r =>
      obtain ⟨k', tot⟩ := r
      rw [next, step, processPkt_of_some h]
      by_cases hk : k' = k
      · subst hk
        exact .inr ⟨p, tot, _, rfl, h, by simp [pathsOf, List.reduceOption],
          processFlow_flowStep s p k' _⟩
      · exact .inl ⟨by simp [pathsOf, List.reduceOption, hk],
          processFlow_lookup_of_ne (Ne.symm hk) _⟩

theorem pathsOf_cons (k : FlowKey) (o : Option PktOut) (outs : List (Option PktOut)) :
    pathsOf k (o :: outs) = pathsOf k [o] ++ pathsOf k outs := by
  cases o <;> simp [pathsOf, List.reduceOption, List.filter_cons]
  split <;> rfl

/-- The paths of a flow whose entry allows `slowLeft` more packets on the slow path. -/
theorem paths_run {k : FlowKey} {s : Kernel} {ops : List KernelOp}
    (h : Along next (StoresFlow k) s ops) :
    ∃ (evts : List (Option FlowEvent)) (apps : List UInt16),
      pathsOf k (runOut step s ops).2 = evts.map .ring ++ apps.map .counted ∧
      evts.length ≤ slowLeft (s.flowMap.lookup k) ∧
      packetsOf ((runOut step s ops).1.flowMap.lookup k) = packetsOf (s.flowMap.lookup k) +
        UInt64.ofNat (pathsOf k (runOut step s ops).2).length := by
  induction ops generalizing s with
  | nil => exact ⟨[], [], rfl, Nat.zero_le _, (UInt64.add_zero _).symm⟩
  | cons op ops ih =>
    obtain ⟨evts, apps, hpaths, hlen, hcount⟩ := ih h.2
    change packetsOf ((runOut step s (op :: ops)).1.flowMap.lookup k) = _ at hcount
    rw [runOut]
    dsimp only
    rw [pathsOf_cons]
    change pathsOf k (runOut step (s.step op).1 ops).2 = _ at hpaths
    rcases s.step_flow op k with ⟨hnone, hlookup⟩ | ⟨p, tot, path, rfl, hparse, hout, hflow⟩
    · rw [hnone, List.nil_append]
      rw [hlookup] at hlen hcount
      exact ⟨evts, apps, hpaths, hlen, hcount⟩
    · have hstored : s.flowMap.lookup k = none → ¬s.flowMap.IsFull := h.1 (by rw [hparse]; rfl)
      rw [hout, List.singleton_append, List.length_cons]
      have hpackets : packetsOf ((runOut step s (.packet p :: ops)).1.flowMap.lookup k) =
          packetsOf (s.flowMap.lookup k) +
            UInt64.ofNat ((pathsOf k (runOut step (s.step (.packet p)).1 ops).2).length + 1) := by
        rw [hcount, hflow.packetsOf_eq hstored, UInt64.ofNat_add, UInt64.add_assoc,
          UInt64.add_comm 1]
        rfl
      rcases hflow.slowLeft_lt_or hstored with ⟨rfl, hlt⟩ | ⟨app, rfl, hzero⟩
      · refine ⟨p.event k tot :: evts, apps, by rw [hpaths]; rfl, ?_, hpackets⟩
        rw [List.length_cons]
        omega
      · -- the flow is decided, so none of its later packets takes the slow path
        rw [hzero, Nat.le_zero, List.length_eq_zero_iff] at hlen
        subst hlen
        exact ⟨[], app :: apps, by rw [hpaths]; rfl, Nat.zero_le _, hpackets⟩

/-! ### Counters -/

/-- The bytes and packets counted for an application on a CPU. -/
def counted (s : Kernel) (cpu : ℕ) (i : Fin appCounterEntries) : UInt64 × UInt64 :=
  ((s.appCounters cpu i).bytes, (s.appCounters cpu i).packets)

end Kernel

/-- What a packet adds to the bytes and packets of an application on a CPU. -/
def PktOut.share (o : PktOut) (cpu : ℕ) (i : Fin appCounterEntries) : UInt64 × UInt64 :=
  match o.path.app with
  | none => 0
  | some app => if o.cpu = cpu ∧ app.toNat = i.val then (o.bytes, 1) else 0

/-- A credit has the share of its packet, whether it counts a flow or not. -/
theorem PktOut.share_eq (o : PktOut) (isNewFlow : Bool) (cpu : ℕ) (i : Fin appCounterEntries) :
    o.share cpu i = ((o.credit isNewFlow cpu i).1, (o.credit isNewFlow cpu i).2.1) := by
  rw [share, credit]
  cases o.path.app with
  | none => rfl
  | some app =>
    dsimp only
    split <;> rfl

namespace Kernel

theorem counted_processFlow (s : Kernel) (p : Pkt) (k : FlowKey) (evt : Option FlowEvent) (cpu : ℕ)
    (i : Fin appCounterEntries) :
    (processFlow s p k evt).1.counted cpu i = s.counted cpu i +
      PktOut.share ⟨k, p.cpu, p.bytes, (processFlow s p k evt).2⟩ cpu i := by
  have hcredit := counters_processFlow s p k evt cpu i
  dsimp only at hcredit
  rw [PktOut.share_eq _ (s.isNewFlow ⟨k, p.cpu, p.bytes, (processFlow s p k evt).2⟩)]
  exact congrArg (fun x => (x.1, x.2.1)) hcredit

/-- The packets of a run, without their credits. -/
theorem reduceOption_step (s : Kernel) (ops : List KernelOp) :
    (runOut step s ops).2.reduceOption =
      (runOut creditStep s ops).2.reduceOption.map Prod.fst := by
  have hstep (s : Kernel) (op : KernelOp) :
      s.step op = ((s.creditStep op).1, (s.creditStep op).2.map Prod.fst) := by
    rw [creditStep, Option.map_map]
    exact Prod.ext rfl Option.map_id'.symm
  rw [runOut_map hstep, List.reduceOption_map]

/-- **The fast path counts.** The counters of the applications on each CPU grow by the packets
that were counted under them. -/
theorem counted_run (s : Kernel) (ops : List KernelOp) (cpu : ℕ) (i : Fin appCounterEntries) :
    (runOut step s ops).1.counted cpu i = s.counted cpu i +
      ((runOut step s ops).2.reduceOption.map fun o => o.share cpu i).sum := by
  -- bytes and packets are the first two parts of the credits
  let part : UInt64 × UInt64 × UInt64 →+ UInt64 × UInt64 :=
    (AddMonoidHom.fst _ _).prod ((AddMonoidHom.fst _ _).comp (AddMonoidHom.snd _ _))
  have hshares : (fun o : PktOut × Bool => o.1.share cpu i) =
      part ∘ fun o => o.1.credit o.2 cpu i :=
    funext fun o => o.1.share_eq o.2 cpu i
  have hrun := congrArg part (counters_run s ops cpu i)
  rw [map_add, map_list_sum, List.map_map, ← hshares] at hrun
  rw [reduceOption_step, List.map_map, fst_runOut]
  exact hrun

/-- **Bounded slow path.** In a run in which no packet of a flow finds the flow missing and the
flow map full, at most `FLOW_MAX_CLASSIFY_PKTS` packets of the flow take the slow path, before all
others; those are counted in the kernel, under an application and, like every packet of the flow,
in the entry of the flow. -/
theorem slow_path_bounded_run (k : FlowKey) (s : Kernel) (ops : List KernelOp)
    (h : Along next (StoresFlow k) s ops) :
    ∃ (evts : List (Option FlowEvent)) (apps : List UInt16),
      pathsOf k (runOut step s ops).2 = evts.map .ring ++ apps.map .counted ∧
      evts.length ≤ flowMaxClassifyPkts.toNat ∧
      packetsOf ((runOut step s ops).1.flowMap.lookup k) = packetsOf (s.flowMap.lookup k) +
        UInt64.ofNat (pathsOf k (runOut step s ops).2).length ∧
      ∀ cpu i, (runOut step s ops).1.counted cpu i = s.counted cpu i +
        ((runOut step s ops).2.reduceOption.map fun o => o.share cpu i).sum := by
  obtain ⟨evts, apps, hpaths, hlen, hcount⟩ := paths_run h
  exact ⟨evts, apps, hpaths, hlen.trans (slowLeft_le _), hcount, s.counted_run ops⟩

/-- The bound at work: a flow that starts with empty maps. -/
theorem slow_path_bounded_run_start : ∃ (evts : List (Option FlowEvent)) (apps : List UInt16),
    pathsOf udpKey (runOut step {} (List.replicate 9 (.packet udpPkt))).2 =
      evts.map .ring ++ apps.map .counted ∧ evts.length ≤ 8 := by
  have hstores : Along next (StoresFlow udpKey) {} (List.replicate 9 (.packet udpPkt)) := by
    decide +kernel
  obtain ⟨evts, apps, hpaths, hlen, -⟩ := slow_path_bounded_run udpKey {} _ hstores
  exact ⟨evts, apps, hpaths, hlen⟩

/-! ### Full flow maps -/

/-- Packets of a flow that is missing from a full flow map change nothing and take the slow
path. -/
theorem unstored_run {s : Kernel} {p : Pkt} {k : FlowKey} {tot : UInt16}
    (hparse : parsePkt p.skb = some (k, tot)) (hnone : s.flowMap.lookup k = none)
    (hfull : s.flowMap.IsFull) (n : ℕ) :
    pathsOf k (runOut step s (List.replicate n (.packet p))).2 =
      List.replicate n (.ring (p.event k tot)) := by
  have hnew : s.flowMap.insertNew k p.newFs = none :=
    BoundedMap.insertNew_eq_none_iff.mpr (.inr hfull)
  have hstep : s.step (.packet p) =
      (s, some ⟨k, p.cpu, p.bytes, .ring (p.event k tot)⟩) := by
    rw [step, processPkt_of_some hparse, processFlow, hnone]
    dsimp only
    rw [hnew, Option.getD_none]
  induction n with
  | zero => rfl
  | succ n ih =>
    rw [List.replicate_succ, runOut]
    dsimp only
    rw [hstep, pathsOf_cons, ih, List.replicate_succ]
    simp [pathsOf, List.reduceOption]

/-- The keys of `mapEntries` flows other than `udpKey`. -/
def otherKey (i : ℕ) : FlowKey :=
  { srcIp := UInt32.ofNat i, dstIp := 0, srcPort := 0, dstPort := 0, proto := ipprotoTcp }

theorem nodup_otherKeys : ((List.range mapEntries).map otherKey).Nodup := by
  refine List.Nodup.map_on (fun i hi j hj h => ?_) List.nodup_range
  have heq := congrArg (fun k : FlowKey => k.srcIp.toNat) h
  simp only [otherKey, UInt32.toNat_ofNat', List.mem_range, mapEntries] at heq hi hj
  omega

/-- Nine packets of a new flow are submitted when the flow map is full. -/
theorem unstored_flow_unbounded : ¬ ∀ (k : FlowKey) (s : Kernel) (ops : List KernelOp),
    (pathsOf k (runOut step s ops).2).countP (fun path => path.event.isSome) ≤
      flowMaxClassifyPkts.toNat := by
  intro h
  let s : Kernel := { flowMap := .filled otherKey udpPkt.newFs nodup_otherKeys }
  have hnone : s.flowMap.lookup udpKey = none :=
    BoundedMap.lookup_filled otherKey udpPkt.newFs nodup_otherKeys fun i _ hi =>
      absurd (congrArg FlowKey.dstIp hi) (by
        change ¬(0 : UInt32) = udpKey.dstIp
        decide)
  have hfull : s.flowMap.IsFull := BoundedMap.isFull_filled otherKey udpPkt.newFs nodup_otherKeys
  have hpaths := unstored_run parsePkt_udpPkt hnone hfull 9
  have hle := h udpKey s (List.replicate 9 (.packet udpPkt))
  rw [hpaths] at hle
  exact absurd hle (by decide)

end Kernel

end NdpiObserve
