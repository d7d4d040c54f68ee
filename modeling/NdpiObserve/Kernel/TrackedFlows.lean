import NdpiObserve.Kernel.SlowPath

/-!
# The flows that the kernel tracks

Nothing deletes an entry of the two hash maps of the kernel program, so what they hold is decided
by the order in which keys arrive: the first `mapEntries` different ones stay, with everything that
came for them, and no later key is ever stored. For `flow_map` the keys are the flows of the
packets, and an entry is the traffic of its flow; a flow that comes too late is never classified in
the kernel, and all of its packets go to the ring buffer. For `verdict_map` the keys are those
that the daemon writes, and a verdict that comes too late is lost.

## Main definitions

* `flowsIn`, `packetsIn`: the flow of every packet of a run, and the packets of one flow.
* `ObsFlowState.Counts`: an entry is the traffic of a list of packets.
* `verdictsIn`, `verdictOf`: the keys of the daemon's writes, and the last verdict of a flow.

## Main results

* `Kernel.tracked_flows_run`: what `flow_map` holds after any run, and the paths of the packets.
* `Kernel.kept_verdicts_run`: what `verdict_map` holds after any run.
-/

namespace NdpiObserve

open Machine BoundedMap

/-! ### Packets and writes of a run -/

/-- The flow of a packet, when the program accepts it. -/
def KernelOp.flow : KernelOp → Option FlowKey
  | .packet p => (parsePkt p.skb).map Prod.fst
  | .verdict _ _ => none

/-- The packet of an operation, when it is one of the flow `k`. -/
def KernelOp.packetOf (k : FlowKey) : KernelOp → Option Pkt
  | .packet p => if (parsePkt p.skb).map Prod.fst = some k then some p else none
  | .verdict _ _ => none

/-- The verdict that is written. -/
def KernelOp.write : KernelOp → Option (FlowKey × UInt16)
  | .packet _ => none
  | .verdict k app => some (k, app)

/-- The flows of the packets, one for every packet. -/
def flowsIn (ops : List KernelOp) : List FlowKey := ops.filterMap KernelOp.flow

/-- The packets of the flow `k`. -/
def packetsIn (k : FlowKey) (ops : List KernelOp) : List Pkt := ops.filterMap (·.packetOf k)

/-- The flows of the verdicts, one for every write. -/
def verdictsIn (ops : List KernelOp) : List FlowKey := (ops.filterMap KernelOp.write).map Prod.fst

/-- The last verdict that is written for the flow `k`. -/
def verdictOf (k : FlowKey) (ops : List KernelOp) : Option UInt16 :=
  (((ops.filterMap KernelOp.write).filter fun w => w.1 = k).getLast?).map Prod.snd

theorem flowsIn_append (ops ops' : List KernelOp) : flowsIn (ops ++ ops') =
    flowsIn ops ++ flowsIn ops' := List.filterMap_append

theorem packetsIn_append (k : FlowKey) (ops ops' : List KernelOp) :
    packetsIn k (ops ++ ops') = packetsIn k ops ++ packetsIn k ops' := List.filterMap_append

theorem KernelOp.packetOf_eq_none_iff {k : FlowKey} {op : KernelOp} :
    op.packetOf k = none ↔ op.flow ≠ some k := by
  cases op with
  | verdict k' app => exact iff_of_true rfl (Option.some_ne_none k).symm
  | packet p => rw [packetOf, ite_eq_right_iff, flow, imp_iff_not (Option.some_ne_none p)]

theorem packetsIn_eq_nil_iff {k : FlowKey} {ops : List KernelOp} :
    packetsIn k ops = [] ↔ k ∉ flowsIn ops := by
  simp only [packetsIn, List.filterMap_eq_nil_iff, KernelOp.packetOf_eq_none_iff, flowsIn,
    List.mem_filterMap, not_exists, not_and]

theorem packetsIn_singleton {k : FlowKey} {p : Pkt} (hflow : (KernelOp.packet p).flow = some k) :
    packetsIn k [.packet p] = [p] := by
  have hone : (KernelOp.packet p).packetOf k = some p := if_pos hflow
  exact List.filterMap_cons_some hone

theorem packetsIn_singleton_of_ne {k : FlowKey} {op : KernelOp} (hflow : op.flow ≠ some k) :
    packetsIn k [op] = [] :=
  packetsIn_eq_nil_iff.mpr (by simpa [flowsIn] using hflow)

/-! ### Entries -/

/-- The entry is the traffic of the packets. -/
structure ObsFlowState.Counts (fs : ObsFlowState) (pkts : List Pkt) : Prop where
  bytes_eq : fs.bytes = (pkts.map Pkt.bytes).sum
  packets_eq : fs.packets = UInt64.ofNat pkts.length
  lastSeen_eq : pkts.getLast?.map Pkt.ts = some fs.lastSeenNs

theorem counts_newFs (p : Pkt) : p.newFs.Counts [p] :=
  ⟨(add_zero p.bytes).symm, rfl, rfl⟩

/-- One more packet. -/
theorem ObsFlowState.Counts.touch {fs new : ObsFlowState} {pkts : List Pkt} {p : Pkt}
    (h : fs.Counts pkts) (hbytes : new.bytes = fs.bytes + p.bytes)
    (hpackets : new.packets = fs.packets + 1) (hlast : new.lastSeenNs = p.ts) :
    new.Counts (pkts ++ [p]) where
  bytes_eq := by
    rw [hbytes, h.bytes_eq, List.map_append, List.sum_append, List.map_singleton,
      List.sum_singleton]
  packets_eq := by
    rw [hpackets, h.packets_eq, List.length_append, List.length_singleton, UInt64.ofNat_add]
    rfl
  lastSeen_eq := by rw [List.getLast?_concat, hlast, Option.map_some]

section FlowStep

variable {p : Pkt} {evt : Option FlowEvent} {full : Prop} {verdict : Option UInt16}
  {old new : Option ObsFlowState} {path : PktPath}

/-- A packet is added to the entry of its flow. -/
theorem FlowStep.counts (h : FlowStep p evt full verdict old path new) {pkts : List Pkt}
    (hold : ∀ fs, old = some fs → fs.Counts pkts) (hnew : old = none → ¬full → pkts = []) :
    ∀ fs, new = some fs → fs.Counts (pkts ++ [p]) := by
  rintro fs rfl
  cases h with
  | first hroom =>
    rw [hnew rfl hroom]
    exact counts_newFs p
  | decided fs | learned fs | gaveUp fs | pending fs =>
    exact (hold fs rfl).touch rfl rfl rfl

/-- After a packet, a flow has an entry if it had one or there was room for it. -/
theorem FlowStep.isSome_iff (h : FlowStep p evt full verdict old path new) :
    new.isSome = true ↔ old.isSome = true ∨ ¬full := by
  cases h with
  | first hroom => exact iff_of_true rfl (.inr hroom)
  | unstored hfull =>
    exact iff_of_false Bool.false_ne_true (not_or_intro Bool.false_ne_true (not_not_intro hfull))
  | decided | learned | gaveUp | pending => exact iff_of_true rfl (.inl rfl)

/-- A packet of a flow without an entry goes to the ring buffer. -/
theorem FlowStep.path_eq_ring (h : FlowStep p evt full verdict none path new) :
    path = .ring evt := by
  cases h with
  | first | unstored => rfl

end FlowStep

/-! ### The flow map -/

namespace Kernel

/-- What a step does to `flow_map` as a whole, and which path it shows: none, or that of a packet,
which is what `FlowStep` says of its flow. -/
theorem next_cases (s : Kernel) (op : KernelOp) :
    (op.flow = none ∧ (s.next op).flowMap = s.flowMap ∧ ∀ k, pathsOf k [(s.step op).2] = []) ∨
    ∃ p k tot path, op = .packet p ∧ op.flow = some k ∧ pathsOf k [(s.step op).2] = [path] ∧
      FlowStep p (p.event k tot) s.flowMap.IsFull (s.verdictMap.lookup k) (s.flowMap.lookup k)
        path ((s.next op).flowMap.lookup k) ∧
      ∀ k' ≠ k, (s.next op).flowMap.lookup k' = s.flowMap.lookup k' ∧
        pathsOf k' [(s.step op).2] = [] := by
  cases op with
  | verdict k app => exact .inl ⟨rfl, rfl, fun _ => rfl⟩
  | packet p =>
    rw [next, step, KernelOp.flow]
    cases h : parsePkt p.skb with
    | none =>
      rw [processPkt_of_none h]
      exact .inl ⟨rfl, rfl, fun _ => rfl⟩
    | some r =>
      obtain ⟨k, tot⟩ := r
      rw [processPkt_of_some h]
      refine .inr ⟨p, k, tot, _, rfl, rfl, ?_, processFlow_flowStep s p k _, fun k' hk' =>
        ⟨processFlow_lookup_of_ne hk' _, ?_⟩⟩
      · simp [pathsOf, List.reduceOption]
      · simp [pathsOf, List.reduceOption, Ne.symm hk']

/-- **One step.** Every packet offers its flow to `flow_map`. -/
theorem holds_next {s : Kernel} {l : List FlowKey} (h : s.flowMap.Holds l) (op : KernelOp) :
    (s.next op).flowMap.Holds (l ++ op.flow.toList) := by
  rcases s.next_cases op with ⟨hflow, hsame, -⟩ | ⟨p, k, tot, path, -, hflow, -, hstep, hne⟩
  · rw [hflow, hsame, Option.toList_none, List.append_nil]
    exact h
  · rw [hflow, Option.toList_some]
    exact h.offer hstep.isSome_iff fun k' hk' => by rw [(hne k' hk').1]

theorem flowsIn_concat (ops : List KernelOp) (op : KernelOp) :
    flowsIn (ops ++ [op]) = flowsIn ops ++ op.flow.toList := by
  rw [flowsIn_append]
  cases hflow : op.flow <;> simp [flowsIn, hflow]

/-- `flow_map` holds the first flows of a run. -/
theorem holds_run (ops : List KernelOp) : (run next {} ops).flowMap.Holds (flowsIn ops) := by
  induction ops using List.reverseRecOn with
  | nil => exact holds_empty
  | append_singleton ops op ih =>
    rw [run_concat, flowsIn_concat]
    exact holds_next ih op

/-- The entry of a flow is its traffic. -/
theorem counts_run (k : FlowKey) (ops : List KernelOp) {fs : ObsFlowState}
    (hfs : (run next {} ops).flowMap.lookup k = some fs) : fs.Counts (packetsIn k ops) := by
  induction ops using List.reverseRecOn generalizing fs with
  | nil => rw [run_nil, lookup_empty] at hfs; cases hfs
  | append_singleton ops op ih =>
    have hholds := holds_run ops
    rw [run_concat] at hfs
    rw [packetsIn_append]
    generalize run next {} ops = s at *
    rcases s.next_cases op with
      ⟨hflow, hsame, -⟩ | ⟨p, k', tot, path, rfl, hflow, -, hstep, hne⟩
    · rw [packetsIn_singleton_of_ne (by rw [hflow]; exact (Option.some_ne_none k).symm),
        List.append_nil]
      exact ih (hsame ▸ hfs)
    · by_cases hk : k = k'
      · subst hk
        rw [packetsIn_singleton hflow]
        refine hstep.counts (fun fs => ih) (fun hold hroom => ?_) fs hfs
        -- with room left, a flow without an entry has had no packet
        rw [packetsIn_eq_nil_iff, ← hholds.isSome_iff hroom, hold]
        exact Bool.false_ne_true
      · rw [packetsIn_singleton_of_ne (by rw [hflow]; exact fun h => hk (Option.some.inj h).symm),
          List.append_nil]
        exact ih ((hne k hk).1 ▸ hfs)

/-- A flow that has an entry in the end, or would get one, finds room in every step. -/
theorem along_storesFlow (k : FlowKey) (ops : List KernelOp)
    (h : ((run next {} ops).flowMap.lookup k).isSome = true ∨ ¬(run next {} ops).flowMap.IsFull) :
    Along next (StoresFlow k) {} ops := by
  induction ops using List.reverseRecOn with
  | nil => trivial
  | append_singleton ops op ih =>
    have hbefore : ((run next {} ops).flowMap.lookup k).isSome = true ∨
        ¬(run next {} ops).flowMap.IsFull := by
      by_contra hlate
      rw [not_or, not_not] at hlate
      have hnext := holds_run (ops ++ [op])
      rw [flowsIn_append] at hnext
      obtain ⟨hfull, hsame⟩ := (holds_run ops).of_isFull hlate.2 hnext
      rcases h with h | h
      · exact hlate.1 ((hsame k).mp h)
      · exact h hfull
    refine along_append.mpr ⟨ih hbefore, ?_, trivial⟩
    cases op with
    | verdict k' app => trivial
    | packet p =>
      intro _ hnone
      rw [hnone] at hbefore
      exact hbefore.resolve_left Bool.false_ne_true

/-- The packets of a flow are the paths of the flow. -/
theorem length_pathsOf (k : FlowKey) (s : Kernel) (ops : List KernelOp) :
    (pathsOf k (runOut step s ops).2).length = (packetsIn k ops).length := by
  induction ops generalizing s with
  | nil => rfl
  | cons op ops ih =>
    rw [runOut, ← List.singleton_append (l := ops), packetsIn_append, List.length_append, ← ih]
    dsimp only
    rw [pathsOf_cons, List.length_append]
    refine congrArg (· + _) ?_
    rcases s.next_cases op with
      ⟨hflow, -, hnone⟩ | ⟨p, k', tot, path, rfl, hflow, hone, -, hne⟩
    · rw [hnone, packetsIn_singleton_of_ne (by rw [hflow]; exact (Option.some_ne_none k).symm)]
      rfl
    · by_cases hk : k = k'
      · subst hk
        rw [hone, packetsIn_singleton hflow]
        rfl
      · rw [(hne k hk).2, packetsIn_singleton_of_ne
          (by rw [hflow]; exact fun h => hk (Option.some.inj h).symm)]
        rfl

theorem pathsOf_append (k : FlowKey) (outs outs' : List (Option PktOut)) :
    pathsOf k (outs ++ outs') = pathsOf k outs ++ pathsOf k outs' := by
  rw [pathsOf, List.reduceOption_append, List.filter_append, List.map_append]
  rfl

/-- All packets of a flow that never gets an entry go to the ring buffer. -/
theorem paths_of_untracked (k : FlowKey) (ops : List KernelOp)
    (h : (run next {} ops).flowMap.lookup k = none) :
    ∃ evts : List (Option FlowEvent), pathsOf k (runOut step {} ops).2 = evts.map .ring := by
  induction ops using List.reverseRecOn with
  | nil => exact ⟨[], rfl⟩
  | append_singleton ops op ih =>
    rw [run_concat] at h
    rw [runOut_append, pathsOf_append, fst_runOut]
    change ∃ evts, _ ++ pathsOf k [((run next {} ops).step op).2] = _
    generalize run next {} ops = s at *
    rcases s.step_flow op k with ⟨hnone, hlookup⟩ | ⟨p, tot, path, rfl, hparse, hout, hflow⟩
    · obtain ⟨evts, hevts⟩ := ih (hlookup ▸ h)
      exact ⟨evts, by rw [hevts, hnone, List.append_nil]⟩
    · have hold : s.flowMap.lookup k = none := by
        rw [← Option.not_isSome_iff_eq_none]
        intro hsome
        rw [← Option.not_isSome_iff_eq_none] at h
        exact h (hflow.isSome_iff.mpr (.inl hsome))
      obtain ⟨evts, hevts⟩ := ih hold
      rw [hold] at hflow
      refine ⟨evts ++ [p.event k tot], ?_⟩
      rw [hevts, hout, hflow.path_eq_ring, List.map_append, List.map_singleton]

/-- **Tracked flows.** After any run `flow_map` holds the first `mapEntries` different flows of the
packets: the entry of such a flow is the traffic of all of its packets, the first of them, less
than `flowMaxClassifyPkts`, went to the ring buffer, and the others were counted in the kernel. No
other flow has an entry, and every packet of it went to the ring buffer. -/
theorem tracked_flows_run (k : FlowKey) (ops : List KernelOp) :
    let s := run next {} ops
    let paths := pathsOf k (runOut step {} ops).2
    paths.length = (packetsIn k ops).length ∧
    (k ∈ firstKeys mapEntries (flowsIn ops) →
      (∃ fs, s.flowMap.lookup k = some fs ∧ fs.Counts (packetsIn k ops)) ∧
      ∃ (evts : List (Option FlowEvent)) (apps : List UInt16),
        paths = evts.map .ring ++ apps.map .counted ∧
        evts.length < flowMaxClassifyPkts.toNat) ∧
    (k ∉ firstKeys mapEntries (flowsIn ops) → s.flowMap.lookup k = none ∧
      ∃ evts : List (Option FlowEvent), paths = evts.map .ring) := by
  intro s paths
  have hholds := holds_run ops k
  refine ⟨length_pathsOf k {} ops, fun hk => ?_, fun hk => ?_⟩
  · obtain ⟨fs, hfs⟩ := Option.isSome_iff_exists.mp (hholds.mpr hk)
    obtain ⟨evts, apps, hpaths, hlen, -⟩ :=
      paths_run (along_storesFlow k ops (.inl (hholds.mpr hk)))
    have hleft : slowLeft none < flowMaxClassifyPkts.toNat := by decide
    exact ⟨⟨fs, hfs, counts_run k ops hfs⟩, evts, apps, hpaths, hlen.trans_lt hleft⟩
  · have hnone : s.flowMap.lookup k = none :=
      Option.not_isSome_iff_eq_none.mp fun h => hk (hholds.mp h)
    exact ⟨hnone, paths_of_untracked k ops hnone⟩

/-! ### The verdict map -/

/-- What a step does to `verdict_map`: nothing, or a write that is tried. -/
theorem next_verdictMap_cases (s : Kernel) (op : KernelOp) :
    (op.write = none ∧ (s.next op).verdictMap = s.verdictMap) ∨
    ∃ k app, op = .verdict k app ∧
      (s.next op).verdictMap = (s.verdictMap.update k app).getD s.verdictMap := by
  cases op with
  | verdict k app => exact .inr ⟨k, app, rfl, rfl⟩
  | packet p =>
    refine .inl ⟨rfl, ?_⟩
    rw [next, step]
    cases h : parsePkt p.skb with
    | none => rw [processPkt_of_none h]
    | some r => rw [processPkt_of_some h, processFlow_verdictMap]

theorem verdictsIn_concat_of_none {op : KernelOp} (h : op.write = none) (ops : List KernelOp) :
    verdictsIn (ops ++ [op]) = verdictsIn ops := by
  simp [verdictsIn, h]

/-- `verdict_map` holds the first flows that are written. -/
theorem holds_verdicts_run (ops : List KernelOp) :
    (run next {} ops).verdictMap.Holds (verdictsIn ops) := by
  induction ops using List.reverseRecOn with
  | nil => exact holds_empty
  | append_singleton ops op ih =>
    rw [run_concat]
    generalize run next {} ops = s at *
    rcases s.next_verdictMap_cases op with ⟨hnone, hsame⟩ | ⟨k, app, rfl, hmap⟩
    · rw [hsame, verdictsIn_concat_of_none hnone]
      exact ih
    · have hconcat : verdictsIn (ops ++ [.verdict k app]) = verdictsIn ops ++ [k] := by
        simp [verdictsIn, KernelOp.write]
      rw [hmap, hconcat]
      refine ih.offer ?_ fun k' hk' => by rw [lookup_getD_update_of_ne _ hk']
      rw [lookup_getD_update_self, Option.isSome_ite]

theorem verdictOf_concat_of_none {op : KernelOp} (h : op.write = none) (k : FlowKey)
    (ops : List KernelOp) : verdictOf k (ops ++ [op]) = verdictOf k ops := by
  simp [verdictOf, h]

theorem verdictOf_concat (k k' : FlowKey) (app : UInt16) (ops : List KernelOp) :
    verdictOf k (ops ++ [.verdict k' app]) = if k' = k then some app else verdictOf k ops := by
  rw [verdictOf, List.filterMap_append, List.filter_append]
  split
  case isTrue hk => simp [KernelOp.write, hk]
  case isFalse hk => simp [KernelOp.write, hk, verdictOf]

/-- The verdict that `verdict_map` holds for a flow is the last one that was written for it. -/
theorem verdictOf_run (k : FlowKey) (ops : List KernelOp) {v : UInt16}
    (hv : (run next {} ops).verdictMap.lookup k = some v) : verdictOf k ops = some v := by
  induction ops using List.reverseRecOn generalizing v with
  | nil => rw [run_nil, lookup_empty] at hv; cases hv
  | append_singleton ops op ih =>
    rw [run_concat] at hv
    generalize run next {} ops = s at *
    rcases s.next_verdictMap_cases op with ⟨hnone, hsame⟩ | ⟨k', app, rfl, hmap⟩
    · rw [verdictOf_concat_of_none hnone]
      exact ih (hsame ▸ hv)
    · rw [verdictOf_concat]
      rw [hmap] at hv
      split
      case isTrue hk =>
        rw [hk, lookup_getD_update_self] at hv
        split at hv
        · exact hv
        · cases hv
      case isFalse hk => exact ih (lookup_getD_update_of_ne s.verdictMap (Ne.symm hk) app ▸ hv)

/-- A classified entry has the verdict that `verdict_map` held when one of its packets came. -/
theorem classified_run (k : FlowKey) (ops : List KernelOp) {fs : ObsFlowState}
    (hfs : (run next {} ops).flowMap.lookup k = some fs) (hstate : fs.state = .classified) :
    ∃ before p after, ops = before ++ .packet p :: after ∧ (KernelOp.packet p).flow = some k ∧
      (run next {} before).verdictMap.lookup k = some fs.appId := by
  induction ops using List.reverseRecOn generalizing fs with
  | nil => rw [run_nil, lookup_empty] at hfs; cases hfs
  | append_singleton ops op ih =>
    have hearlier (fs' : ObsFlowState) (hfs' : (run next {} ops).flowMap.lookup k = some fs')
        (hstate' : fs'.state = .classified) : ∃ before p after,
          ops ++ [op] = before ++ .packet p :: after ∧ (KernelOp.packet p).flow = some k ∧
          (run next {} before).verdictMap.lookup k = some fs'.appId := by
      obtain ⟨before, p, after, hops, hp⟩ := ih hfs' hstate'
      exact ⟨before, p, after ++ [op], by rw [hops, List.append_assoc, List.cons_append], hp⟩
    rw [run_concat] at hfs
    rcases (run next {} ops).next_cases op with
      ⟨-, hsame, -⟩ | ⟨p, k', tot, path, rfl, hflow, -, hstep, hne⟩
    · exact hearlier fs (hsame ▸ hfs) hstate
    · by_cases hk : k = k'
      · subst hk
        rw [hfs] at hstep
        generalize hold : (run next {} ops).flowMap.lookup k = old at hstep hearlier
        generalize hverdict : (run next {} ops).verdictMap.lookup k = verdict at hstep
        cases hstep with
        | first => cases hstate
        | decided fs' hterm => exact hearlier fs' rfl hstate
        | learned fs' v hopen hv => exact ⟨ops, p, [], rfl, hflow, hverdict.trans hv⟩
        | gaveUp => cases hstate
        | pending fs' hopen =>
          have hclassified : fs'.state = .classified := hstate
          rw [hclassified] at hopen
          cases hopen
      · exact hearlier fs ((hne k hk).1 ▸ hfs) hstate

/-- **Kept verdicts.** After any run `verdict_map` holds the last verdict of the first `mapEntries`
flows that were written, and no verdict of any other flow. A flow is classified in the kernel only
with the last verdict that was written for it before one of its packets, and only when it is one
of these flows. -/
theorem kept_verdicts_run (k : FlowKey) (ops : List KernelOp) :
    let s := run next {} ops
    s.verdictMap.lookup k =
      (if k ∈ firstKeys mapEntries (verdictsIn ops) then verdictOf k ops else none) ∧
    ∀ fs, s.flowMap.lookup k = some fs → fs.state = .classified →
      ∃ before p after, ops = before ++ .packet p :: after ∧ (KernelOp.packet p).flow = some k ∧
        k ∈ firstKeys mapEntries (verdictsIn before) ∧ verdictOf k before = some fs.appId := by
  intro s
  constructor
  · have hholds := holds_verdicts_run ops k
    split
    case isTrue hk =>
      obtain ⟨v, hv⟩ := Option.isSome_iff_exists.mp (hholds.mpr hk)
      rw [hv, verdictOf_run k ops hv]
    case isFalse hk => exact Option.not_isSome_iff_eq_none.mp fun h => hk (hholds.mp h)
  · intro fs hfs hstate
    obtain ⟨before, p, after, hops, hp, hv⟩ := classified_run k ops hfs hstate
    have hholds := holds_verdicts_run before k
    exact ⟨before, p, after, hops, hp, hholds.mp (by rw [hv]; rfl), verdictOf_run k before hv⟩

end Kernel

end NdpiObserve
