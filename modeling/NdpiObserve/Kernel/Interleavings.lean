import NdpiObserve.Kernel.FlowCredits
import NdpiObserve.Kernel.TrackedFlows
import NdpiObserve.Library.Parts

/-!
# The kernel program as a product of flows

As long as the two hash maps have room for all the flows that come, the flows do not meet in the
kernel program: the entry and the verdict of a flow, and the exits of its packets, are those of a
machine that sees the packets and the verdicts of this flow alone. So the order in which the
packets of different flows and the daemon's writes for them reach the maps does not matter.

## Main definitions

* `flowNext`: the packet of a flow that finds room.
* `FlowPart`, `FlowPart.step`: the entry and the verdict of one flow, and the machine of it.
* `Kernel.HasRoom`: the maps have room for an operation.

## Main results

* `Kernel.parts`: the kernel program is made of the machines of its flows.
* `Kernel.flow_machines_run`: a run, flow by flow.
* `Kernel.interleavings_agree`: runs with the same packets and verdicts of each flow.
-/

namespace NdpiObserve

open Machine BoundedMap

/-! ### The machine of one flow -/

/-- The path of a packet whose flow finds room, and the entry after it. -/
def flowNext (p : Pkt) (evt : Option FlowEvent) (verdict : Option UInt16) :
    Option ObsFlowState → PktPath × Option ObsFlowState
  | none => (.ring evt, some p.newFs)
  | some fs =>
    if fs.state.isTerminal then (.counted fs.appId, some (fs.touch p))
    else
      match verdict with
      | some v => (.counted v, some { fs.touch p with appId := v, state := .classified })
      | none =>
        if flowMaxClassifyPkts ≤ fs.pktCount + 1 then
          (.counted 0,
            some { fs.touch p with pktCount := fs.pktCount + 1, state := .gaveUp, appId := 0 })
        else (.ring evt, some { fs.touch p with pktCount := fs.pktCount + 1 })

/-- With room for new flows, `FlowStep` is a function. -/
theorem FlowStep.eq_flowNext {p : Pkt} {evt : Option FlowEvent} {full : Prop}
    {verdict : Option UInt16} {old new : Option ObsFlowState} {path : PktPath}
    (h : FlowStep p evt full verdict old path new) (hroom : old = none → ¬full) :
    (path, new) = flowNext p evt verdict old := by
  cases h with
  | first => rfl
  | unstored hfull => exact absurd hfull (hroom rfl)
  | decided fs hterm => simp [flowNext, hterm]
  | learned fs v hopen hv =>
    subst hv
    simp [flowNext, hopen]
  | gaveUp fs hopen hv hlast =>
    subst hv
    simp [flowNext, hopen, hlast]
  | pending fs hopen hv hmore =>
    subst hv
    simp [flowNext, hopen, UInt8.not_le.mpr hmore]

/-- What the two maps hold for one flow. -/
structure FlowPart where
  entry : Option ObsFlowState := none
  verdict : Option UInt16 := none

/-- A packet or a verdict of the flow `k`, with the exit of the packet and whether it counts the
flow. -/
def FlowPart.step (k : FlowKey) (f : FlowPart) : KernelOp → FlowPart × Option (PktOut × Bool)
  | .packet p =>
    match parsePkt p.skb with
    | none => (f, none)
    | some (_, ipTot) =>
      let r := flowNext p (p.event k ipTot) f.verdict f.entry
      ({ f with entry := r.2 },
        some (⟨k, p.cpu, p.bytes, r.1⟩,
          f.entry.any (fun fs => !fs.state.isTerminal) && r.1.app.isSome))
  | .verdict _ app => ({ f with verdict := some app }, none)

/-- The flow that an operation is about. -/
def KernelOp.key : KernelOp → Option FlowKey
  | .packet p => (parsePkt p.skb).map Prod.fst
  | .verdict k _ => some k

namespace Kernel

/-! ### The program as a product -/

/-- What the maps hold for the flow `k`. -/
def part (k : FlowKey) (s : Kernel) : FlowPart := ⟨s.flowMap.lookup k, s.verdictMap.lookup k⟩

/-- The map that the operation writes has its key or room for it. -/
def HasRoom (s : Kernel) : KernelOp → Prop
  | .packet p => ∀ k, StoresFlow k s (.packet p)
  | .verdict k _ => s.verdictMap.lookup k = none → ¬s.verdictMap.IsFull

theorem part_verdict_of_ne {k k' : FlowKey} (hne : k' ≠ k) (s : Kernel) (app : UInt16) :
    part k (s.next (.verdict k' app)) = part k s :=
  congrArg (FlowPart.mk _) (lookup_getD_update_of_ne s.verdictMap (Ne.symm hne) app)

theorem part_verdict_self {k : FlowKey} {s : Kernel} {app : UInt16}
    (hroom : s.HasRoom (.verdict k app)) :
    part k (s.next (.verdict k app)) = { part k s with verdict := some app } := by
  have hpresent : (s.verdictMap.lookup k).isSome = true ∨ ¬s.verdictMap.IsFull := by
    cases hv : s.verdictMap.lookup k with
    | none => exact .inr (hroom hv)
    | some v => exact .inl rfl
  refine congrArg (FlowPart.mk _) ?_
  exact (lookup_getD_update_self s.verdictMap k app).trans (if_pos hpresent)

/-- **A product of flows.** The kernel program does to the part of each flow what the machine of
this flow does, as long as there is room. -/
theorem parts : Parts creditStep HasRoom KernelOp.key (·.1.key) part FlowPart.step where
  own := by
    intro s op k hroom hkey
    cases op with
    | verdict k' app =>
      obtain rfl := Option.some.inj hkey
      exact ⟨part_verdict_self hroom, rfl⟩
    | packet p =>
      rw [KernelOp.key, Option.map_eq_some_iff] at hkey
      obtain ⟨⟨k', tot⟩, hparse, rfl⟩ := hkey
      have hflow := (processFlow_flowStep s p k' (p.event k' tot)).eq_flowNext
        (hroom k' (by rw [hparse]; rfl))
      rw [creditStep, step, processPkt_of_some hparse, FlowPart.step, hparse]
      dsimp only [part]
      rw [← hflow, processFlow_verdictMap]
      exact ⟨rfl, rfl⟩
  other := by
    intro s op k hkey
    cases op with
    | verdict k' app => exact part_verdict_of_ne (fun h => hkey (congrArg some h)) s app
    | packet p =>
      rw [creditStep, step]
      cases hparse : parsePkt p.skb with
      | none => rw [processPkt_of_none hparse]
      | some r =>
        have hne : k ≠ r.1 := fun h => hkey (by rw [KernelOp.key, hparse, h]; rfl)
        rw [processPkt_of_some hparse]
        dsimp only [part]
        rw [processFlow_lookup_of_ne hne, processFlow_verdictMap]
  key_of_out := by
    intro s op o hout
    cases op with
    | verdict k app => cases hout
    | packet p =>
      rw [creditStep, step] at hout
      cases hparse : parsePkt p.skb with
      | none => rw [processPkt_of_none hparse] at hout; cases hout
      | some r =>
        rw [processPkt_of_some hparse] at hout
        rw [KernelOp.key, hparse, ← Option.some.inj hout]
        rfl

/-! ### Runs with room -/

/-- A run finds room in every step when its flows fit the maps. -/
theorem along_hasRoom {ops : List KernelOp} (hflows : (flowsIn ops).eraseDups.length ≤ mapEntries)
    (hverdicts : (verdictsIn ops).eraseDups.length ≤ mapEntries) : Along next HasRoom {} ops := by
  induction ops using List.reverseRecOn with
  | nil => trivial
  | append_singleton ops op ih =>
    rw [flowsIn_concat] at hflows
    have hbefore : (verdictsIn ops).eraseDups.length ≤ mapEntries := by
      refine (length_eraseDups_le_of_subset ?_).trans hverdicts
      rw [verdictsIn, verdictsIn, List.filterMap_append, List.map_append]
      exact List.subset_append_left _ _
    refine along_append.mpr ⟨ih ((length_eraseDups_le_of_subset (List.subset_append_left _ _)).trans
      hflows) hbefore, ?_, trivial⟩
    cases op with
    | verdict k app =>
      refine (holds_verdicts_run ops).not_isFull ?_
      simpa [verdictsIn, KernelOp.write] using hverdicts
    | packet p =>
      intro k hparse
      have hflow : (KernelOp.packet p).flow = some k := hparse
      rw [hflow, Option.toList_some] at hflows
      exact (holds_run ops).not_isFull hflows

/-- **Flow by flow.** In a run whose flows fit the maps, the entry and the verdict of each flow,
and the exits of its packets, are those of the machine of the flow on the packets and the verdicts
of this flow. -/
theorem flow_machines_run (k : FlowKey) (ops : List KernelOp)
    (hflows : (flowsIn ops).eraseDups.length ≤ mapEntries)
    (hverdicts : (verdictsIn ops).eraseDups.length ≤ mapEntries) :
    let own := runOut (FlowPart.step k) {} (inputsOf KernelOp.key k ops)
    part k (run next {} ops) = own.1 ∧
      (runOut creditStep {} ops).2.reduceOption.filter (fun o => o.1.key = k) =
        own.2.reduceOption := by
  have h := parts.view_runOut k (along_hasRoom hflows hverdicts)
  rw [fst_runOut] at h
  exact h

/-- A flow of nine packets, between which a verdict of another flow comes. -/
theorem flow_machines_run_nine :
    let ops := List.replicate 8 (.packet udpPkt) ++ [.verdict (otherKey 0) 7, .packet udpPkt]
    part udpKey (run next {} ops) =
      (runOut (FlowPart.step udpKey) {} (inputsOf KernelOp.key udpKey ops)).1 :=
  (flow_machines_run udpKey
    (List.replicate 8 (.packet udpPkt) ++ [.verdict (otherKey 0) 7, .packet udpPkt])
    (by decide +kernel) (by decide +kernel)).1

/-! ### Interleavings -/

theorem flowsIn_subset {ops ops' : List KernelOp}
    (hsame : ∀ k, inputsOf KernelOp.key k ops = inputsOf KernelOp.key k ops') :
    flowsIn ops ⊆ flowsIn ops' := by
  intro k hk
  obtain ⟨op, hop, hflow⟩ := List.mem_filterMap.mp hk
  have hkey : op.key = some k := by
    cases op with
    | packet p => exact hflow
    | verdict k' app => cases hflow
  refine List.mem_filterMap.mpr ⟨op, ?_, hflow⟩
  exact (mem_inputsOf_iff.mp (hsame k ▸ mem_inputsOf_iff.mpr ⟨hop, hkey⟩)).1

theorem verdictsIn_subset {ops ops' : List KernelOp}
    (hsame : ∀ k, inputsOf KernelOp.key k ops = inputsOf KernelOp.key k ops') :
    verdictsIn ops ⊆ verdictsIn ops' := by
  intro k hk
  obtain ⟨⟨k, app⟩, hwrite, rfl⟩ := List.mem_map.mp hk
  obtain ⟨op, hop, hop'⟩ := List.mem_filterMap.mp hwrite
  have hkey : op.key = some k := by
    cases op with
    | packet p => cases hop'
    | verdict k' app' => exact congrArg some (congrArg Prod.fst (Option.some.inj hop'))
  refine List.mem_map.mpr ⟨(k, app), List.mem_filterMap.mpr ⟨op, ?_, hop'⟩, rfl⟩
  exact (mem_inputsOf_iff.mp (hsame k ▸ mem_inputsOf_iff.mpr ⟨hop, hkey⟩)).1

/-- **Interleavings agree.** Two runs with the same packets and verdicts of each flow, whose flows
fit the maps, leave the same entries, verdicts and counters, and each flow has taken the same
exits. -/
theorem interleavings_agree (ops ops' : List KernelOp)
    (hsame : ∀ k, inputsOf KernelOp.key k ops = inputsOf KernelOp.key k ops')
    (hflows : (flowsIn ops).eraseDups.length ≤ mapEntries)
    (hverdicts : (verdictsIn ops).eraseDups.length ≤ mapEntries) :
    let s := run next {} ops
    let s' := run next {} ops'
    let outs := (runOut creditStep {} ops).2.reduceOption
    let outs' := (runOut creditStep {} ops').2.reduceOption
    (∀ k, s.flowMap.lookup k = s'.flowMap.lookup k ∧
      s.verdictMap.lookup k = s'.verdictMap.lookup k ∧
      outs.filter (fun o => o.1.key = k) = outs'.filter fun o => o.1.key = k) ∧
    ∀ cpu i, s.counters cpu i = s'.counters cpu i := by
  intro s s' outs outs'
  have hroom : Along next HasRoom {} ops := along_hasRoom hflows hverdicts
  have hroom' : Along next HasRoom {} ops' := by
    have hback (k : FlowKey) := (hsame k).symm
    exact along_hasRoom
      ((length_eraseDups_le_of_subset (flowsIn_subset hback)).trans hflows)
      ((length_eraseDups_le_of_subset (verdictsIn_subset hback)).trans hverdicts)
  refine ⟨fun k => ?_, fun cpu i => ?_⟩
  · have hpart := parts.view_eq hroom hroom' hsame k
    rw [fst_runOut, fst_runOut] at hpart
    refine ⟨congrArg FlowPart.entry hpart, congrArg FlowPart.verdict hpart, ?_⟩
    exact parts.filter_outputs_eq hroom hroom' hsame k
  · -- the counters are sums of credits, so the order of the packets does not show in them
    have hperm := parts.perm_outputs hroom hroom' hsame
    rw [counters_run, counters_run, (hperm.map _).sum_eq]

/-- Whether a verdict of another flow comes before or after the first of nine packets. -/
theorem interleavings_agree_swap :
    (run next {} (.verdict (otherKey 0) 7 :: List.replicate 9 (.packet udpPkt))).counters 0 0 =
      (run next {} (.packet udpPkt :: .verdict (otherKey 0) 7 ::
        List.replicate 8 (.packet udpPkt))).counters 0 0 :=
  have hne : KernelOp.key (.verdict (otherKey 0) 7) ≠ KernelOp.key (.packet udpPkt) := by
    decide +kernel
  (interleavings_agree _ _ (fun k => inputsOf_swap hne k (List.replicate 8 (.packet udpPkt)))
    (by decide +kernel) (by decide +kernel)).2 0 0

end Kernel

end NdpiObserve
