import NdpiObserve.Daemon.MergedCounters
import NdpiObserve.Kernel.FlowCredits
import NdpiObserve.Pipeline.MainLoop

/-!
# Merged flow counts

Both sides count flows under applications: the kernel a flow that leaves CLASSIFYING, the daemon a
flow that gets its verdict, and again one that expires. What is shown is the sum of both. Neither
side looks at what the other has counted, so a flow with a verdict is counted by the daemon, and
once more by the kernel at its next packet.

## Main definitions

* `Pipeline.countedFlows`: the flows that a step counts, with their applications.
* `Pipeline.CountedFlow`: what the entries of a flow tell of whether it has been counted.
* `Pipeline.CountsFresh`: the steps that count only flows that have not been counted.

## Main results

* `Pipeline.merged_flows_run`: when no flow is counted twice, and what is shown then.
* `Pipeline.known_flow_counted_twice`: two counts of one flow.
-/

namespace NdpiObserve

open Machine

/-! ### The kernel's side -/

/-- The application that the next packet of a flow counts the flow under. -/
def leavesUnder (verdict : Option UInt16) (entry : Option ObsFlowState) : Option UInt16 :=
  entry.bind fun fs =>
    if fs.state.isTerminal then none
    else if verdict = none ∧ fs.pktCount + 1 < flowMaxClassifyPkts then none
    else some (verdict.getD 0)

/-- The application of a decided entry. -/
def decidedUnder (entry : Option ObsFlowState) : Option UInt16 :=
  (entry.filter fun fs => fs.state.isTerminal).map ObsFlowState.appId

theorem decidedUnder_of_leavesUnder {verdict : Option UInt16} {entry : Option ObsFlowState}
    {app : UInt16} (h : leavesUnder verdict entry = some app) : decidedUnder entry = none := by
  cases entry with
  | none => rfl
  | some fs =>
    cases hterm : fs.state.isTerminal with
    | true => simp [leavesUnder, hterm] at h
    | false => simp [decidedUnder, hterm]

/-- A packet counts its flow when it decides the entry, and a decision stays. -/
theorem FlowStep.leavesUnder_cases {p : Pkt} {evt : Option FlowEvent} {full : Prop}
    {verdict : Option UInt16} {old new : Option ObsFlowState} {path : PktPath}
    (h : FlowStep p evt full verdict old path new) :
    (leavesUnder verdict old = none ∧ decidedUnder new = decidedUnder old ∧
      ((old.any fun fs => !fs.state.isTerminal) && path.app.isSome) = false) ∨
    ∃ app, leavesUnder verdict old = some app ∧ decidedUnder old = none ∧
      decidedUnder new = some app ∧ path = .counted app ∧
      (old.any fun fs => !fs.state.isTerminal) = true := by
  cases h with
  | first => exact .inl ⟨rfl, rfl, rfl⟩
  | unstored => exact .inl ⟨rfl, rfl, rfl⟩
  | decided fs hterm =>
    refine .inl ⟨?_, ?_, ?_⟩
    · simp [leavesUnder, hterm]
    · simp [decidedUnder, Option.filter_some, ObsFlowState.touch, hterm]
    · simp [hterm]
  | learned fs v hopen hv =>
    refine .inr ⟨v, ?_, ?_, ?_, rfl, ?_⟩
    · simp [leavesUnder, hopen, hv]
    · simp [decidedUnder, hopen]
    · simp [decidedUnder, FlowState.isTerminal]
    · simp [hopen]
  | gaveUp fs hopen hv hlast =>
    refine .inr ⟨0, ?_, ?_, ?_, rfl, ?_⟩
    · simp [leavesUnder, hopen, hv, UInt8.not_lt.mpr hlast]
    · simp [decidedUnder, hopen]
    · simp [decidedUnder, FlowState.isTerminal]
    · simp [hopen]
  | pending fs hopen hv hmore =>
    refine .inl ⟨?_, ?_, ?_⟩
    · simp [leavesUnder, hopen, hv, hmore]
    · simp [decidedUnder, Option.filter_some, ObsFlowState.touch, hopen]
    · simp [PktPath.app]

namespace Kernel

/-- The flow that a packet counts, with its application. -/
def countedFlows (s : Kernel) (p : Pkt) : List (FlowKey × UInt16) :=
  (parsePkt p.skb).toList.flatMap fun r =>
    (leavesUnder (s.verdictMap.lookup r.1) (s.flowMap.lookup r.1)).toList.map fun app => (r.1, app)

/-- The flow has been counted under an application. -/
def CountedFlow (s : Kernel) (k : FlowKey) : Prop :=
  ∃ app ∈ decidedUnder (s.flowMap.lookup k), app.toNat < numApps

instance (s : Kernel) (k : FlowKey) : Decidable (CountedFlow s k) :=
  inferInstanceAs (Decidable (∃ app ∈ decidedUnder _, _))

variable {s : Kernel} {p : Pkt} {k : FlowKey}

/-- A packet counts its flow when the entry is not decided. -/
theorem not_countedFlow_of_mem (s : Kernel) {p : Pkt} {x : FlowKey × UInt16}
    (h : x ∈ s.countedFlows p) : ¬s.CountedFlow x.1 := by
  simp only [countedFlows, List.mem_flatMap, Option.mem_toList, List.mem_map] at h
  obtain ⟨r, -, app, happ, rfl⟩ := h
  rintro ⟨app', happ', -⟩
  have hnone := (decidedUnder_of_leavesUnder happ).symm.trans happ'
  cases hnone

/-- A packet counts its flow the first time that the flow is counted. -/
theorem countedFlow_processPkt (s : Kernel) (p : Pkt) (k : FlowKey) :
    (processPkt s p).1.CountedFlow k ↔
      s.CountedFlow k ∨ ∃ x ∈ s.countedFlows p, x.1 = k ∧ x.2.toNat < numApps := by
  cases hparse : parsePkt p.skb with
  | none => simp [processPkt_of_none hparse, countedFlows, hparse]
  | some r =>
    obtain ⟨k', tot⟩ := r
    rw [processPkt_of_some hparse, CountedFlow, CountedFlow, countedFlows, hparse]
    simp only [Option.toList_some, List.flatMap_singleton]
    by_cases hk : k = k'
    · subst hk
      rcases (processFlow_flowStep s p k (p.event k tot)).leavesUnder_cases with
        ⟨hnone, hsame, -⟩ | ⟨app, happ, hold, hnew, -⟩
      · rw [hnone, hsame]
        simp
      · rw [happ, hold, hnew]
        simp
    · rw [processFlow_lookup_of_ne hk]
      have hne : ¬k' = k := fun h => hk h.symm
      simp [hne]

theorem nodup_countedFlows (s : Kernel) (p : Pkt) : ((s.countedFlows p).map Prod.fst).Nodup := by
  rw [countedFlows]
  cases parsePkt p.skb with
  | none => exact List.nodup_nil
  | some r =>
    cases hleaves : leavesUnder (s.verdictMap.lookup r.1) (s.flowMap.lookup r.1) <;> simp [hleaves]

/-- A packet raises the flows of an application on the first `n` CPUs by one, if it counts its
flow. -/
theorem sum_flows_processPkt_le (s : Kernel) (p : Pkt) (n : ℕ) (i : Fin appCounterEntries) :
    ∑ cpu ∈ Finset.range n, ((processPkt s p).1.appCounters cpu i).flows.toNat ≤
      ∑ cpu ∈ Finset.range n, (s.appCounters cpu i).flows.toNat +
        (s.countedFlows p).countP fun x => x.2.toNat = i.val := by
  cases hparse : parsePkt p.skb with
  | none =>
    rw [processPkt_of_none hparse]
    exact Nat.le_add_right _ _
  | some r =>
    obtain ⟨k, tot⟩ := r
    rw [processPkt_of_some hparse, countedFlows, hparse]
    simp only [Option.toList_some, List.flatMap_singleton]
    have hnew (cpu : ℕ) := congrArg (fun c => c.2.2)
      (counters_processFlow s p k (p.event k tot) cpu i)
    simp only [counters, Prod.snd_add] at hnew
    have hcases := (processFlow_flowStep s p k (p.event k tot)).leavesUnder_cases
    generalize processFlow s p k (p.event k tot) = r at hnew hcases
    obtain ⟨s', path⟩ := r
    dsimp only at hnew hcases ⊢
    rcases hcases with ⟨hnone, -, hpath⟩ | ⟨app, happ, -, -, rfl, hopen⟩
    · have hsame (cpu : ℕ) : (s'.appCounters cpu i).flows = (s.appCounters cpu i).flows := by
        rw [hnew, PktOut.credit]
        have hfalse : s.isNewFlow ⟨k, p.cpu, p.bytes, path⟩ = false := hpath
        rw [hfalse]
        split
        · exact add_zero _
        · split <;> exact add_zero _
      simp [hsame]
    · have hle (cpu : ℕ) : (s'.appCounters cpu i).flows.toNat ≤ (s.appCounters cpu i).flows.toNat +
          if p.cpu = cpu ∧ app.toNat = i.val then 1 else 0 := by
        have htrue : s.isNewFlow ⟨k, p.cpu, p.bytes, .counted app⟩ = true := by
          rw [isNewFlow, isOpen, hopen]
          rfl
        rw [hnew, htrue, UInt64.toNat_add]
        refine (Nat.mod_le _ _).trans (Nat.add_le_add_left ?_ _)
        dsimp only [PktOut.credit, PktPath.app]
        split <;> simp
      refine (Finset.sum_le_sum fun cpu _ => hle cpu).trans ?_
      rw [Finset.sum_add_distrib, happ]
      refine Nat.add_le_add_left ?_ _
      by_cases hi : app.toNat = i.val
      · simp only [hi, and_true, Finset.sum_ite_eq]
        split <;> simp [hi]
      · simp [hi]

end Kernel

/-! ### The daemon's side -/

namespace EngineRun

/-- The flows that a call counts, with their applications: its own flow at the verdict, and the
idle flows when they expire. -/
def countedFlows (env : Env) (w : EngineRun) : EngineOp → List (FlowKey × UInt16)
  | .process evt fd a =>
    ((w.engine.obtain evt a).toList.filter fun f => (f.exit evt a).hasTail).map fun f =>
      (evt.key, (w.body env evt fd a f).flow.appId)
  | .age now => (w.engine.flows.idle now).map fun f => (f.key, f.appId)

/-- The exit of the call that decided the flow last. -/
def lastDecision (w : EngineRun) (k : FlowKey) : Option Exit :=
  (((w.calls.filter fun c => c.2.1.key = k).map fun c => c.1.exit c.2.1 c.2.2).filter
    Exit.decides).getLast?

/-- The entry of the flow was counted at its verdict. -/
def CountedEntry (w : EngineRun) (k : FlowKey) : Prop :=
  ∃ f ∈ flowTableLookup w.engine.flows k, f.state.isTerminal = true ∧ f.appId.toNat < numApps ∧
    ∃ x ∈ w.lastDecision k, x.hasTail = true

/-- The flow has been counted under an application, at its verdict or when it expired. -/
def CountedFlow (w : EngineRun) (k : FlowKey) : Prop :=
  (∃ f ∈ w.expired, f.key = k ∧ f.appId.toNat < numApps) ∨ w.CountedEntry k

instance (w : EngineRun) (k : FlowKey) : Decidable (CountedFlow w k) :=
  inferInstanceAs (Decidable ((∃ f ∈ w.expired, _) ∨ ∃ f ∈ flowTableLookup w.engine.flows k, _ ∧ _ ∧
    ∃ x ∈ w.lastDecision k, _))

variable (env : Env) {w : EngineRun} {k : FlowKey}

theorem countedFlows_process_of_none {evt : FlowEvent} {a : Answers} (fd : ℤ)
    (h : w.engine.obtain evt a = none) : w.countedFlows env (.process evt fd a) = [] := by
  rw [countedFlows, h]
  rfl

theorem countedFlows_process_of_some {evt : FlowEvent} {a : Answers} (fd : ℤ) {f : FlowEntry}
    (h : w.engine.obtain evt a = some f) :
    w.countedFlows env (.process evt fd a) =
      if (f.exit evt a).hasTail then [(evt.key, (w.body env evt fd a f).flow.appId)] else [] := by
  rw [countedFlows, h]
  cases htail : (f.exit evt a).hasTail <;> simp [htail]

/-- What flows add to the flows of an application. -/
theorem toNat_flows_sum_share_le (l : List FlowEntry) (i : Fin numApps) :
    (((l.map fun f : FlowEntry => f.share env).sum.1 i).2.2).toNat ≤
      l.countP fun f => f.appId.toNat = i.val := by
  induction l with
  | nil => exact le_refl 0
  | cons f l ih =>
    have hshare : ((f.share env).1 i).2.2.toNat ≤ if f.appId.toNat = i.val then 1 else 0 := by
      dsimp only [FlowEntry.share]
      by_cases hi : f.appId.toNat = i.val
      · simp [hi]
      · simp [hi, Ne.symm hi]
    have hadd : ((((f :: l).map fun f : FlowEntry => f.share env).sum.1 i).2.2).toNat ≤
        ((f.share env).1 i).2.2.toNat +
          ((l.map fun f : FlowEntry => f.share env).sum.1 i).2.2.toNat := by
      rw [List.map_cons, List.sum_cons]
      exact (UInt64.toNat_add _ _).le.trans (Nat.mod_le _ _)
    rw [List.countP_cons]
    simp only [decide_eq_true_eq] at *
    omega

/-- A call raises the flows of an application by at most what it counts. -/
theorem appFlows_step_le (op : EngineOp) (i : Fin numApps) :
    ((w.step env op).engine.appFlows i).toNat ≤ (w.engine.appFlows i).toNat +
      (w.countedFlows env op).countP fun x => x.2.toNat = i.val := by
  -- the totals grow by the shares of some flows, which are the flows that are counted
  obtain ⟨l, htotals, hcount⟩ : ∃ l : List FlowEntry,
      (w.step env op).engine.totals = w.engine.totals + (l.map fun f => f.share env).sum ∧
      (w.countedFlows env op).map Prod.snd = l.map FlowEntry.appId := by
    cases op with
    | process evt fd a =>
      cases ho : w.engine.obtain evt a with
      | none =>
        refine ⟨[], ?_, ?_⟩
        · rw [step_process_of_none env fd ho]
          exact (w.engine.observeDns_totals evt a).trans (add_zero _).symm
        · rw [countedFlows_process_of_none env fd ho]
          rfl
      | some f =>
        rw [totals_step_process env fd ho, countedFlows_process_of_some env fd ho]
        cases (f.exit evt a).hasTail with
        | true => exact ⟨[(w.body env evt fd a f).flow], by simp, rfl⟩
        | false => exact ⟨[], rfl, rfl⟩
    | age now => exact ⟨w.engine.flows.idle now, totals_step_age env now, by simp [countedFlows]⟩
  have hflows : (w.step env op).engine.appFlows i = w.engine.appFlows i +
      ((l.map fun f : FlowEntry => f.share env).sum.1 i).2.2 :=
    congrArg (fun t : Totals => (t.1 i).2.2) htotals
  have hcountP : (w.countedFlows env op).countP (fun x => x.2.toNat = i.val) =
      l.countP fun f => f.appId.toNat = i.val := by
    have hmap := congrArg (List.countP fun app : UInt16 => app.toNat = i.val) hcount
    rw [List.countP_map, List.countP_map] at hmap
    exact hmap
  rw [hflows, hcountP, UInt64.toNat_add]
  exact (Nat.mod_le _ _).trans (Nat.add_le_add_left (toNat_flows_sum_share_le env l i) _)

/-! ### What has been counted -/

/-- The idle flows. -/
theorem Sound.mem_idle_iff (hw : w.Sound) {now : ℤ} {f : FlowEntry} :
    f ∈ w.engine.flows.idle now ↔
      flowTableLookup w.engine.flows f.key = some f ∧ f.isIdle now = true := by
  rw [← Multiset.mem_coe, FlowTable.coe_idle, Multiset.mem_filter, hw.valid.lookup_eq_some_iff]
  simp

theorem lastDecision_of_calls_eq {w' : EngineRun} {k : FlowKey} (h : w'.calls = w.calls) :
    w'.lastDecision k = w.lastDecision k := by
  rw [lastDecision, lastDecision, h]

/-- The decision after a call on the entry of a flow. -/
theorem lastDecision_concat {w' : EngineRun} {k : FlowKey} {evt : FlowEvent} {a : Answers}
    {f : FlowEntry} (h : w'.calls = w.calls ++ [(f, evt, a)]) :
    w'.lastDecision k =
      if evt.key = k ∧ (f.exit evt a).decides = true then some (f.exit evt a)
      else w.lastDecision k := by
  rw [lastDecision, h, List.filter_append, List.map_append, List.filter_append]
  by_cases hk : evt.key = k
  · cases hdec : (f.exit evt a).decides <;> simp [hk, hdec, lastDecision]
  · simp [hk, lastDecision]

/-- The flow of a call on an open entry has not been counted as an entry. -/
theorem not_countedEntry_of_obtain {evt : FlowEvent} {a : Answers} {f : FlowEntry}
    (ho : w.engine.obtain evt a = some f) (hopen : f.state.isTerminal = false) :
    ¬w.CountedEntry evt.key := by
  rintro ⟨g, hg, hterm, -⟩
  rcases entered_cases ho with ⟨hl, -⟩ | ⟨-, hl, -⟩
  · obtain rfl := Option.some.inj (hl.symm.trans hg)
    rw [hopen] at hterm
    cases hterm
  · rw [Option.mem_def, hl] at hg
    cases hg

theorem not_countedEntry_of_mem {evt : FlowEvent} {a : Answers} (fd : ℤ)
    {x : FlowKey × UInt16} (h : x ∈ w.countedFlows env (.process evt fd a)) :
    ¬w.CountedEntry x.1 := by
  simp only [countedFlows, List.mem_map, List.mem_filter, Option.mem_toList] at h
  obtain ⟨f, ⟨ho, htail⟩, rfl⟩ := h
  refine not_countedEntry_of_obtain ho ?_
  by_contra hterm
  rw [Call.exit_eq_cached_iff.mpr (Bool.not_eq_false _ |>.mp hterm)] at htail
  cases htail

/-- A call counts its flow as an entry when it reaches the verdict tail. -/
theorem Sound.countedEntry_process (hw : w.Sound) {evt : FlowEvent} {a : Answers} (fd : ℤ)
    {f : FlowEntry} (ho : w.engine.obtain evt a = some f) (k : FlowKey) :
    (w.step env (.process evt fd a)).CountedEntry k ↔ w.CountedEntry k ∨
      ∃ x ∈ w.countedFlows env (.process evt fd a), x.1 = k ∧ x.2.toNat < numApps := by
  have hlookup := hw.lookup_step_process env fd ho k
  have hdecision : (w.step env (.process evt fd a)).lastDecision k = _ :=
    lastDecision_concat (by rw [step_process_of_some env fd ho])
  rw [CountedEntry, hlookup, hdecision, countedFlows_process_of_some env fd ho]
  by_cases hk : evt.key = k
  · rw [if_pos hk]
    have hterm : (w.body env evt fd a f).flow.state.isTerminal =
        (f.state.isTerminal || (f.exit evt a).decides) :=
      Call.process_isTerminal env evt fd a (w.engine.bodyStart evt a)
    cases hopen : f.state.isTerminal with
    | true =>
      have hf : flowTableLookup w.engine.flows k = some f := by
        rcases entered_cases ho with ⟨hl, -⟩ | ⟨rfl, -⟩
        · rw [← hk, hl]
        · cases hopen
      obtain ⟨-, -, happ⟩ := Call.process_decision env evt fd a (w.engine.bodyStart evt a) hopen
      have happ' : (w.body env evt fd a f).flow.appId = f.appId := happ
      rw [CountedEntry, hf, Call.exit_eq_cached_iff.mpr hopen]
      simp [hterm, hopen, happ', Exit.decides, Exit.hasTail]
    | false =>
      have hnot : ¬w.CountedEntry k := hk ▸ not_countedEntry_of_obtain ho hopen
      rw [or_iff_right hnot]
      have htail : (f.exit evt a).hasTail = true → (f.exit evt a).decides = true := by
        cases f.exit evt a <;> simp [Exit.hasTail, Exit.decides]
      cases hdec : (f.exit evt a).decides with
      | true => cases hx : (f.exit evt a).hasTail <;> simp [hterm, hopen, hdec, hk, hx]
      | false =>
        have hx : (f.exit evt a).hasTail = false := by
          by_contra hx
          rw [htail (Bool.not_eq_false _ |>.mp hx)] at hdec
          cases hdec
        simp [hterm, hopen, hdec, hx]
  · have hnone : ¬∃ x ∈ (if (f.exit evt a).hasTail then
        [(evt.key, (w.body env evt fd a f).flow.appId)] else []), x.1 = k ∧
        x.2.toNat < numApps := by
      rintro ⟨x, hx, hxk, -⟩
      split at hx
      · rw [List.mem_singleton.mp hx] at hxk
        exact hk hxk
      · cases hx
    rw [if_neg hk, if_neg (fun h => hk h.1), or_iff_left hnone, CountedEntry]

/-- **What the daemon has counted.** A call adds the flows that it counts to those that have been
counted, and no call takes one away. -/
theorem Sound.countedFlow_step (hw : w.Sound) (op : EngineOp) (k : FlowKey) :
    (w.step env op).CountedFlow k ↔ w.CountedFlow k ∨
      ∃ x ∈ w.countedFlows env op, x.1 = k ∧ x.2.toNat < numApps := by
  cases op with
  | process evt fd a =>
    cases ho : w.engine.obtain evt a with
    | none =>
      have hdecision : (w.step env (.process evt fd a)).lastDecision k = w.lastDecision k :=
        lastDecision_of_calls_eq (by rw [step_process_of_none env fd ho])
      rw [CountedFlow, CountedEntry, lookup_step_process_of_none env fd ho, hdecision,
        countedFlows_process_of_none env fd ho, step_process_of_none env fd ho]
      simp [CountedFlow, CountedEntry]
    | some f =>
      have hexpired : (w.step env (.process evt fd a)).expired = w.expired := by
        rw [step_process_of_some env fd ho]
      rw [CountedFlow, hw.countedEntry_process env fd ho, hexpired, CountedFlow, or_assoc]
  | age now =>
    have hlookup := hw.lookup_step_age env now k
    have hexpired : (w.step env (.age now)).expired = w.expired ++ w.engine.flows.idle now := by
      rw [step_age]
    have hdecision : (w.step env (.age now)).lastDecision k = w.lastDecision k :=
      lastDecision_of_calls_eq (by rw [step_age])
    have hidle : (∃ x ∈ w.countedFlows env (.age now), x.1 = k ∧ x.2.toNat < numApps) ↔
        ∃ f ∈ w.engine.flows.idle now, f.key = k ∧ f.appId.toNat < numApps := by
      simp [countedFlows]
    have hexp : (∃ f ∈ (w.step env (.age now)).expired, f.key = k ∧ f.appId.toNat < numApps) ↔
        (∃ f ∈ w.expired, f.key = k ∧ f.appId.toNat < numApps) ∨
          ∃ f ∈ w.engine.flows.idle now, f.key = k ∧ f.appId.toNat < numApps := by
      rw [hexpired]
      simp only [List.mem_append, or_and_right, exists_or]
    -- an entry that was counted at its verdict stays, or is idle
    have hentry : (w.step env (.age now)).CountedEntry k ∨
        (∃ f ∈ w.engine.flows.idle now, f.key = k ∧ f.appId.toNat < numApps) ↔
          w.CountedEntry k ∨
            ∃ f ∈ w.engine.flows.idle now, f.key = k ∧ f.appId.toNat < numApps := by
      rw [CountedEntry, hlookup, hdecision, CountedEntry]
      constructor
      · rintro (⟨f, hf, hcounted⟩ | hidle)
        · exact .inl ⟨f, (Option.filter_eq_some_iff.mp hf).1, hcounted⟩
        · exact .inr hidle
      · rintro (⟨f, hf, hcounted⟩ | hidle)
        · obtain rfl := hw.valid.key_lookup hf
          cases hage : f.isIdle now with
          | true => exact .inr ⟨f, hw.mem_idle_iff.mpr ⟨hf, hage⟩, rfl, hcounted.2.1⟩
          | false => exact .inl ⟨f, Option.filter_eq_some_iff.mpr ⟨hf, by simp [hage]⟩, hcounted⟩
        · exact .inr hidle
    rw [CountedFlow, hexp, hidle, CountedFlow, or_assoc, or_comm (b := CountedEntry _ k), hentry,
      or_assoc]

theorem Sound.nodup_countedFlows (hw : w.Sound) (op : EngineOp) :
    ((w.countedFlows env op).map Prod.fst).Nodup := by
  cases op with
  | process evt fd a =>
    cases ho : w.engine.obtain evt a with
    | none =>
      rw [countedFlows_process_of_none env fd ho]
      exact List.nodup_nil
    | some f =>
      rw [countedFlows_process_of_some env fd ho]
      split
      · exact List.nodup_singleton _
      · exact List.nodup_nil
  | age now =>
    have hidle : ((w.engine.flows.idle now : Multiset FlowEntry).map FlowEntry.key).Nodup := by
      rw [FlowTable.coe_idle]
      exact Multiset.nodup_of_le (Multiset.map_le_map (Multiset.filter_le _ _)) hw.valid.nodup_keys
    rw [countedFlows, List.map_map]
    exact hidle

end EngineRun

/-! ### Both sides -/

theorem Kernel.foldl_receive_flowMap (s : Kernel) (l : List Effect) :
    (l.foldl Kernel.receive s).flowMap = s.flowMap ∧
      (l.foldl Kernel.receive s).appCounters = s.appCounters := by
  induction l generalizing s with
  | nil => exact ⟨rfl, rfl⟩
  | cons x l ih =>
    rw [List.foldl_cons, (ih _).1, (ih _).2]
    cases x <;> exact ⟨rfl, rfl⟩

namespace Pipeline

variable (env : Env) (fd : ℤ)

/-- The flows that a step counts on its side, with their applications. -/
def flowsOf (w : Pipeline) : PipelineOp → List (FlowKey × UInt16)
  | .packet p => w.kernel.countedFlows p
  | .deliver a =>
    match w.phase, w.ring with
    | .draining, evt :: _ => w.daemon.countedFlows env (.process evt fd a)
    | _, _ => []
  | .age now => if w.phase = .serving then w.daemon.countedFlows env (.age now) else []
  | .drained | .loop => []

/-- Those under an application that has a counter. -/
def countedFlows (w : Pipeline) (op : PipelineOp) : List (FlowKey × UInt16) :=
  (w.flowsOf env fd op).filter fun x => x.2.toNat < numApps

/-- The flow has been counted on one of the sides. -/
def CountedFlow (w : Pipeline) (k : FlowKey) : Prop :=
  w.kernel.CountedFlow k ∨ w.daemon.CountedFlow k

instance (w : Pipeline) (k : FlowKey) : Decidable (w.CountedFlow k) :=
  inferInstanceAs (Decidable (_ ∨ _))

/-- The flow has not been counted when a packet leaves CLASSIFYING, when an event brings the
verdict, and when the flow expires. -/
def CountsFresh (w : Pipeline) : PipelineOp → Prop
  | .packet p => ∀ x ∈ w.kernel.countedFlows p, x.2.toNat < numApps → ¬w.daemon.CountedFlow x.1
  | .deliver a => w.phase = .draining → ∀ evt ∈ w.ring.head?,
    ∀ x ∈ w.daemon.countedFlows env (.process evt fd a), x.2.toNat < numApps →
      ¬w.kernel.CountedFlow x.1 ∧ ∀ g ∈ w.daemon.expired, g.key = x.1 → numApps ≤ g.appId.toNat
  | .age now => w.phase = .serving → ∀ x ∈ w.daemon.countedFlows env (.age now),
    x.2.toNat < numApps → ¬w.CountedFlow x.1
  | .drained | .loop => True

instance (w : Pipeline) (op : PipelineOp) : Decidable (CountsFresh env fd w op) :=
  match op with
  | .packet _ => inferInstanceAs (Decidable (∀ x ∈ _, _ → _))
  | .deliver _ => inferInstanceAs (Decidable (_ → ∀ evt ∈ _, ∀ x ∈ _, _ → _))
  | .age _ => inferInstanceAs (Decidable (_ → ∀ x ∈ _, _ → _))
  | .drained | .loop => isTrue trivial

variable {w : Pipeline} {k : FlowKey}

theorem mem_map_filter_iff {l : List (FlowKey × UInt16)} :
    k ∈ (l.filter fun x => x.2.toNat < numApps).map Prod.fst ↔
      ∃ x ∈ l, x.1 = k ∧ x.2.toNat < numApps := by
  simp only [List.mem_map, List.mem_filter, decide_eq_true_eq]
  exact exists_congr fun x => by tauto

/-- A step does nothing to the counts, or it is a packet in the kernel, or a call of the daemon. -/
theorem next_cases (w : Pipeline) (op : PipelineOp) :
    (w.flowsOf env fd op = [] ∧ (w.next env fd op).kernel = w.kernel ∧
      (w.next env fd op).daemon = w.daemon) ∨
    (∃ p, w.flowsOf env fd op = w.kernel.countedFlows p ∧
      (w.next env fd op).kernel = (processPkt w.kernel p).1 ∧
      (w.next env fd op).daemon = w.daemon) ∨
    ∃ eop, w.flowsOf env fd op = w.daemon.countedFlows env eop ∧
      (w.next env fd op).kernel.flowMap = w.kernel.flowMap ∧
      (w.next env fd op).kernel.appCounters = w.kernel.appCounters ∧
      (w.next env fd op).daemon = w.daemon.step env eop := by
  cases op with
  | packet p => exact .inr (.inl ⟨p, rfl, rfl, rfl⟩)
  | deliver a =>
    rw [next, step, flowsOf]
    cases hphase : w.phase with
    | serving => exact .inl ⟨rfl, rfl, rfl⟩
    | draining =>
      cases hring : w.ring with
      | nil => exact .inl ⟨rfl, rfl, rfl⟩
      | cons evt rest =>
        obtain ⟨hflows, hcounters⟩ := Kernel.foldl_receive_flowMap w.kernel
          (ndpiEngineProcess env w.daemon.engine evt fd a).2
        exact .inr (.inr ⟨.process evt fd a, rfl, hflows, hcounters, rfl⟩)
  | drained =>
    rcases step_drained_cases env fd w with heq | ⟨-, heq⟩ <;> rw [heq] <;>
      exact .inl ⟨rfl, rfl, rfl⟩
  | age now =>
    have hkernel (d : EngineRun) : ({ w with daemon := d } : Pipeline).kernel = w.kernel := rfl
    have hdaemon (d : EngineRun) : ({ w with daemon := d } : Pipeline).daemon = d := rfl
    rw [next, step, flowsOf]
    split
    case isTrue =>
      refine .inr (.inr ⟨.age now, rfl, ?_, ?_, hdaemon _⟩)
      · exact congrArg Kernel.flowMap (hkernel _)
      · exact congrArg Kernel.appCounters (hkernel _)
    case isFalse => exact .inl ⟨rfl, rfl, rfl⟩
  | loop => exact .inl ⟨rfl, rfl, rfl⟩

/-- **What has been counted.** A step adds the flows that it counts to those that have been
counted. -/
theorem countedFlow_next (hw : w.daemon.Sound) (op : PipelineOp) (k : FlowKey) :
    (w.next env fd op).CountedFlow k ↔
      w.CountedFlow k ∨ k ∈ (w.countedFlows env fd op).map Prod.fst := by
  rw [countedFlows, mem_map_filter_iff, CountedFlow, CountedFlow]
  rcases next_cases env fd w op with ⟨hflows, hkernel, hdaemon⟩ | ⟨p, hflows, hkernel, hdaemon⟩ |
    ⟨eop, hflows, hkernel, -, hdaemon⟩
  · rw [hflows, hkernel, hdaemon]
    simp
  · rw [hflows, hkernel, hdaemon, Kernel.countedFlow_processPkt, or_right_comm]
  · rw [hflows, Kernel.CountedFlow, hkernel, hdaemon, hw.countedFlow_step, ← or_assoc]
    rfl

/-- A step counts a flow at most once. -/
theorem nodup_countedFlows (hw : w.daemon.Sound) (op : PipelineOp) :
    ((w.countedFlows env fd op).map Prod.fst).Nodup := by
  refine List.Nodup.sublist (List.filter_sublist.map Prod.fst) ?_
  rcases next_cases env fd w op with ⟨hflows, -⟩ | ⟨p, hflows, -⟩ | ⟨eop, hflows, -⟩
  · rw [hflows]
    exact List.nodup_nil
  · rw [hflows]
    exact w.kernel.nodup_countedFlows p
  · rw [hflows]
    exact hw.nodup_countedFlows env eop

/-- The steps that count no flow that has been counted before. -/
theorem countsFresh_iff (w : Pipeline) (op : PipelineOp) :
    CountsFresh env fd w op ↔
      ∀ k ∈ (w.countedFlows env fd op).map Prod.fst, ¬w.CountedFlow k := by
  have hflows : (∀ k ∈ (w.countedFlows env fd op).map Prod.fst, ¬w.CountedFlow k) ↔
      ∀ x ∈ w.flowsOf env fd op, x.2.toNat < numApps → ¬w.CountedFlow x.1 := by
    simp only [countedFlows, mem_map_filter_iff]
    constructor
    · exact fun h x hx happ => h x.1 ⟨x, hx, rfl, happ⟩
    · rintro h _ ⟨x, hx, rfl, happ⟩
      exact h x hx happ
  rw [hflows]
  cases op with
  | packet p =>
    rw [CountsFresh, flowsOf]
    refine forall₂_congr fun x hx => imp_congr_right fun _ => not_congr ?_
    exact (or_iff_right (w.kernel.not_countedFlow_of_mem hx)).symm
  | deliver a =>
    rw [CountsFresh, flowsOf]
    cases hphase : w.phase with
    | serving => simp
    | draining =>
      cases hring : w.ring with
      | nil => simp
      | cons evt rest =>
        simp only [true_imp_iff, List.head?_cons, Option.mem_some_iff, forall_eq']
        refine forall₂_congr fun x hx => imp_congr_right fun _ => ?_
        have hentry := EngineRun.not_countedEntry_of_mem env fd hx
        simp [CountedFlow, EngineRun.CountedFlow, hentry]
  | age now =>
    rw [CountsFresh, flowsOf]
    cases hphase : w.phase with
    | draining => simp
    | serving => simp
  | drained | loop => simp [CountsFresh, flowsOf]

/-- The flows of an application, as counted by the daemon and on the first `n` CPUs. -/
def flowCount (n : ℕ) (i : Fin numApps) (w : Pipeline) : ℕ :=
  (w.daemon.engine.appFlows i).toNat +
    ∑ cpu ∈ Finset.range n, (w.kernel.appCounters cpu i).flows.toNat

/-- A step raises the flows of an application by at most what it counts. -/
theorem flowCount_next_le (w : Pipeline) (op : PipelineOp) (n : ℕ) (i : Fin numApps) :
    flowCount n i (w.next env fd op) ≤ flowCount n i w +
      (w.countedFlows env fd op).countP fun x => x.2.toNat = i.val := by
  have hfilter : (w.countedFlows env fd op).countP (fun x => x.2.toNat = i.val) =
      (w.flowsOf env fd op).countP fun x => x.2.toNat = i.val := by
    rw [countedFlows, List.countP_filter]
    refine List.countP_congr fun x _ => ?_
    simp only [Bool.and_eq_true, decide_eq_true_eq, and_iff_left_iff_imp]
    intro hx
    rw [hx]
    exact i.isLt
  rw [hfilter, flowCount, flowCount]
  rcases next_cases env fd w op with ⟨hflows, hkernel, hdaemon⟩ | ⟨p, hflows, hkernel, hdaemon⟩ |
    ⟨eop, hflows, -, hkernel, hdaemon⟩
  · rw [hkernel, hdaemon]
    exact Nat.le_add_right _ _
  · have hstep := w.kernel.sum_flows_processPkt_le p n i
    rw [hflows, hkernel, hdaemon]
    omega
  · have hstep := w.daemon.appFlows_step_le env eop i
    rw [hflows, hkernel, hdaemon]
    omega

/-! ### The flows of a run -/

/-- The daemon does not know the flow, and no event of it waits. -/
structure Unseen (k : FlowKey) (w : Pipeline) : Prop where
  sound : w.daemon.Sound
  ringOf : w.ringOf k = []
  daemonEntry : w.daemonEntry k = none

theorem unseen_start (iface : Bytes) (ml dump : Bool) (k : FlowKey) :
    (start iface ml dump).Unseen k :=
  ⟨EngineRun.sound_start iface ml dump, rfl, rfl⟩

/-- A flow stays unseen until its first packet. -/
theorem Unseen.next (h : w.Unseen k) (op : PipelineOp)
    (hout : pathsOf k [(w.step env fd op).2] = []) : (w.next env fd op).Unseen k := by
  have hsound := step_sound env fd h.sound op
  have hsame {w' : Pipeline} (hs : Same k w w') (hw' : w'.daemon.Sound) : w'.Unseen k :=
    ⟨hw', hs.ringOf.trans h.ringOf, hs.daemonEntry.trans h.daemonEntry⟩
  cases op with
  | packet p =>
    rcases step_packet_cases env fd w p k with ⟨-, hs⟩ | ⟨_, path, -, hpath, -⟩
    · exact hsame hs hsound
    · rw [hpath] at hout
      cases hout
  | deliver a =>
    rcases step_deliver_flow env fd h.sound a k with hs | ⟨evt, -, -, hring, -⟩
    · exact hsame hs hsound
    · rw [h.ringOf] at hring
      cases hring
  | drained =>
    rcases step_drained_cases env fd w with heq | ⟨-, heq⟩ <;> rw [heq] <;>
      exact ⟨h.sound, h.ringOf, h.daemonEntry⟩
  | age now =>
    rcases step_age_daemon env fd h.sound now with heq | ⟨-, d, heq, hd, -, hlookup⟩
    · rwa [heq]
    · have hnone : (w.daemonEntry k).filter (fun f => !f.isIdle now) = none := by
        rw [h.daemonEntry]
        rfl
      rw [heq]
      exact ⟨hd, h.ringOf, (hlookup k).trans hnone⟩
  | loop => exact ⟨hsound, h.ringOf, h.daemonEntry⟩

/-- No step counts an unseen flow, unless it is a packet of the flow. -/
theorem Unseen.notMem_countedFlows (h : w.Unseen k) (op : PipelineOp)
    (hout : pathsOf k [(w.step env fd op).2] = []) :
    k ∉ (w.countedFlows env fd op).map Prod.fst := by
  rw [countedFlows, mem_map_filter_iff]
  rintro ⟨⟨_, app⟩, hx, rfl, -⟩
  cases op with
  | packet p =>
    rw [flowsOf, Kernel.countedFlows] at hx
    simp only [List.mem_flatMap, Option.mem_toList, List.mem_map, Prod.mk.injEq] at hx
    obtain ⟨⟨_, tot⟩, hparse, app', -, rfl, -⟩ := hx
    rw [step, processPkt_of_some hparse] at hout
    simp [pathsOf, List.reduceOption] at hout
  | deliver a =>
    rw [flowsOf] at hx
    split at hx
    case h_1 evt rest hphase hring =>
      simp only [EngineRun.countedFlows, List.mem_map, Prod.mk.injEq] at hx
      obtain ⟨f, -, rfl, -⟩ := hx
      have hempty := h.ringOf
      simp [Pipeline.ringOf, hring] at hempty
    case h_2 => cases hx
  | drained | loop => cases hx
  | age now =>
    rw [flowsOf] at hx
    split at hx
    case isTrue =>
      simp only [EngineRun.countedFlows, List.mem_map, Prod.mk.injEq] at hx
      obtain ⟨f, hf, rfl, -⟩ := hx
      have hnone := h.daemonEntry
      rw [Pipeline.daemonEntry, (h.sound.mem_idle_iff.mp hf).1] at hnone
      cases hnone
    case isFalse => cases hx

/-- The flows whose packets the kernel program has accepted. -/
def seenFlows (outs : List (Option PktOut)) : Finset FlowKey :=
  (outs.reduceOption.map PktOut.key).toFinset

theorem mem_seenFlows_iff {outs : List (Option PktOut)} :
    k ∈ seenFlows outs ↔ pathsOf k outs ≠ [] := by
  rw [seenFlows, pathsOf, ne_eq, List.map_eq_nil_iff, List.filter_eq_nil_iff]
  simp

/-- A run counts only flows that it has seen. -/
theorem Unseen.mem_seenFlows (h : w.Unseen k) (ops : List PipelineOp)
    (hk : k ∈ (emitted (Pipeline.next env fd) (countedFlows env fd) w ops).map Prod.fst) :
    k ∈ seenFlows (runOut (step env fd) w ops).2 := by
  induction ops generalizing w with
  | nil => cases hk
  | cons op ops ih =>
    rw [emitted, List.map_append, List.mem_append] at hk
    rw [mem_seenFlows_iff, runOut]
    dsimp only
    rw [Kernel.pathsOf_cons]
    by_cases hout : pathsOf k [(w.step env fd op).2] = []
    · have hrest := ih (h.next env fd op hout)
        (hk.resolve_left (h.notMem_countedFlows env fd op hout))
      rw [hout, List.nil_append]
      exact mem_seenFlows_iff.mp hrest
    · exact fun hnil => hout (List.append_eq_nil_iff.mp hnil).1

theorem flowCount_start (iface : Bytes) (ml dump : Bool) (n : ℕ) (i : Fin numApps) :
    flowCount n i (start iface ml dump) = 0 := by
  rw [flowCount]
  exact (Nat.zero_add _).trans (Finset.sum_const_zero)

/-- No flow has been counted at the start. -/
theorem not_countedFlow_start (iface : Bytes) (ml dump : Bool) (k : FlowKey) :
    ¬(start iface ml dump).CountedFlow k := by
  rintro (⟨app, happ, -⟩ | ⟨f, hf, -⟩ | ⟨f, hf, -⟩)
  · cases happ
  · cases hf
  · cases hf

/-- The merged flows of an application are at most the flows that the run has counted under it. -/
theorem merged_flows_le (iface : Bytes) (ml dump : Bool) (ops : List PipelineOp) {i : MetricsIn}
    (hi : i.ReadsFrom (run (next env fd) (start iface ml dump) ops).kernel) (app : Fin numApps) :
    (i.merged (run (next env fd) (start iface ml dump) ops).daemon.engine.appFlows ObsAppCnt.flows
        app).toNat ≤
      (emitted (next env fd) (countedFlows env fd) (start iface ml dump) ops).countP
        fun x => x.2.toNat = app.val := by
  have hcount := le_add_countP_emitted (P := fun _ : Pipeline => True) (fun _ _ _ => trivial)
    (fun w op _ => flowCount_next_le env fd w op i.ncpu app) (s := start iface ml dump) trivial ops
  rw [flowCount_start, zero_add] at hcount
  exact (MetricsIn.toNat_merged_le hi _ _ app).trans hcount

/-- **Merged flow counts.** A run counts no flow twice if and only if no step counts a flow that
has been counted before. In such a run the merged flows of all applications are together at most
the flows that have been seen. -/
theorem merged_flows_run (iface : Bytes) (ml dump : Bool) (ops : List PipelineOp) :
    let w₀ := start iface ml dump
    let w := run (next env fd) w₀ ops
    (((emitted (next env fd) (countedFlows env fd) w₀ ops).map Prod.fst).Nodup ↔
      Along (next env fd) (CountsFresh env fd) w₀ ops) ∧
    (Along (next env fd) (CountsFresh env fd) w₀ ops → ∀ i : MetricsIn, i.ReadsFrom w.kernel →
      ∑ app, (i.merged w.daemon.engine.appFlows ObsAppCnt.flows app).toNat ≤
        (seenFlows (runOut (step env fd) w₀ ops).2).card) := by
  intro w₀ w
  have hsound : w₀.daemon.Sound := EngineRun.sound_start iface ml dump
  have hkeys : ((emitted (next env fd) (countedFlows env fd) w₀ ops).map Prod.fst).Nodup ↔
      Along (next env fd) (CountsFresh env fd) w₀ ops := by
    have hnodup := @nodup_emitted_iff _ _ (next env fd) _
      (fun w op => (countedFlows env fd w op).map Prod.fst) (fun k w => w.CountedFlow k)
      (fun w => w.daemon.Sound) _
      (fun w op hw => step_sound env fd hw op) (fun w op k hw => countedFlow_next env fd hw op k)
      (fun w op hw => nodup_countedFlows env fd hw op)
      (fun w op _ => countsFresh_iff env fd w op) w₀ hsound ops
    rw [emitted_map] at hnodup
    exact (and_iff_left fun k _ => not_countedFlow_start iface ml dump k).symm.trans hnodup
  refine ⟨hkeys, fun h i hi => ?_⟩
  let l := emitted (next env fd) (countedFlows env fd) w₀ ops
  calc ∑ app, (i.merged w.daemon.engine.appFlows ObsAppCnt.flows app).toNat
      ≤ ∑ app : Fin numApps, l.countP fun x => x.2.toNat = app.val :=
        Finset.sum_le_sum fun app _ => merged_flows_le env fd iface ml dump ops hi app
    _ ≤ l.length := Ledger.sum_countP_le_length l fun x => x.2.toNat
    _ = (l.map Prod.fst).toFinset.card := by
        rw [List.toFinset_card_of_nodup (hkeys.mpr h), List.length_map]
    _ ≤ (seenFlows (runOut (step env fd) w₀ ops).2).card := by
        refine Finset.card_le_card fun k hk => ?_
        exact (unseen_start iface ml dump k).mem_seenFlows env fd ops (List.mem_toFinset.mp hk)

/-- A flow that nDPI does not know is counted by the kernel alone, when it gives the flow up. -/
theorem merged_flows_run_unknown :
    let w := run (next default 3) (start [] true false) (eightPackets {})
    ∑ app, ((MetricsIn.ofKernel w.kernel 1).merged w.daemon.engine.appFlows ObsAppCnt.flows
      app).toNat ≤ 1 := by
  intro w
  have hseen :
      (seenFlows (runOut (step default 3) (start [] true false) (eightPackets {})).2).card = 1 := by
    decide +kernel
  rw [← hseen]
  exact (merged_flows_run default 3 [] true false (eightPackets {})).2 (by decide +kernel) _
    (MetricsIn.readsFrom_ofKernel w.kernel 1)

/-- A flow that nDPI knows is counted by the daemon at the verdict and by the kernel at the next
packet. -/
theorem known_flow_counted_twice : ¬ ∀ (env : Env) (fd : ℤ) (iface : Bytes) (ml dump : Bool)
    (ops : List PipelineOp) (i : MetricsIn),
    let w := run (next env fd) (start iface ml dump) ops
    i.ReadsFrom w.kernel →
      ∑ app, (i.merged w.daemon.engine.appFlows ObsAppCnt.flows app).toNat ≤
        (seenFlows (runOut (step env fd) (start iface ml dump) ops).2).card := by
  intro h
  let ops : List PipelineOp :=
    [.packet udpPkt, .deliver { detection := { app := 5 } }, .packet udpPkt]
  let w := run (next default 3) (start [] true false) ops
  have hle := h default 3 [] true false ops (MetricsIn.ofKernel w.kernel 1)
    (MetricsIn.readsFrom_ofKernel w.kernel 1)
  have hseen : (seenFlows (runOut (step default 3) (start [] true false) ops).2).card = 1 := by
    decide +kernel
  have htwo : ((MetricsIn.ofKernel w.kernel 1).merged w.daemon.engine.appFlows ObsAppCnt.flows
      5).toNat = 2 := by
    decide +kernel
  have hterm := Finset.single_le_sum (f := fun app => ((MetricsIn.ofKernel w.kernel 1).merged
    w.daemon.engine.appFlows ObsAppCnt.flows app).toNat) (fun _ _ => Nat.zero_le _)
    (Finset.mem_univ (5 : Fin numApps))
  rw [hseen] at hle
  have hone := hterm.trans hle
  rw [htwo] at hone
  exact absurd hone (by decide)

end Pipeline

end NdpiObserve
