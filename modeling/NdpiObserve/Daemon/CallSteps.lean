import NdpiObserve.Daemon.CallCredits

/-!
# What one call changes

The outcome of a call of `ndpi_engine_process` on an entry is a function of the entry and of the
answers (`FlowEntry.exit`), and `Call.process_eq` is the body of the call, one stage for each
outcome. The results below are what later proofs use of a call: they never unfold it.

## Main definitions

* `Exit`, `FlowEntry.exit`: the ways through the body of `ndpi_engine_process`.
* `Call.core`: the part of a call that no verdict touches.
* `Totals`, `FlowEntry.share`: the totals, and what one flow adds to them.

## Main results

* `Call.process_eq`: the body of a call, by its exit.
* `Call.process_records`: the counters, the credits and the postings of a whole call.
* `Call.process_meters`, `Call.process_totals`, `Call.process_flows`: the packet counters of the
  entry, the totals, and the flow table.
-/

namespace NdpiObserve

open Ledger

/-! ### What no verdict touches -/

/-- The effect writes to the verdict map. -/
def Effect.publishes : Effect → Bool
  | .verdictMapUpdate _ _ => true
  | _ => false

namespace Call

/-- The call without everything that the verdict stages change: the decision and the hostname of
the flow, its nDPI flow structure, the flow counters, the credits, the labels, the DNS cache and
the effects other than writes to the verdict map. -/
def core (c : Call) : Call where
  engine := { c.engine with
    flowsClassified := 0, flowsGuessed := 0, flowsMlClassified := 0, flowsGaveUp := 0
    appClassified := fun _ _ => 0, dynLabels := [], dnsCache := fun _ => {} }
  flow := { c.flow with
    state := .new, appId := 0, category := 0, classified := 0, creditMethod := .none, sni := []
    ndpiFlow := none }
  effects := c.effects.filter Effect.publishes

theorem core_append (c : Call) {l : List Effect} (hl : ∀ x ∈ l, x.publishes = false) :
    { c with effects := c.effects ++ l }.core = c.core := by
  have hnil : l.filter Effect.publishes = [] :=
    List.filter_eq_nil_iff.mpr fun x hx => by simp [hl x hx]
  simp only [core, List.filter_append, hnil, List.append_nil]

theorem credit_core (c : Call) (m : CreditMethod) : (c.credit m).core = c.core := by
  refine (core_append { c with engine := c.engine.addClassified m c.flow.appId 1 }
    fun x hx => ?_).trans rfl
  split at hx
  · rw [List.mem_singleton.mp hx]
    rfl
  · cases hx

theorem debit_core (c : Call) (m : CreditMethod) : (c.debit m).core = c.core := by
  refine (core_append { c with engine := c.engine.addClassified m c.flow.appId (-1) }
    fun x hx => ?_).trans rfl
  split at hx
  · rw [List.mem_singleton.mp hx]
    rfl
  · cases hx

theorem moveCredit_core (c : Call) (m : CreditMethod) (aiId : UInt16) (fromDns : Bool) :
    (c.moveCredit m aiId fromDns).core = c.core := by
  rw [Call.moveCredit]
  split
  · exact (credit_core { c.debit m with flow := { c.flow with appId := aiId } }
      (if fromDns then .dns else .sni)).trans (debit_core c m)
  · rfl

theorem overrideByHost_core (env : Env) (c : Call) (m : CreditMethod) (serverName : Bytes)
    (time : ℤ) : (c.overrideByHost env m serverName time).core = c.core := by
  obtain ⟨sni, labels, cache, aiId, fromDns, h⟩ :=
    exists_overrideByHost_eq env c m serverName time
  rw [h, moveCredit_core]
  rfl

theorem freeNdpiFlow_core (c : Call) : c.freeNdpiFlow.core = c.core := by
  refine (core_append { c with flow := { c.flow with ndpiFlow := none } } fun x hx => ?_).trans rfl
  obtain ⟨p, -, rfl⟩ := List.mem_map.mp hx
  rfl

theorem ndpiVerdict_core (env : Env) (a : Answers) (c : Call) :
    (c.ndpiVerdict env a).core = c.core :=
  (freeNdpiFlow_core _).trans
    ((overrideByHost_core env _ .ndpi a.detectionHost a.timeHost).trans (credit_core _ .ndpi))

theorem giveupStep_core (env : Env) (a : Answers) (c : Call) :
    (c.giveupStep env a).core = c.core := by
  have hemit : (c.emit .detectionGiveup).core = c.core :=
    core_append c (by simp [Effect.publishes])
  rw [Call.giveupStep]
  split
  · refine (overrideByHost_core env _ .giveup a.giveupHost a.timeHost).trans ?_
    refine (credit_core _ .giveup).trans (Eq.trans ?_ hemit)
    exact core_append _ (by simp [Effect.publishes])
  · exact hemit

theorem undoGuess_core (c : Call) : c.undoGuess.core = c.core := by
  have hback (d : Call) (x : UInt64) : Call.core { d with
      engine := { d.engine with flowsGuessed := x }
      effects := d.effects ++ [Effect.unguessed] } = d.core :=
    core_append { d with engine := { d.engine with flowsGuessed := x } }
      (by simp [Effect.publishes])
  rw [undoGuess]
  refine (hback _ _).trans ?_
  split
  · exact debit_core c .giveup
  · exact debit_core c .sni
  · exact debit_core c .dns
  · rfl

theorem mlStep_core (env : Env) (a : Answers) (c : Call) : (c.mlStep env a).core = c.core := by
  dsimp only [Call.mlStep]
  have hemit : (c.emit (.mlClassify (mlFeatures env c.flow.key c.flow))).core = c.core :=
    core_append c (by simp [Effect.publishes])
  split
  · split
    · refine (credit_core _ .ml).trans ?_
      split
      · exact (undoGuess_core (c.emit _)).trans hemit
      · exact hemit
    · exact hemit
  · rfl

theorem lastResort_core (env : Env) (a : Answers) (c : Call) :
    (c.lastResort env a).core = c.core := by
  dsimp only [Call.lastResort]
  have hsteps : (if c.engine.mlEnabled then (c.giveupStep env a).mlStep env a else c).core =
      c.core := by
    split
    · rw [mlStep_core, giveupStep_core]
    · rfl
  rw [freeNdpiFlow_core, ← hsteps]
  generalize (if c.engine.mlEnabled then (c.giveupStep env a).mlStep env a else c) = d
  split <;> rfl

/-- The end of a call with a verdict: it is published, and the flow is added to the totals. -/
theorem exists_verdictTail_eq (env : Env) (fd : ℤ) (c : Call) :
    ∃ rows, c.verdictTail env fd = { c with
      engine := { c.engine.addTotals env c.flow with dumpFeatures := rows }
      effects := c.effects ++
        if fd ≥ 0 then [.verdictMapUpdate c.flow.key c.flow.appId] else [] } := by
  have hpublish : c.publish fd c.flow.appId = { c with
      effects := c.effects ++
        if fd ≥ 0 then [.verdictMapUpdate c.flow.key c.flow.appId] else [] } := by
    rw [publish]
    split <;> simp [emit]
  rw [verdictTail, hpublish]
  dsimp only [dumpRow, creditVerdict, Engine.addTotals]
  cases c.engine.dumpFeatures with
  | none => exact ⟨none, rfl⟩
  | some rows =>
    dsimp only
    split
    · exact ⟨_, rfl⟩
    · exact ⟨some rows, rfl⟩

theorem Records.verdictTail {e : Engine} {x : Ending} {c : Call} (h : Records e x c) (env : Env)
    (fd : ℤ) : Records e x (c.verdictTail env fd) := by
  obtain ⟨rows, heq⟩ := exists_verdictTail_eq env fd c
  rw [heq]
  refine h.of_creditView_eq ?_
  have hpost : postings (if fd ≥ 0 then [.verdictMapUpdate c.flow.key c.flow.appId] else []) =
      [] := by
    split <;> rfl
  simp [creditView, Engine.addTotals, hpost]

end Call

/-! ### The exits of a call -/

/-- The ways through the body of `ndpi_engine_process`. -/
inductive Exit where
  | cached
  | emptyPending
  | emptyGaveUp
  | allocFailed
  | classified
  | pending
  | lastResort
deriving DecidableEq

/-- The way of an event through the body, from the entry before it and nDPI's answers. -/
def FlowEntry.exit (f : FlowEntry) (evt : FlowEvent) (a : Answers) : Exit :=
  if f.state.isTerminal then .cached
  else if evt.actualDataLen = 0 then
    if f.pktCount + 1 ≥ flowMaxClassifyPkts then .emptyGaveUp else .emptyPending
  else if f.ndpiFlow = none ∧ a.ndpiMalloc = none then .allocFailed
  else if a.detection.isKnown then .classified
  else if f.pktCount + 1 ≥ flowMaxClassifyPkts then .lastResort else .pending

/-- The exit ends with the verdict tail, which adds the flow to the totals. -/
def Exit.hasTail : Exit → Bool
  | .classified | .lastResort => true
  | _ => false

/-- The exit decides the flow. -/
def Exit.decides : Exit → Bool
  | .emptyGaveUp | .allocFailed | .classified | .lastResort => true
  | .cached | .emptyPending | .pending => false

/-- The exit writes the flow's verdict to the verdict map. -/
def Exit.publishes : Exit → Bool
  | .emptyGaveUp | .classified | .lastResort => true
  | _ => false

theorem Exit.decides_of_publishes {y : Exit} (h : y.publishes = true) : y.decides = true := by
  cases y <;> simp_all [Exit.publishes, Exit.decides]

/-- How each exit may leave a flow that was not decided. -/
def Exit.Allows : Exit → Ending → Prop
  | .cached, _ => False
  | .emptyPending, x | .pending, x => x = .undecided
  | .emptyGaveUp, x | .allocFailed, x => x = .gaveUp
  | .classified, x => x = .direct
  | .lastResort, x => x = .guessed ∨ x = .model ∨ x = .gaveUp

/-- A deciding exit leaves the flow decided. -/
theorem Exit.Allows.isTerminal {y : Exit} {x : Ending} (h : y.Allows x) (hy : y.decides = true)
    {f : FlowEntry} (hf : x.Leaves f) : f.state.isTerminal = true := by
  cases y <;> simp only [Exit.decides, Bool.false_eq_true] at hy <;> simp only [Exit.Allows] at h
  all_goals
    rcases h with rfl | rfl | rfl
    all_goals simp_all [Ending.Leaves, FlowState.isTerminal]

/-- The other exits leave it undecided, without a verdict tail. -/
theorem Exit.Allows.undecided {y : Exit} {x : Ending} (h : y.Allows x) (hy : y.decides = false) :
    x = .undecided ∧ y.hasTail = false := by
  cases y <;> simp_all [Exit.decides, Exit.Allows, Exit.hasTail]

namespace Call

/-- The entry is touched and the packet counted. -/
def counted (evt : FlowEvent) (a : Answers) (c : Call) : Call :=
  { c with flow := { c.flow with lastSeen := a.timeSeen } }.countPacket evt

/-- The packet is counted and given to nDPI. -/
def scanned (evt : FlowEvent) (a : Answers) (c : Call) : Call :=
  (((c.counted evt a).ensureNdpiFlow a).getD (c.counted evt a)).scan evt a

/-- The flow is given up on a packet without payload. -/
def giveUpEmpty (fd : ℤ) (c : Call) : Call :=
  { c with
    flow := { c.flow with appId := 0, state := .gaveUp }
    engine := { c.engine with flowsGaveUp := c.engine.flowsGaveUp + 1 } }.publish fd 0

theorem ensureNdpiFlow_eq_some {a : Answers} {c d : Call} (h : c.ensureNdpiFlow a = some d) :
    ∃ p l, (∀ x ∈ l, ∃ q, x = Effect.ndpiFlowMalloc q) ∧ d = { c with
      flow := { c.flow with ndpiFlow := some p }, effects := c.effects ++ l } := by
  rw [ensureNdpiFlow] at h
  cases hp : c.flow.ndpiFlow with
  | some p =>
    rw [hp] at h
    refine ⟨p, [], by simp, ?_⟩
    rw [← Option.some.inj h, ← hp, List.append_nil]
  | none =>
    rw [hp] at h
    obtain ⟨p, -, rfl⟩ := Option.map_eq_some_iff.mp h
    exact ⟨p, [.ndpiFlowMalloc p], by simp, rfl⟩

/-- Scanning changes the nDPI flow structure, the features and two counters. -/
theorem exists_scanned_eq (evt : FlowEvent) (a : Answers) (c : Call) :
    ∃ ptr l, postings l = [] ∧ (∀ x ∈ l, x.publishes = false) ∧
      c.scanned evt a = { c with
        flow := mlAccumulate evt { (c.counted evt a).flow with ndpiFlow := ptr }
        engine := { c.engine with
          pktsScanned := c.engine.pktsScanned + 1
          ndpiCalls := c.engine.ndpiCalls + 1 }
        effects := c.effects ++ l } := by
  rw [scanned]
  cases hd : (c.counted evt a).ensureNdpiFlow a with
  | none => exact ⟨c.flow.ndpiFlow, [_], rfl, by simp [Effect.publishes], rfl⟩
  | some d =>
    obtain ⟨p, l, hl, rfl⟩ := ensureNdpiFlow_eq_some hd
    refine ⟨some p, l ++ [_], ?_, ?_, congrArg (Call.mk _ _) (List.append_assoc _ _ _)⟩
    · rw [postings_append, postings_eq_nil fun x hx => ?_]
      · rfl
      · obtain ⟨q, rfl⟩ := hl x hx
        rfl
    · intro x hx
      rcases List.mem_append.mp hx with hx | hx
      · obtain ⟨q, rfl⟩ := hl x hx
        rfl
      · rw [List.mem_singleton.mp hx]
        rfl

/-- **The body of a call, by its exit.** -/
theorem process_eq (env : Env) (evt : FlowEvent) (fd : ℤ) (a : Answers) (c : Call) :
    c.process env evt fd a =
      match c.flow.exit evt a with
      | .cached => { c with
          flow := { c.flow with lastSeen := a.timeSeen }
          engine := { c.engine with pktsCached := c.engine.pktsCached + 1 } }
      | .emptyPending => c.counted evt a
      | .emptyGaveUp => (c.counted evt a).giveUpEmpty fd
      | .allocFailed => (c.counted evt a).allocationFailed
      | .classified => ((c.scanned evt a).ndpiVerdict env a).verdictTail env fd
      | .pending => c.scanned evt a
      | .lastResort => ((c.scanned evt a).lastResort env a).verdictTail env fd := by
  rw [process, FlowEntry.exit]
  by_cases hterm : c.flow.state.isTerminal = true
  · simp [hterm]
  · simp only [hterm, Bool.false_eq_true, if_false]
    have hcount : (c.counted evt a).flow.pktCount = c.flow.pktCount + 1 := rfl
    have hptr : (c.counted evt a).flow.ndpiFlow = c.flow.ndpiFlow := rfl
    have hfail : (c.counted evt a).ensureNdpiFlow a = none ↔
        c.flow.ndpiFlow = none ∧ a.ndpiMalloc = none := by
      rw [ensureNdpiFlow, hptr]
      cases c.flow.ndpiFlow <;> simp
    split
    · change (c.counted evt a).emptyPacket fd = _
      rw [emptyPacket, hcount]
      split <;> rfl
    · split
      case h_1 hd =>
        rw [if_pos (hfail.mp hd)]
        rfl
      case h_2 d hd =>
        replace hd : (c.counted evt a).ensureNdpiFlow a = some d := hd
        have hscan : d.scan evt a = c.scanned evt a := by
          rw [scanned, hd]
          rfl
        have hcount' : (c.scanned evt a).flow.pktCount = c.flow.pktCount + 1 := by
          obtain ⟨ptr, l, -, -, heq⟩ := exists_scanned_eq evt a c
          rw [heq]
          exact congrArg FlowEntry.pktCount (mlAccumulate_plain evt _)
        rw [if_neg (hfail.not.mp (by simp [hd])), hscan, hcount']
        split
        · rfl
        · split <;> rfl

theorem exit_eq_cached_iff {f : FlowEntry} {evt : FlowEvent} {a : Answers} :
    f.exit evt a = .cached ↔ f.state.isTerminal = true := by
  rw [FlowEntry.exit]
  split_ifs <;> simp_all

/-- What a call on a decided flow does. -/
theorem process_of_isTerminal (env : Env) (evt : FlowEvent) (fd : ℤ) (a : Answers) {c : Call}
    (h : c.flow.state.isTerminal = true) :
    c.process env evt fd a = { c with
      flow := { c.flow with lastSeen := a.timeSeen }
      engine := { c.engine with pktsCached := c.engine.pktsCached + 1 } } := by
  rw [process_eq, exit_eq_cached_iff.mpr h]

/-! ### The records of a whole call -/

theorem records_start {c : Call} (h : c.flow.state.isTerminal = false) (hc : c.effects = []) :
    Records c.engine .undecided c := by
  have hstate : c.flow.state ≠ .classified := by
    intro hs
    simp [hs, FlowState.isTerminal] at h
  refine ⟨⟨fun m app hlt => ?_, ?_, ?_⟩, h, ?_, ?_, ?_, fun m app hlt => ?_, ?_⟩
  all_goals simp [hc, solvent_nil, ofInt_zero, Ending.classifies, FlowEntry.Holds, hstate]

/-- **The records of a call.** A call on a flow that is not decided leaves it in one of the ways
that its exit allows, with the counters and the credit that belong to it. -/
theorem process_records (env : Env) (evt : FlowEvent) (fd : ℤ) (a : Answers) {c : Call}
    (h : c.flow.state.isTerminal = false) (hc : c.effects = []) :
    ∃ x, (c.flow.exit evt a).Allows x ∧ Records c.engine x (c.process env evt fd a) := by
  have hstart := records_start h hc
  have hcounted : Records c.engine .undecided (c.counted evt a) := hstart.of_creditView_eq rfl
  have hscanned : Records c.engine .undecided (c.scanned evt a) := by
    obtain ⟨ptr, l, hl, -, heq⟩ := exists_scanned_eq evt a c
    refine hstart.of_creditView_eq ?_
    have hplain := mlAccumulate_plain evt { (c.counted evt a).flow with ndpiFlow := ptr }
    have hstate := congrArg FlowEntry.state hplain
    have hmethod := congrArg FlowEntry.creditMethod hplain
    have happ := congrArg FlowEntry.appId hplain
    simp only [FlowEntry.plain] at hstate hmethod happ
    rw [heq, creditView, creditView, postings_append, hl, List.append_nil, hstate, hmethod, happ]
    rfl
  rw [process_eq]
  cases hexit : c.flow.exit evt a with
  | cached => simp [exit_eq_cached_iff.mp hexit] at h
  | emptyPending => exact ⟨.undecided, rfl, hcounted⟩
  | emptyGaveUp =>
    refine ⟨.gaveUp, rfl, (hcounted.gaveUp 0).of_creditView_eq ?_⟩
    dsimp only [giveUpEmpty, publish]
    split
    · simp [emit, creditView, postings, Effect.posting]
    · rfl
  | allocFailed => exact ⟨.gaveUp, rfl, hcounted.gaveUp _⟩
  | classified => exact ⟨.direct, rfl, (hscanned.ndpiVerdict env a).verdictTail env fd⟩
  | pending => exact ⟨.undecided, rfl, hscanned⟩
  | lastResort =>
    obtain ⟨x, hx, hrec⟩ := hscanned.lastResort env a
    exact ⟨x, hx, hrec.verdictTail env fd⟩

/-! ### Meters and totals of a whole call -/

end Call

/-- The key and the packet counters of an entry. -/
def FlowEntry.meters (f : FlowEntry) : FlowKey × UInt8 × UInt64 × UInt64 :=
  (f.key, f.pktCount, f.bytes, f.packets)

/-- The totals of the applications and of the categories: bytes, packets and flows. -/
abbrev Totals := (Fin numApps → UInt64 × UInt64 × UInt64) × (Fin numCats → UInt64 × UInt64 × UInt64)

def Engine.totals (e : Engine) : Totals :=
  (fun i => (e.appBytes i, e.appPackets i, e.appFlows i),
    fun i => (e.catBytes i, e.catPackets i, e.catFlows i))

theorem Engine.totals_with_flows (e : Engine) (t : FlowTable) :
    ({ e with flows := t } : Engine).totals = e.totals := rfl

/-- What one flow adds to the totals when it is added once. -/
def FlowEntry.share (env : Env) (f : FlowEntry) : Totals :=
  (fun i => if i.val = f.appId.toNat then (f.bytes, f.packets, 1) else 0,
    fun i => if f.appId.toNat < numApps ∧
        i.val = (ndpiEngineCategoryFor env f.appId f.sni).toNat then
      (f.bytes, f.packets, 1) else 0)

theorem Engine.totals_addTotals (env : Env) (e : Engine) (f : FlowEntry) :
    (e.addTotals env f).totals = e.totals + f.share env := by
  refine Prod.ext (funext fun i => ?_) (funext fun i => ?_)
  · simp only [totals, addTotals, addAt_apply, FlowEntry.share, Prod.fst_add, Pi.add_apply]
    split <;> simp
  · simp only [totals, addTotals, FlowEntry.share, Prod.snd_add, Pi.add_apply]
    by_cases happ : f.appId.toNat < numApps
    · simp only [happ, if_true, true_and, addAt_apply]
      split <;> simp
    · simp [happ]

/-- What is set when the daemon starts: the switch of the model and the interface. -/
def Engine.settings (e : Engine) : Bool × Bytes := (e.mlEnabled, e.iface)

namespace Call

/-- The call `d` has the packet counters of `c`, and the engine of `c` as far as the flow table,
the cached packets and the totals go, with `s` added to the totals. -/
private def Adds (c d : Call) (s : Totals) : Prop :=
  d.flow.meters = c.flow.meters ∧ d.engine.flows = c.engine.flows ∧
    d.engine.pktsCached = c.engine.pktsCached ∧ d.engine.totals = c.engine.totals + s

private theorem adds_of_core {c d : Call} (h : d.core = c.core) : Adds c d 0 :=
  ⟨congrArg (fun c => c.flow.meters) h, congrArg (fun c => c.engine.flows) h,
    congrArg (fun c => c.engine.pktsCached) h,
    (congrArg (fun c => c.engine.totals) h).trans (add_zero _).symm⟩

private theorem adds_verdictTail (env : Env) (fd : ℤ) {c d : Call} (h : Adds c d 0) :
    Adds c (d.verdictTail env fd) ((d.verdictTail env fd).flow.share env) := by
  obtain ⟨hmeters, hflows, hcached, htotals⟩ := h
  obtain ⟨rows, heq⟩ := exists_verdictTail_eq env fd d
  rw [heq]
  refine ⟨hmeters, hflows, hcached, ?_⟩
  rw [add_zero] at htotals
  rw [← htotals]
  exact Engine.totals_addTotals env d.engine d.flow

private theorem adds_scanned (evt : FlowEvent) (a : Answers) (c : Call) :
    Adds (c.counted evt a) (c.scanned evt a) 0 := by
  obtain ⟨ptr, l, -, -, heq⟩ := exists_scanned_eq evt a c
  rw [heq]
  have hmeters := congrArg FlowEntry.meters
    (mlAccumulate_plain evt { (c.counted evt a).flow with ndpiFlow := ptr })
  exact ⟨hmeters, rfl, rfl, (add_zero _).symm⟩

private theorem process_adds (env : Env) (evt : FlowEvent) (fd : ℤ) (a : Answers) (c : Call)
    (h : c.flow.state.isTerminal = false) :
    Adds (c.counted evt a) (c.process env evt fd a)
      (if (c.flow.exit evt a).hasTail then (c.process env evt fd a).flow.share env else 0) := by
  have hscanned := adds_scanned evt a c
  have htrans {d : Call} (hd : d.core = (c.scanned evt a).core) : Adds (c.counted evt a) d 0 := by
    obtain ⟨h₁, h₂, h₃, h₄⟩ := adds_of_core hd
    obtain ⟨k₁, k₂, k₃, k₄⟩ := hscanned
    exact ⟨h₁.trans k₁, h₂.trans k₂, h₃.trans k₃, by rw [h₄, k₄, add_zero]⟩
  rw [process_eq]
  cases hexit : c.flow.exit evt a with
  | cached => simp [exit_eq_cached_iff.mp hexit] at h
  | emptyPending => exact ⟨rfl, rfl, rfl, (add_zero _).symm⟩
  | emptyGaveUp =>
    dsimp only [giveUpEmpty, publish]
    split <;> exact ⟨rfl, rfl, rfl, (add_zero _).symm⟩
  | allocFailed => exact ⟨rfl, rfl, rfl, (add_zero _).symm⟩
  | classified => exact adds_verdictTail env fd (htrans (ndpiVerdict_core env a _))
  | pending => exact hscanned
  | lastResort => exact adds_verdictTail env fd (htrans (lastResort_core env a _))

variable (env : Env) (evt : FlowEvent) (fd : ℤ) (a : Answers) (c : Call)

/-- The packet is counted, unless the flow is decided. -/
theorem process_meters : (c.process env evt fd a).flow.meters =
    if c.flow.state.isTerminal then c.flow.meters
    else (c.flow.key, c.flow.pktCount + 1, c.flow.bytes + evt.pktLen.toUInt64,
      c.flow.packets + 1) := by
  cases h : c.flow.state.isTerminal with
  | true =>
    rw [process_of_isTerminal env evt fd a h]
    rfl
  | false => exact (process_adds env evt fd a c h).1

theorem process_key : (c.process env evt fd a).flow.key = c.flow.key := by
  have h := congrArg Prod.fst (process_meters env evt fd a c)
  split at h <;> exact h

theorem process_flows : (c.process env evt fd a).engine.flows = c.engine.flows := by
  cases h : c.flow.state.isTerminal with
  | true => rw [process_of_isTerminal env evt fd a h]
  | false => exact (process_adds env evt fd a c h).2.1

/-- The flow is added to the totals once, on the exits with a verdict tail. -/
theorem process_totals : (c.process env evt fd a).engine.totals = c.engine.totals +
    if (c.flow.exit evt a).hasTail then (c.process env evt fd a).flow.share env else 0 := by
  cases h : c.flow.state.isTerminal with
  | true =>
    rw [exit_eq_cached_iff.mpr h, process_of_isTerminal env evt fd a h]
    exact (add_zero _).symm
  | false => exact (process_adds env evt fd a c h).2.2.2

theorem settings_of_core {c d : Call} (h : c.core = d.core) :
    c.engine.settings = d.engine.settings := by
  have hsettings := congrArg (fun c => c.engine.settings) h
  exact hsettings

theorem scanned_settings : (c.scanned evt a).engine.settings = c.engine.settings := by
  obtain ⟨ptr, l, -, -, heq⟩ := exists_scanned_eq evt a c
  rw [heq]
  rfl

/-- A call leaves the settings alone. -/
theorem process_settings : (c.process env evt fd a).engine.settings = c.engine.settings := by
  have htail (d : Call) : (d.verdictTail env fd).engine.settings = d.engine.settings := by
    obtain ⟨rows, heq⟩ := exists_verdictTail_eq env fd d
    rw [heq]
    rfl
  rw [process_eq]
  cases c.flow.exit evt a with
  | cached | emptyPending | allocFailed => rfl
  | emptyGaveUp =>
    dsimp only [giveUpEmpty, publish]
    split <;> rfl
  | classified =>
    dsimp only
    rw [htail, settings_of_core (ndpiVerdict_core env a _), scanned_settings]
  | pending => exact scanned_settings evt a c
  | lastResort =>
    dsimp only
    rw [htail, settings_of_core (lastResort_core env a _), scanned_settings]

/-- The key and the writes to the verdict map of the scanned call. -/
private theorem scanned_published (hc : c.effects = []) :
    (c.scanned evt a).flow.key = c.flow.key ∧
      (c.scanned evt a).effects.filter Effect.publishes = [] := by
  obtain ⟨ptr, l, -, hl, heq⟩ := exists_scanned_eq evt a c
  have hkey := congrArg FlowEntry.key
    (mlAccumulate_plain evt { (c.counted evt a).flow with ndpiFlow := ptr })
  rw [heq]
  refine ⟨hkey, ?_⟩
  rw [hc, List.nil_append]
  exact List.filter_eq_nil_iff.mpr fun x hx => by simp [hl x hx]

private theorem verdictTail_published {d : Call} (hd : d.core = (c.scanned evt a).core)
    (hc : c.effects = []) :
    (d.verdictTail env fd).effects.filter Effect.publishes =
      if fd ≥ 0 then [.verdictMapUpdate c.flow.key (d.verdictTail env fd).flow.appId] else [] := by
  obtain ⟨hkey, hnil⟩ := scanned_published evt a c hc
  have hkey' : d.flow.key = c.flow.key := (congrArg (fun c => c.flow.key) hd).trans hkey
  have hnil' : d.effects.filter Effect.publishes = [] := (congrArg Call.effects hd).trans hnil
  obtain ⟨rows, heq⟩ := exists_verdictTail_eq env fd d
  rw [heq]
  dsimp only
  rw [List.filter_append, hnil', hkey', List.nil_append]
  split <;> rfl

/-- **The published verdict.** A call writes to the verdict map at most once: the application of
its flow, on the exits that publish. -/
theorem process_published (hc : c.effects = []) :
    (c.process env evt fd a).effects.filter Effect.publishes =
      if fd ≥ 0 ∧ (c.flow.exit evt a).publishes then
        [.verdictMapUpdate c.flow.key (c.process env evt fd a).flow.appId]
      else [] := by
  rw [process_eq]
  cases c.flow.exit evt a with
  | cached => simp [hc, Exit.publishes]
  | emptyPending => simp [hc, Exit.publishes, counted, countPacket]
  | emptyGaveUp =>
    dsimp only [giveUpEmpty, publish]
    split <;> simp_all [Exit.publishes, counted, countPacket, emit, Effect.publishes]
  | allocFailed => simp [hc, Exit.publishes, counted, countPacket, allocationFailed]
  | classified =>
    rw [verdictTail_published env evt fd a c (ndpiVerdict_core env a _) hc]
    simp [Exit.publishes]
  | pending =>
    rw [(scanned_published evt a c hc).2]
    simp [Exit.publishes]
  | lastResort =>
    rw [verdictTail_published env evt fd a c (lastResort_core env a _) hc]
    simp [Exit.publishes]

section Entry

variable (env : Env) (evt : FlowEvent) (fd : ℤ) (a : Answers) (e : Engine) {f : FlowEntry}

/-- A decided flow keeps its decision, and its credit where it is. -/
theorem process_decision (h : f.state.isTerminal = true) :
    let c := Call.process env evt fd a { engine := e, flow := f }
    c.flow.state = f.state ∧ c.flow.creditMethod = f.creditMethod ∧ c.flow.appId = f.appId := by
  dsimp only
  rw [process_of_isTerminal env evt fd a (c := { engine := e, flow := f }) h]
  exact ⟨rfl, rfl, rfl⟩

/-- A flow is decided after a call if it was before, or on an exit that decides. -/
theorem process_isTerminal :
    (Call.process env evt fd a { engine := e, flow := f }).flow.state.isTerminal =
      (f.state.isTerminal || (f.exit evt a).decides) := by
  cases h : f.state.isTerminal with
  | true => rw [process_of_isTerminal env evt fd a (c := { engine := e, flow := f }) h, h]; rfl
  | false =>
    obtain ⟨x, hx, hrec⟩ := process_records env evt fd a (c := { engine := e, flow := f }) h rfl
    cases hdec : (f.exit evt a).decides with
    | true => exact hx.isTerminal hdec hrec.leaves
    | false =>
      obtain ⟨rfl, -⟩ := hx.undecided hdec
      exact hrec.leaves

/-- The records of a call on an entry that is not decided. -/
theorem process_records_entry (h : f.state.isTerminal = false) :
    ∃ x, (f.exit evt a).Allows x ∧
      Records e x (Call.process env evt fd a { engine := e, flow := f }) :=
  process_records env evt fd a (c := { engine := e, flow := f }) h rfl

end Entry

end Call

end NdpiObserve
