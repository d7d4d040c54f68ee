import NdpiObserve.Daemon.MlRescue

/-!
# What one call does outside

Besides the credits that it moves, a call of `ndpi_engine_process` allocates and releases nDPI
flow structures, asks nDPI and the model, and writes to the verdict map and to the feature dump.
Which of these it does, and in which order, is a function of the exit of the call.

## Main definitions

* `Call.outside`: the calls outside the engine so far, and the nDPI flow structure of the entry.
* `Call.scanCalls`, `Call.lastResortCalls`: the calls of the two parts that ask nDPI.
* `Call.newRows`: the row that a verdict adds to the feature dump.

## Main results

* `Call.process_outside`: the calls of a whole call, by its exit.
* `Call.process_dumpFeatures`: the feature dump after a whole call.
-/

namespace NdpiObserve

/-- The effect is a call outside the engine. The others move credits. -/
def Effect.isOutside (x : Effect) : Bool := x.posting = none

namespace Call

/-- The calls outside the engine so far, in order, and the nDPI flow structure of the entry. -/
def outside (c : Call) : List Effect × Option NdpiFlowPtr :=
  (c.effects.filter Effect.isOutside, c.flow.ndpiFlow)

/-! ### The stages of a verdict -/

/-- Effects that are not calls. -/
theorem outside_append (c : Call) {l : List Effect} (hl : ∀ x ∈ l, x.isOutside = false) :
    { c with effects := c.effects ++ l }.outside = c.outside := by
  have hnil : l.filter Effect.isOutside = [] :=
    List.filter_eq_nil_iff.mpr fun x hx => by simp [hl x hx]
  simp only [outside, List.filter_append, hnil, List.append_nil]

/-- Effects that are calls. -/
theorem outside_append_calls (c : Call) {l : List Effect} (hl : ∀ x ∈ l, x.isOutside = true) :
    { c with effects := c.effects ++ l }.outside = (c.outside.1 ++ l, c.outside.2) := by
  simp only [outside, List.filter_append, List.filter_eq_self.mpr hl]

theorem outside_credit (c : Call) (m : CreditMethod) : (c.credit m).outside = c.outside := by
  refine outside_append { c with engine := c.engine.addClassified m c.flow.appId 1 } fun x hx => ?_
  split at hx
  · rw [List.mem_singleton.mp hx]
    rfl
  · cases hx

theorem outside_debit (c : Call) (m : CreditMethod) : (c.debit m).outside = c.outside := by
  refine outside_append { c with engine := c.engine.addClassified m c.flow.appId (-1) }
    fun x hx => ?_
  split at hx
  · rw [List.mem_singleton.mp hx]
    rfl
  · cases hx

theorem outside_moveCredit (c : Call) (m : CreditMethod) (aiId : UInt16) (fromDns : Bool) :
    (c.moveCredit m aiId fromDns).outside = c.outside := by
  rw [moveCredit]
  split
  · exact (outside_credit { c.debit m with flow := { c.flow with appId := aiId } }
      (if fromDns then .dns else .sni)).trans (outside_debit c m)
  · rfl

theorem outside_overrideByHost (env : Env) (c : Call) (m : CreditMethod) (serverName : Bytes)
    (time : ℤ) : (c.overrideByHost env m serverName time).outside = c.outside := by
  obtain ⟨sni, labels, cache, aiId, fromDns, h⟩ :=
    exists_overrideByHost_eq env c m serverName time
  rw [h, outside_moveCredit]
  rfl

/-- The release of an nDPI flow structure. -/
def freeCalls (ptr : Option NdpiFlowPtr) : List Effect := ptr.toList.map .ndpiFlowFree

theorem outside_freeNdpiFlow (c : Call) :
    c.freeNdpiFlow.outside = (c.outside.1 ++ freeCalls c.outside.2, none) := by
  have hcalls : ∀ x ∈ freeCalls c.outside.2, x.isOutside = true := by
    intro x hx
    obtain ⟨p, -, rfl⟩ := List.mem_map.mp hx
    rfl
  exact outside_append_calls { c with flow := { c.flow with ndpiFlow := none } } hcalls

theorem outside_ndpiVerdict (env : Env) (a : Answers) (c : Call) :
    (c.ndpiVerdict env a).outside = (c.outside.1 ++ freeCalls c.outside.2, none) := by
  refine (outside_freeNdpiFlow _).trans ?_
  rw [outside_overrideByHost]
  have hcredit := outside_credit { c.classify a.detection with
    engine := { c.engine with flowsClassified := c.engine.flowsClassified + 1 } } .ndpi
  exact congrArg (fun o => (o.1 ++ freeCalls o.2, (none : Option NdpiFlowPtr))) hcredit

theorem outside_giveupStep (env : Env) (a : Answers) (c : Call) :
    (c.giveupStep env a).outside = (c.outside.1 ++ [.detectionGiveup], c.outside.2) := by
  have hemit : (c.emit .detectionGiveup).outside =
      (c.outside.1 ++ [.detectionGiveup], c.outside.2) :=
    outside_append_calls c (by simp [Effect.isOutside, Effect.posting])
  rw [giveupStep, ← hemit]
  split
  · refine (outside_overrideByHost env _ .giveup a.giveupHost a.timeHost).trans ?_
    refine (outside_credit _ .giveup).trans ?_
    exact outside_append (c.emit .detectionGiveup) (by simp [Effect.isOutside, Effect.posting])
  · rfl

theorem outside_undoGuess (c : Call) : c.undoGuess.outside = c.outside := by
  have hback (d : Call) (x : UInt64) : Call.outside { d with
      engine := { d.engine with flowsGuessed := x }
      effects := d.effects ++ [Effect.unguessed] } = d.outside :=
    outside_append { d with engine := { d.engine with flowsGuessed := x } }
      (by simp [Effect.isOutside, Effect.posting])
  rw [undoGuess]
  refine (hback _ _).trans ?_
  split
  · exact outside_debit c .giveup
  · exact outside_debit c .sni
  · exact outside_debit c .dns
  · rfl

/-- The model is asked about a flow with features. -/
def modelCalls (env : Env) (f : FlowEntry) : List Effect :=
  if f.mlNPkts > 0 then [.mlClassify (mlFeatures env f.key f)] else []

theorem outside_mlStep (env : Env) (a : Answers) (c : Call) :
    (c.mlStep env a).outside = (c.outside.1 ++ modelCalls env c.flow, c.outside.2) := by
  rw [modelCalls]
  dsimp only [mlStep]
  have hemit : (c.emit (.mlClassify (mlFeatures env c.flow.key c.flow))).outside =
      (c.outside.1 ++ [.mlClassify (mlFeatures env c.flow.key c.flow)], c.outside.2) :=
    outside_append_calls c (by simp [Effect.isOutside, Effect.posting])
  split
  case isTrue hpkts =>
    rw [← hemit]
    split
    · refine (outside_credit _ .ml).trans ?_
      split
      · exact outside_undoGuess (c.emit _)
      · rfl
    · rfl
  case isFalse => simp

/-- What the last resort asks: nDPI's guesser, then the model. -/
def lastResortCalls (env : Env) (ml : Bool) (f : FlowEntry) : List Effect :=
  if ml then .detectionGiveup :: modelCalls env f else []

/-- The model is asked about the features, which the verdicts leave alone. -/
theorem modelCalls_of_tracked (env : Env) {f f' : FlowEntry} (h : f.tracked = f'.tracked) :
    modelCalls env f = modelCalls env f' := by
  have hcalls := congrArg (modelCalls env) h
  exact hcalls

theorem outside_lastResort (env : Env) (a : Answers) (c : Call) :
    (c.lastResort env a).outside =
      (c.outside.1 ++ lastResortCalls env c.engine.mlEnabled c.flow ++ freeCalls c.outside.2,
        none) := by
  have hsteps : (if c.engine.mlEnabled then (c.giveupStep env a).mlStep env a else c).outside =
      (c.outside.1 ++ lastResortCalls env c.engine.mlEnabled c.flow, c.outside.2) := by
    rw [lastResortCalls]
    split
    · rw [outside_mlStep, outside_giveupStep,
        modelCalls_of_tracked env (tracked_of_core (giveupStep_core env a c))]
      simp
    · simp
  dsimp only [lastResort]
  rw [outside_freeNdpiFlow]
  generalize (if c.engine.mlEnabled then (c.giveupStep env a).mlStep env a else c) = d at hsteps ⊢
  split
  · have hgaveUp : Call.outside { d with
        flow := { d.flow with appId := 0, state := .gaveUp }
        engine := { d.engine with flowsGaveUp := d.engine.flowsGaveUp + 1 } } = d.outside := rfl
    rw [hgaveUp, hsteps]
  · rw [hsteps]

/-! ### A whole call -/

/-- The write of a verdict to the verdict map. -/
def publishCalls (fd : ℤ) (k : FlowKey) (app : UInt16) : List Effect :=
  if fd ≥ 0 then [.verdictMapUpdate k app] else []

theorem isOutside_publishCalls (fd : ℤ) (k : FlowKey) (app : UInt16) :
    ∀ x ∈ publishCalls fd k app, x.isOutside = true := by
  rw [publishCalls]
  split <;> simp [Effect.isOutside, Effect.posting]

theorem outside_verdictTail (env : Env) (fd : ℤ) (c : Call) :
    (c.verdictTail env fd).outside =
      (c.outside.1 ++ publishCalls fd c.flow.key c.flow.appId, c.outside.2) := by
  obtain ⟨rows, heq⟩ := exists_verdictTail_eq env fd c
  rw [heq]
  exact outside_append_calls
    { c with engine := { c.engine.addTotals env c.flow with dumpFeatures := rows } }
    (isOutside_publishCalls fd c.flow.key c.flow.appId)

/-- A packet with payload is given to nDPI, for the first one of which the nDPI flow structure is
allocated. -/
def scanCalls (evt : FlowEvent) (a : Answers) (f : FlowEntry) : List Effect :=
  (if f.ndpiFlow = none then a.ndpiMalloc.toList.map .ndpiFlowMalloc else []) ++
    [.detectionProcessPacket (patchedPacket evt a.stack) (a.timeSeen * 1000)]

theorem outside_scanned (evt : FlowEvent) (a : Answers) (c : Call) :
    (c.scanned evt a).outside =
      (c.outside.1 ++ scanCalls evt a c.flow, c.flow.ndpiFlow.or a.ndpiMalloc) := by
  refine Prod.ext ?_ (scanned_ndpiFlow evt a c)
  have hptr : (c.counted evt a).flow.ndpiFlow = c.flow.ndpiFlow := rfl
  have hseen (f : FlowEntry) : (mlAccumulate evt f).lastSeen = f.lastSeen := by
    have hplain := congrArg FlowEntry.lastSeen (mlAccumulate_plain evt f)
    exact hplain
  rw [scanned, ensureNdpiFlow, hptr, scanCalls]
  dsimp only [scan, emit, outside]
  rw [hseen]
  cases c.flow.ndpiFlow with
  | some p => simp [Effect.isOutside, Effect.posting, counted, countPacket]
  | none =>
    cases a.ndpiMalloc <;> simp [Effect.isOutside, Effect.posting, counted, countPacket]

theorem scanned_key (evt : FlowEvent) (a : Answers) (c : Call) :
    (c.scanned evt a).flow.key = c.flow.key := by
  obtain ⟨ptr, l, -, -, heq⟩ := exists_scanned_eq evt a c
  have hkey := congrArg FlowEntry.key
    (mlAccumulate_plain evt { (c.counted evt a).flow with ndpiFlow := ptr })
  rw [heq]
  exact hkey

/-- **The calls of a call.** What a call does outside the engine, by its exit. -/
theorem process_outside (env : Env) (evt : FlowEvent) (fd : ℤ) (a : Answers) (c : Call) :
    (c.process env evt fd a).outside.1 = c.outside.1 ++
      match c.flow.exit evt a with
      | .cached | .emptyPending | .allocFailed => []
      | .emptyGaveUp => publishCalls fd c.flow.key 0
      | .pending => scanCalls evt a c.flow
      | .classified =>
        scanCalls evt a c.flow ++ freeCalls (c.flow.ndpiFlow.or a.ndpiMalloc) ++
          publishCalls fd c.flow.key (c.process env evt fd a).flow.appId
      | .lastResort =>
        scanCalls evt a c.flow ++ lastResortCalls env c.engine.mlEnabled (c.scanned evt a).flow ++
          freeCalls (c.flow.ndpiFlow.or a.ndpiMalloc) ++
          publishCalls fd c.flow.key (c.process env evt fd a).flow.appId := by
  have hkey := scanned_key evt a c
  have hml : (c.scanned evt a).engine.mlEnabled = c.engine.mlEnabled :=
    congrArg Prod.fst (scanned_settings evt a c)
  have hscanned := outside_scanned evt a c
  rw [process_eq]
  cases c.flow.exit evt a with
  | cached | emptyPending | allocFailed => exact (List.append_nil _).symm
  | emptyGaveUp =>
    dsimp only [giveUpEmpty, publish]
    rw [publishCalls]
    split
    · simp [outside, emit, counted, countPacket, Effect.isOutside, Effect.posting]
    · simp [outside, counted, countPacket]
  | pending => exact congrArg Prod.fst hscanned
  | classified =>
    have hkey' : ((c.scanned evt a).ndpiVerdict env a).flow.key = c.flow.key :=
      (congrArg (fun d => d.flow.key) (ndpiVerdict_core env a _)).trans hkey
    dsimp only
    rw [verdictTail_flow, outside_verdictTail, outside_ndpiVerdict, hscanned, hkey']
    simp only [List.append_assoc]
  | lastResort =>
    have hkey' : ((c.scanned evt a).lastResort env a).flow.key = c.flow.key :=
      (congrArg (fun d => d.flow.key) (lastResort_core env a _)).trans hkey
    dsimp only
    rw [verdictTail_flow, outside_verdictTail, outside_lastResort, hscanned, hml, hkey']
    simp only [List.append_assoc]

theorem mem_effects_iff (c : Call) {x : Effect} (hx : x.isOutside = true) :
    x ∈ c.effects ↔ x ∈ c.outside.1 := by
  simp [outside, hx]

/-- nDPI's guesser is asked in the last resort alone, if the model is on. -/
theorem mem_detectionGiveup_iff (env : Env) (evt : FlowEvent) (fd : ℤ) (a : Answers) (e : Engine)
    (f : FlowEntry) :
    .detectionGiveup ∈ (Call.process env evt fd a { engine := e, flow := f }).effects ↔
      f.exit evt a = .lastResort ∧ e.mlEnabled = true := by
  rw [mem_effects_iff _ rfl, process_outside]
  cases f.exit evt a <;>
    simp [outside, scanCalls, freeCalls, publishCalls, lastResortCalls, modelCalls]

/-- The model is asked in the last resort alone, if it is on, about the flow as it is after the
packet. -/
theorem mem_mlClassify_iff (env : Env) (evt : FlowEvent) (fd : ℤ) (a : Answers) (e : Engine)
    (f : FlowEntry) (feat : NdpiMlFeatures) :
    let scanned := (Call.scanned evt a { engine := e, flow := f }).flow
    .mlClassify feat ∈ (Call.process env evt fd a { engine := e, flow := f }).effects ↔
      f.exit evt a = .lastResort ∧ e.mlEnabled = true ∧ scanned.mlNPkts > 0 ∧
        feat = mlFeatures env scanned.key scanned := by
  intro scanned
  rw [mem_effects_iff _ rfl, process_outside]
  cases f.exit evt a <;>
    simp [outside, scanCalls, freeCalls, publishCalls, lastResortCalls, modelCalls]
  exact fun _ => Iff.rfl

/-! ### The feature dump -/

/-- The label of a row: the name of the application, if it has one. -/
def dumpLabel (env : Env) (labels : List Bytes) (app : UInt16) : Bytes :=
  let name := (ndpiEngineAppName env labels app).getD []
  if name = [] then text "unknown" else name

/-- The row of a flow with features. -/
def newRows (env : Env) (c : Call) : List DumpRow :=
  if c.flow.mlNPkts > 0 then
    [{ label := dumpLabel env c.engine.dynLabels c.flow.appId
       features := dumpFeatureRow env c.flow.key c.flow }]
  else []

theorem dumpFeatures_verdictTail (env : Env) (fd : ℤ) (c : Call) :
    (c.verdictTail env fd).engine.dumpFeatures =
      c.engine.dumpFeatures.map (· ++ newRows env (c.verdictTail env fd)) := by
  have hrows : newRows env (c.verdictTail env fd) = newRows env c := by
    obtain ⟨rows, heq⟩ := exists_verdictTail_eq env fd c
    rw [heq]
    rfl
  have hpublish : (c.publish fd c.flow.appId).engine = c.engine ∧
      (c.publish fd c.flow.appId).flow = c.flow := by
    rw [publish]
    split <;> exact ⟨rfl, rfl⟩
  obtain ⟨hengine, hflow⟩ := hpublish
  rw [hrows, verdictTail, newRows]
  dsimp only [creditVerdict, dumpRow]
  rw [hengine, hflow]
  cases hdump : c.engine.dumpFeatures with
  | none =>
    have hkeep : (c.engine.addTotals env c.flow).dumpFeatures = none := hdump
    rw [hkeep]
    exact hdump
  | some rows =>
    have hkeep : (c.engine.addTotals env c.flow).dumpFeatures = some rows := hdump
    rw [hkeep]
    dsimp only
    split
    · rfl
    · rw [Option.map_some, List.append_nil]
      exact hkeep

theorem dumpFeatures_of_core {c d : Call} (h : c.core = d.core) :
    c.engine.dumpFeatures = d.engine.dumpFeatures := by
  have hdump := congrArg (fun c => c.engine.dumpFeatures) h
  exact hdump

/-- **The dump of a call.** A call with a verdict adds the row of its flow. -/
theorem process_dumpFeatures (env : Env) (evt : FlowEvent) (fd : ℤ) (a : Answers) (c : Call) :
    (c.process env evt fd a).engine.dumpFeatures =
      if (c.flow.exit evt a).hasTail then
        c.engine.dumpFeatures.map (· ++ newRows env (c.process env evt fd a))
      else c.engine.dumpFeatures := by
  have hscanned : (c.scanned evt a).engine.dumpFeatures = c.engine.dumpFeatures := by
    obtain ⟨ptr, l, -, -, heq⟩ := exists_scanned_eq evt a c
    rw [heq]
  rw [process_eq]
  cases c.flow.exit evt a with
  | cached | emptyPending | allocFailed => rfl
  | emptyGaveUp =>
    dsimp only [giveUpEmpty, publish]
    split <;> rfl
  | pending => exact hscanned
  | classified =>
    refine (dumpFeatures_verdictTail env fd _).trans ?_
    rw [dumpFeatures_of_core (ndpiVerdict_core env a _), hscanned]
    rfl
  | lastResort =>
    refine (dumpFeatures_verdictTail env fd _).trans ?_
    rw [dumpFeatures_of_core (lastResort_core env a _), hscanned]
    rfl

end Call

end NdpiObserve
