import NdpiObserve.Daemon.FeatureSamples

/-!
# The endings of a flow

A flow is decided in one of four ways: nDPI classifies it, the last resort ends it, a packet
without captured payload uses up its budget, or its nDPI flow structure cannot be allocated. Only
the first two publish its verdict and add it to the totals, and only the last resort asks nDPI's
guesser and the model.

## Main definitions

* `EngineRun.Completes`: a call has written the verdict and added the flow to the totals.
* `EngineRun.Consults`: a call has asked the guesser and the model.

## Main results

* `EngineRun.completes_iff`: which endings of a flow complete it.
* `EngineRun.consults_iff`: which flows are given up without being looked at once more.
-/

namespace NdpiObserve

open Machine Statistics

/-! ### The application of an open flow -/

/-- An open flow that a call leaves open keeps its application. -/
theorem Call.process_appId_open (env : Env) (evt : FlowEvent) (fd : ℤ) (a : Answers) (e : Engine)
    {f : FlowEntry}
    (hopen : (Call.process env evt fd a { engine := e, flow := f }).flow.state.isTerminal = false) :
    (Call.process env evt fd a { engine := e, flow := f }).flow.appId = f.appId := by
  rw [process_isTerminal, Bool.or_eq_false_iff] at hopen
  obtain ⟨hterm, hdecides⟩ := hopen
  rw [process_eq]
  cases hexit : f.exit evt a with
  | cached | emptyPending => rfl
  | pending =>
    obtain ⟨ptr, l, -, -, heq⟩ := exists_scanned_eq evt a { engine := e, flow := f }
    have happ := congrArg FlowEntry.appId (mlAccumulate_plain evt
      { (counted evt a { engine := e, flow := f }).flow with ndpiFlow := ptr })
    dsimp only
    rw [heq]
    exact happ
  | emptyGaveUp | allocFailed | classified | lastResort => simp [hexit, Exit.decides] at hdecides

namespace EngineRun

variable (env : Env) {w : EngineRun}

/-- Open flows have no application yet. -/
theorem appId_open_run (iface : Bytes) (ml dump : Bool) (ops : List EngineOp) :
    ∀ f ∈ (run (step env) (start iface ml dump) ops).flows,
      f.state.isTerminal = false → f.appId = 0 := by
  refine forall_flows_run (fun _ _ _ => rfl) (fun evt fd a e f hf hopen => ?_) iface ml dump ops
  have hterm := Call.process_isTerminal env evt fd a e (f := f)
  rw [hopen, eq_comm, Bool.or_eq_false_iff] at hterm
  rw [Call.process_appId_open env evt fd a e hopen]
  exact hf hterm.1

/-- The entry that a call of a run obtains has no application while it is open. -/
theorem appId_obtain (iface : Bytes) (ml dump : Bool) (ops : List EngineOp) {evt : FlowEvent}
    {a : Answers} {f : FlowEntry} :
    let w := run (step env) (start iface ml dump) ops
    w.engine.obtain evt a = some f → f.state.isTerminal = false → f.appId = 0 := by
  intro w ho hopen
  rcases entered_cases ho with ⟨hl, -⟩ | ⟨rfl, -, -⟩
  · exact appId_open_run env iface ml dump ops f
      ((sound_run env iface ml dump ops).mem_flows hl) hopen
  · rfl

/-! ### Completion -/

/-- After the call on the event, which leaves its flow the entry `f'`, the verdict of the flow is
in the verdict map, if there is one, and the flow was added to the totals of its application. -/
def Completes (w : EngineRun) (evt : FlowEvent) (fd : ℤ) (a : Answers) (f' : FlowEntry) : Prop :=
  let r := ndpiEngineProcess env w.engine evt fd a
  (fd ≥ 0 → .verdictMapUpdate evt.key f'.appId ∈ r.2) ∧
  (f'.appId.toNat < numApps → ∀ i, r.1.totals.1 i =
    w.engine.totals.1 i + if i.val = f'.appId.toNat then (f'.bytes, f'.packets, 1) else 0)

/-- The entry of the flow after its event. -/
theorem Sound.entry_step_process (hw : w.Sound) {evt : FlowEvent} {a : Answers} (fd : ℤ)
    {f : FlowEntry} (h : w.engine.obtain evt a = some f) :
    (w.step env (.process evt fd a)).entry evt.key = some (w.body env evt fd a f).flow :=
  (hw.lookup_step_process env fd h evt.key).trans (if_pos rfl)

/-- The writes to the verdict map of a call of a run. -/
theorem Sound.published (hw : w.Sound) {evt : FlowEvent} {a : Answers} (fd : ℤ) {f : FlowEntry}
    (h : w.engine.obtain evt a = some f) (app : UInt16) :
    .verdictMapUpdate evt.key app ∈ (w.body env evt fd a f).effects ↔
      fd ≥ 0 ∧ (f.exit evt a).publishes = true ∧ app = (w.body env evt fd a f).flow.appId := by
  obtain ⟨hsound, hl⟩ := hw.entered h
  have hkey : f.key = evt.key := hsound.valid.key_lookup hl
  have hpublished := Call.process_published env evt fd a
    { engine := w.engine.bodyStart evt a, flow := f } rfl
  have hmem : .verdictMapUpdate evt.key app ∈ (w.body env evt fd a f).effects ↔
      .verdictMapUpdate evt.key app ∈
        (w.body env evt fd a f).effects.filter Effect.publishes := by
    simp [Effect.publishes]
  rw [hmem, body, hpublished]
  dsimp only
  split
  case isTrue hyes => simp [hyes, hkey]
  case isFalse hno =>
    rw [not_and] at hno
    simp only [List.not_mem_nil, false_iff, not_and]
    exact fun hfd hpub => absurd hpub (hno hfd)

/-- **Completion of one call.** A call that decides an open flow without an application completes
it on the exits with a verdict tail. -/
theorem Sound.completes_iff_hasTail (hw : w.Sound) {evt : FlowEvent} {a : Answers} (fd : ℤ)
    {f : FlowEntry} (h : w.engine.obtain evt a = some f) (happ : f.appId = 0)
    (hdecides : (f.exit evt a).decides = true) :
    w.Completes env evt fd a (w.body env evt fd a f).flow ↔ (f.exit evt a).hasTail = true := by
  have htotals := totals_step_process env fd h
  have hstep : (w.step env (.process evt fd a)).engine =
      (ndpiEngineProcess env w.engine evt fd a).1 := rfl
  have heffects : (ndpiEngineProcess env w.engine evt fd a).2 =
      (w.body env evt fd a f).effects := by
    rw [ndpiEngineProcess_of_some env fd h]
    rfl
  rw [hstep] at htotals
  rw [Completes, heffects, hw.published env fd h, htotals]
  cases htail : (f.exit evt a).hasTail with
  | true =>
    have hpub : (f.exit evt a).publishes = true := by
      revert htail
      cases f.exit evt a <;> simp [Exit.hasTail, Exit.publishes]
    exact iff_of_true ⟨fun hfd => ⟨hfd, hpub, rfl⟩, fun _ i => rfl⟩ rfl
  | false =>
    -- the flow is given up as application 0, whose totals are as before
    have hzero : (w.body env evt fd a f).flow.appId = 0 := by
      rw [body, Call.process_eq]
      cases hexit : f.exit evt a with
      | cached | emptyPending | pending => simp [hexit, Exit.decides] at hdecides
      | classified | lastResort => simp [hexit, Exit.hasTail] at htail
      | emptyGaveUp =>
        dsimp only [Call.giveUpEmpty, Call.publish]
        split <;> rfl
      | allocFailed => exact happ
    rw [hzero]
    refine iff_of_false (fun hdone => ?_) Bool.false_ne_true
    have hadded := hdone.2 (by decide) ⟨0, by decide⟩
    rw [if_neg Bool.false_ne_true, if_pos (by rfl), add_zero, left_eq_add] at hadded
    exact absurd (congrArg (fun x => x.2.2) hadded) (by decide : (1 : UInt64) ≠ 0)

/-- The exits with a verdict tail among those that decide an open flow. -/
theorem hasTail_iff {f : FlowEntry} {evt : FlowEvent} {a : Answers}
    (hdecides : (f.exit evt a).decides = true) :
    (f.exit evt a).hasTail = true ↔
      evt.actualDataLen ≠ 0 ∧ (f.ndpiFlow ≠ none ∨ a.ndpiMalloc ≠ none) := by
  rw [FlowEntry.exit, ne_eq f.ndpiFlow, ne_eq a.ndpiMalloc, ← not_and_or] at *
  split_ifs at hdecides ⊢ <;> simp_all [Exit.hasTail, Exit.decides]

/-- A call that decides an open flow leaves by a deciding exit. -/
theorem Sound.decides_of_entry (hw : w.Sound) {evt : FlowEvent} {a : Answers} (fd : ℤ)
    {f f' : FlowEntry} (h : w.engine.obtain evt a = some f) (hopen : f.state.isTerminal = false)
    (hf' : (w.step env (.process evt fd a)).entry evt.key = some f')
    (hterm : f'.state.isTerminal = true) :
    f' = (w.body env evt fd a f).flow ∧ (f.exit evt a).decides = true := by
  rw [hw.entry_step_process env fd h] at hf'
  obtain rfl := Option.some.inj hf'
  rw [body, Call.process_isTerminal, hopen, Bool.false_or] at hterm
  exact ⟨rfl, hterm⟩

/-- **Completion.** In every run, the event that decides an open flow completes it if and only if
it carries captured payload and the nDPI flow structure is there or can be allocated. -/
theorem completes_iff (iface : Bytes) (ml dump : Bool) (ops : List EngineOp) (evt : FlowEvent)
    (fd : ℤ) (a : Answers) (f f' : FlowEntry) :
    let w := run (step env) (start iface ml dump) ops
    w.engine.obtain evt a = some f → f.state.isTerminal = false →
      (w.step env (.process evt fd a)).entry evt.key = some f' → f'.state.isTerminal = true →
      (w.Completes env evt fd a f' ↔
        evt.actualDataLen ≠ 0 ∧ (f.ndpiFlow ≠ none ∨ a.ndpiMalloc ≠ none)) := by
  intro w ho hopen hf' hterm
  have hsound : w.Sound := sound_run env iface ml dump ops
  obtain ⟨rfl, hdecides⟩ := hsound.decides_of_entry env fd ho hopen hf' hterm
  have happ : f.appId = 0 := appId_obtain env iface ml dump ops ho hopen
  rw [hsound.completes_iff_hasTail env fd ho happ hdecides, hasTail_iff hdecides]

/-- The first packet of a flow that nDPI recognises completes the flow. -/
theorem completes_iff_first :
    ∃ f', ((start [] true false).step default
        (.process udpEvent 3 { detection := { app := 7 } })).entry udpEvent.key = some f' ∧
      (start [] true false).Completes default udpEvent 3 { detection := { app := 7 } } f' := by
  have hobtain : (start [] true false).engine.obtain udpEvent { detection := { app := 7 } } =
      some (FlowTable.fresh udpEvent.key 0) := by
    decide +kernel
  have hentry := (sound_start [] true false).entry_step_process default 3 hobtain
  refine ⟨_, hentry, ?_⟩
  refine (completes_iff default [] true false [] udpEvent 3 { detection := { app := 7 } }
    (FlowTable.fresh udpEvent.key 0) _ hobtain rfl hentry ?_).mpr (by decide)
  rw [body, Call.process_isTerminal]
  rfl

end EngineRun

/-- The event of a packet of the same flow that is too short to be captured. -/
def emptyEvent : FlowEvent := { udpEvent with dataLen := noData ||| 46 }

namespace EngineRun

/-- Eight packets without captured payload end a flow that is not added to the totals. -/
theorem empty_flow_incomplete :
    ¬∀ (env : Env) (iface : Bytes) (ml dump : Bool) (ops : List EngineOp) (evt : FlowEvent)
      (fd : ℤ) (a : Answers) (f f' : FlowEntry),
      let w := run (step env) (start iface ml dump) ops
      w.engine.obtain evt a = some f → f.state.isTerminal = false →
        (w.step env (.process evt fd a)).entry evt.key = some f' → f'.state.isTerminal = true →
        w.Completes env evt fd a f' := by
  intro h
  let ops : List EngineOp := List.replicate 7 (.process emptyEvent 3 {})
  let w := run (step default) (start [] true false) ops
  let f : FlowEntry := { key := udpEvent.key, pktCount := 7, bytes := 224, packets := 7 }
  have hobtain : w.engine.obtain emptyEvent {} = some f := by decide +kernel
  have hsound : w.Sound := sound_run default [] true false ops
  have hentry := hsound.entry_step_process default 3 hobtain
  have hdone := h default [] true false ops emptyEvent 3 {} f _ hobtain rfl hentry
    (by rw [body, Call.process_isTerminal]; rfl)
  rw [hsound.completes_iff_hasTail default 3 hobtain rfl rfl] at hdone
  cases hdone

/-! ### The last look -/

variable (env : Env)

/-- The call on the event has asked nDPI's guesser and the model. -/
def Consults (w : EngineRun) (evt : FlowEvent) (fd : ℤ) (a : Answers) : Prop :=
  let r := ndpiEngineProcess env w.engine evt fd a
  .detectionGiveup ∈ r.2 ∧ ∃ feat, .mlClassify feat ∈ r.2

theorem mlEnabled_run (iface : Bytes) (ml dump : Bool) (ops : List EngineOp) :
    (run (step env) (start iface ml dump) ops).engine.mlEnabled = ml :=
  congrArg Prod.fst (settings_run env (start iface ml dump) ops)

/-- A call asks both in the last resort, if the model is on. -/
theorem consults_iff_exit {w : EngineRun} {evt : FlowEvent} {a : Answers} (fd : ℤ) {f : FlowEntry}
    (h : w.engine.obtain evt a = some f) (hml : w.engine.mlEnabled = true) (hf : Budgeted f)
    (hopen : f.state.isTerminal = false) :
    w.Consults env evt fd a ↔ f.exit evt a = .lastResort := by
  have hml' : (w.engine.bodyStart evt a).mlEnabled = true :=
    (w.engine.bodyStart_mlEnabled evt a).trans hml
  have heffects : (ndpiEngineProcess env w.engine evt fd a).2 =
      (w.body env evt fd a f).effects := by
    rw [ndpiEngineProcess_of_some env fd h]
    rfl
  rw [Consults, heffects, body, Call.mem_detectionGiveup_iff, hml']
  refine ⟨fun hasked => hasked.1.1, fun hexit => ⟨⟨hexit, rfl⟩, ?_⟩⟩
  let e := w.engine.bodyStart evt a
  refine ⟨_, (Call.mem_mlClassify_iff env evt fd a e f _).mpr ⟨hexit, hml', ?_, rfl⟩⟩
  have hscanned : (Call.scanned evt a { engine := e, flow := f }).flow.mlNPkts =
      f.mlNPkts + 1 := by
    have htracked := congrArg FlowEntry.mlNPkts
      (Call.tracked_scanned evt a { engine := e, flow := f })
    rw [Call.mlNPkts_mlAccumulate] at htracked
    exact htracked
  have hcount := hf.metered.pktCount_lt hopen
  have hle := hf.mlNPkts_le
  rw [gt_iff_lt, UInt8.lt_iff_toNat_lt, hscanned, UInt8.toNat_add, UInt8.toNat_one,
    UInt8.toNat_zero]
  omega

/-- The packet of a call that gives a flow up. -/
theorem data_of_exit (f : FlowEntry) (evt : FlowEvent) (a : Answers) :
    (f.exit evt a = .emptyGaveUp → evt.actualDataLen = 0) ∧
    (f.exit evt a = .allocFailed →
      evt.actualDataLen ≠ 0 ∧ f.ndpiFlow = none ∧ a.ndpiMalloc = none) ∧
    (f.exit evt a = .lastResort → evt.actualDataLen ≠ 0) := by
  rw [FlowEntry.exit]
  split_ifs <;> simp_all

/-- **The last look.** In every run with the model, take a call that gives a flow up otherwise
than for want of memory. It has asked nDPI's guesser and the model if and only if its packet
carries captured payload, whatever the packets before it carried. -/
theorem consults_iff (iface : Bytes) (dump : Bool) (ops : List EngineOp) (evt : FlowEvent) (fd : ℤ)
    (a : Answers) (f f' : FlowEntry) :
    let w := run (step env) (start iface true dump) ops
    w.engine.obtain evt a = some f → f.state.isTerminal = false →
      ¬(evt.actualDataLen ≠ 0 ∧ f.ndpiFlow = none ∧ a.ndpiMalloc = none) →
      (w.step env (.process evt fd a)).entry evt.key = some f' → f'.state = .gaveUp →
      (w.Consults env evt fd a ↔ evt.actualDataLen ≠ 0) := by
  intro w ho hopen hmalloc hf' hgave
  have hsound : w.Sound := sound_run env iface true dump ops
  have hbudget := budgeted_obtain hsound (budgeted_run env iface true dump ops) ho
  have hml : w.engine.mlEnabled = true := mlEnabled_run env iface true dump ops
  obtain ⟨rfl, -⟩ := hsound.decides_of_entry env fd ho hopen hf' (by rw [hgave]; rfl)
  obtain ⟨hempty, hfail, hlast⟩ := data_of_exit f evt a
  rw [consults_iff_exit env fd ho hml hbudget hopen]
  rcases Call.exit_of_gaveUp env evt fd a hopen hgave with hexit | hexit | hexit
  · exact iff_of_false (by simp [hexit]) (not_not.mpr (hempty hexit))
  · exact absurd (hfail hexit) hmalloc
  · exact iff_of_true hexit (hlast hexit)

/-- Seven packets without payload and an eighth one with payload. -/
theorem consults_iff_eighth :
    (run (step default) (start [] true false)
      (List.replicate 7 (.process emptyEvent 3 {}))).Consults default udpEvent 3 {} := by
  let w := run (step default) (start [] true false) (List.replicate 7 (.process emptyEvent 3 {}))
  let f : FlowEntry := { key := udpEvent.key, pktCount := 7, bytes := 224, packets := 7 }
  have hobtain : w.engine.obtain udpEvent {} = some f := by decide +kernel
  have hsound : w.Sound := sound_run default [] true false _
  have hentry := hsound.entry_step_process default 3 hobtain
  have hgave : ((w.step default (.process udpEvent 3 {})).entry udpEvent.key).map
      FlowEntry.state = some .gaveUp := by
    decide +kernel
  rw [hentry] at hgave
  exact (consults_iff default [] false _ udpEvent 3 {} f _ hobtain rfl (by decide) hentry
    (Option.some.inj hgave)).mpr (by decide)

/-- A flow that had payload is given up on a packet without payload, and nobody is asked. -/
theorem empty_packet_ends_flow :
    ¬∀ (env : Env) (iface : Bytes) (dump : Bool) (ops ops' : List EngineOp) (k : FlowKey)
      (evt : FlowEvent) (fd : ℤ) (a : Answers) (f f' : FlowEntry),
      let w := run (step env) (start iface true dump) ops
      let w' := run (step env) w ops'
      w.entry k = none → w.Keeps env k ops' → evt.key = k →
        samplesOf k (ops' ++ [.process evt fd a]) ≠ [] → w'.engine.obtain evt a = some f →
        ¬(evt.actualDataLen ≠ 0 ∧ f.ndpiFlow = none ∧ a.ndpiMalloc = none) →
        f.state.isTerminal = false → (w'.step env (.process evt fd a)).entry k = some f' →
        f'.state = .gaveUp → w'.Consults env evt fd a := by
  intro h
  let ops' : List EngineOp := .process udpEvent 3 {} :: List.replicate 6 (.process emptyEvent 3 {})
  let w := run (step default) (start [] true false) []
  let w' := run (step default) w ops'
  have hsound : w'.Sound := sound_run default [] true false ops'
  have hkeeps : w.Keeps default udpEvent.key ops' := by
    unfold Keeps
    decide +kernel
  have hsamples : samplesOf udpEvent.key (ops' ++ [.process emptyEvent 3 {}]) ≠ [] := by
    decide +kernel
  obtain ⟨f, hobtain, hview⟩ : ∃ f, w'.engine.obtain emptyEvent {} = some f ∧
      (f.state, f.exit emptyEvent {}) = (.new, .emptyGaveUp) := by
    refine Option.map_eq_some_iff.mp ?_
    decide +kernel
  obtain ⟨hstate, hexit⟩ := Prod.mk.inj hview
  have hopen : f.state.isTerminal = false := by rw [hstate]; rfl
  have hdata : emptyEvent.actualDataLen = 0 := by decide
  have hentry := hsound.entry_step_process default 3 hobtain
  have hgave : (w'.body default emptyEvent 3 {} f).flow.state = .gaveUp := by
    rw [body, Call.process_eq, hexit]
    rfl
  have hasked := h default [] false [] ops' udpEvent.key emptyEvent 3 {} f _ rfl hkeeps rfl
    hsamples hobtain (fun hfail => hfail.1 hdata) hopen hentry hgave
  have hbudget := budgeted_obtain hsound (budgeted_run default [] true false ops') hobtain
  have hml : w'.engine.mlEnabled = true := mlEnabled_run default [] true false ops'
  have hlast := (consults_iff_exit default 3 hobtain hml hbudget hopen).mp hasked
  rw [hexit] at hlast
  cases hlast

end EngineRun

end NdpiObserve
