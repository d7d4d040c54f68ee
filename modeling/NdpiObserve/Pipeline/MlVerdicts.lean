import NdpiObserve.Daemon.FlowMachine
import NdpiObserve.Kernel.FlowCredits

/-!
# Verdicts of the model

`ndpi_ml_classify` answers the id of the first class with the highest score, read from a table of
16-bit ids that is filled with the answers of `ndpi_get_protocol_id`. An unknown name is answered
by `-1`, which the table keeps as `65535`: a class whose name is unknown still classifies the flow,
under an id for which neither side has a counter.

## Main definitions

* `FirstBest`: the first class with the highest score.
* `NamesResolve`: nDPI answers an id of its own, or `-1`.
* `Resolved`, `EngineRun.ModelResolves`: the confident class has an id, for features and for steps.
* `FlowEntry.Appears`: the traffic of a flow appears in the counters of both sides.

## Main results

* `ndpiMlBest_eq_iff`: the loop over the scores finds the first best class.
* `resolvesClass_iff`: when `ndpi_ml_classify` answers `0` or an id below 512.
* `ml_verdicts_run`: in a run in which the model resolves, flows of the model appear in the
  counters.
* `unresolved_class_classifies`: a class without an id classifies a flow.
-/

namespace NdpiObserve

open Floats Machine

/-! ### The best class -/

/-- The first class with the highest score. -/
def FirstBest (scores : Fin ndpiMlNClasses → ℚ) (b : Fin ndpiMlNClasses) : Prop :=
  (∀ i, scores i ≤ scores b) ∧ ∀ i < b, scores i < scores b

theorem argmax_cons_eq_foldl {α β : Type*} [LinearOrder β] (f : α → β) (b : α) (l : List α) :
    List.argmax f (b :: l) = some (l.foldl (fun best i => if f i > f best then i else best) b) := by
  induction l using List.reverseRecOn with
  | nil => exact List.argmax_singleton
  | append_singleton l i ih =>
    rw [← List.cons_append, List.argmax_concat, ih, List.foldl_append]
    dsimp only [List.foldl_cons, List.foldl_nil]
    split <;> rfl

/-- The loop finds the first best class. -/
theorem ndpiMlBest_eq_iff {scores : Fin ndpiMlNClasses → ℚ} {b : Fin ndpiMlNClasses} :
    ndpiMlBest scores = b ↔ FirstBest scores b := by
  have hbest : List.argmax scores (List.finRange ndpiMlNClasses) = some (ndpiMlBest scores) :=
    argmax_cons_eq_foldl scores 0 (List.finRange ndpiMlNClasses).tail
  rw [← Option.some_inj, ← hbest, ← Option.mem_def, List.mem_argmax_iff]
  simp only [List.mem_finRange, true_and, forall_const, List.idxOf_finRange, FirstBest]
  refine and_congr_right fun _ => forall_congr' fun i => ⟨fun h hi => ?_, fun h hle => ?_⟩
  · exact lt_of_not_ge fun hle => absurd (h hle) (not_le.mpr hi)
  · exact not_lt.mp fun hi => absurd (h hi) (not_lt.mpr hle)

/-! ### Resolution of the class names -/

/-- What nDPI answers for the name of a class. -/
def labelId (env : Env) (i : Fin ndpiMlNClasses) : ℤ :=
  env.getProtocolId (text (ndpiMlLabelNames.getD i ""))

/-- nDPI answers an id of a protocol, or `-1` for an unknown name. -/
def NamesResolve (env : Env) : Prop :=
  ∀ i, (0 ≤ labelId env i ∧ labelId env i < 512) ∨ labelId env i = -1

/-- The answer for the features is `0` or the id, below 512, of the first class with the highest
score, which as a `float` reaches the threshold. -/
def ResolvesClass (env : Env) (feat : NdpiMlFeatures) : Prop :=
  ndpiMlClassify env feat = 0 ∨ ∃ b, FirstBest (env.score feat.toList) b ∧
    ndpiMlConfidenceThreshold ≤ binary32.round (env.score feat.toList b) ∧
    labelId env b = (ndpiMlClassify env feat).toNat ∧ labelId env b < 512

/-- The class that is confident for the features, if any, has an id. -/
def Resolved (env : Env) (feat : NdpiMlFeatures) : Prop :=
  ∀ b, FirstBest (env.score feat.toList) b →
    ndpiMlConfidenceThreshold ≤ binary32.round (env.score feat.toList b) → labelId env b ≠ -1

theorem toNat_ndpiMlLabelToProto {env : Env} {i : Fin ndpiMlNClasses} (h : 0 ≤ labelId env i)
    (h' : labelId env i < 512) : (ndpiMlLabelToProto env i).toNat = labelId env i := by
  rw [ndpiMlLabelToProto, UInt16.toNat_ofNat']
  rw [labelId] at h h' ⊢
  omega

theorem ndpiMlLabelToProto_of_unknown {env : Env} {i : Fin ndpiMlNClasses}
    (h : labelId env i = -1) : ndpiMlLabelToProto env i = 65535 := by
  rw [labelId] at h
  rw [ndpiMlLabelToProto, h]
  rfl

/-- **Unresolved classes.** `ndpi_ml_classify` answers `0` or an id below 512 exactly when the
confident class, if any, has an id. -/
theorem resolvesClass_iff {env : Env} (hnames : NamesResolve env) (feat : NdpiMlFeatures) :
    ResolvesClass env feat ↔ Resolved env feat := by
  constructor
  · intro h b hb hscore hunknown
    have hclass : ndpiMlClassify env feat = 65535 := by
      rw [ndpiMlClassify, ndpiMlBest_eq_iff.mpr hb, if_neg (not_lt.mpr hscore),
        ndpiMlLabelToProto_of_unknown hunknown]
    rcases h with h | ⟨b', -, -, hid, hlt⟩
    · rw [hclass] at h
      cases h
    · rw [hclass] at hid
      rw [hid] at hlt
      exact absurd hlt (by decide)
  · intro h
    have hb := ndpiMlBest_eq_iff.mp (rfl : ndpiMlBest (env.score feat.toList) = _)
    rw [ResolvesClass, ndpiMlClassify]
    generalize ndpiMlBest (env.score feat.toList) = b at *
    split
    case isTrue => exact .inl rfl
    case isFalse hscore =>
      refine .inr ⟨b, hb, not_lt.mp hscore, ?_⟩
      rcases hnames b with ⟨hpos, hlt⟩ | hunknown
      · exact ⟨(toNat_ndpiMlLabelToProto hpos hlt).symm, hlt⟩
      · exact absurd hunknown (h b hb (not_lt.mp hscore))

theorem ndpiMlClassify_lt {env : Env} {feat : NdpiMlFeatures} (h : ResolvesClass env feat) :
    (ndpiMlClassify env feat).toNat < numApps := by
  rcases h with h | ⟨b, -, -, hid, hlt⟩
  · rw [h]
    decide
  · rw [numApps]
    omega

/-! ### The flows of the model -/

theorem matchMcpService_lt (sni : Option Bytes) : (matchMcpService sni).toNat < numApps := by
  have htable (table : List (String × UInt16)) (host : Bytes)
      (h : (ndpiAppMcp :: table.map Prod.snd).all fun id => id.toNat < numApps) :
      ((matchTable table host).getD ndpiAppMcp).toNat < numApps :=
    of_decide_eq_true (getD_matchTable_of_all h host)
  unfold matchMcpService
  split
  · decide
  · decide
  · exact htable _ _ (by decide)

/-- The application with which the model decides a flow has a counter. -/
theorem Call.mlApp_lt {env : Env} {a : Answers} {c : Call}
    (h : ResolvesClass env (mlFeatures env c.flow.key c.flow)) :
    (c.mlApp env a).toNat < numApps := by
  rw [mlApp]
  dsimp only
  split
  case isTrue =>
    generalize hhost : (if c.flow.sni ≠ [] then some c.flow.sni
      else dnsCacheLookup c.engine.dnsCache c.flow.key.dstIp a.timeMcp) = host
    split
    · decide
    · exact matchMcpService_lt host
  case isFalse => exact ndpiMlClassify_lt h

namespace Call

variable (env : Env) (evt : FlowEvent) (fd : ℤ) (a : Answers)

theorem moveCredit_creditMethod (c : Call) (m : CreditMethod) (aiId : UInt16) (fromDns : Bool) :
    (c.moveCredit m aiId fromDns).flow.creditMethod ∈ [c.flow.creditMethod, .sni, .dns] := by
  rw [moveCredit]
  split
  · cases fromDns <;> simp
  · exact List.mem_cons_self

/-- nDPI's guess does not name the model. -/
theorem giveupStep_creditMethod {c : Call} (h : c.flow.creditMethod ≠ .ml) :
    (c.giveupStep env a).flow.creditMethod ≠ .ml := by
  rw [giveupStep]
  split
  case isFalse => exact h
  case isTrue =>
    dsimp only
    generalize hd : Call.mk _ _ _ = d
    have hmethod : d.flow.creditMethod = .giveup := by rw [← hd]
    obtain ⟨sni, labels, cache, aiId, fromDns, heq⟩ :=
      exists_overrideByHost_eq env d .giveup a.giveupHost a.timeHost
    rw [heq]
    have hmem := moveCredit_creditMethod (d.learn sni labels cache) .giveup aiId fromDns
    intro hml
    rw [hml] at hmem
    simp [learn, hmethod] at hmem

/-- The features that the model reads are those of the tracked part. -/
theorem mlFeatures_of_tracked {f g : FlowEntry} (h : f.tracked = g.tracked) :
    mlFeatures env f.key f = mlFeatures env g.key g := by
  have hfeatures := congrArg (fun f : FlowEntry => mlFeatures env f.key f) h
  exact hfeatures

/-- The model decides the flow, or leaves it alone. -/
theorem mlStep_flow (c : Call) : (c.mlStep env a).flow = c.flow ∨
    (c.mlStep env a).flow.state = .classified ∧
      (c.mlStep env a).flow.appId = c.mlApp env a := by
  rw [mlStep]
  dsimp only
  split
  · split
    · exact .inr ⟨rfl, rfl⟩
    · exact .inl rfl
  · exact .inl rfl

/-- A flow that the last resort leaves to the model has the model's application. -/
theorem lastResort_model {c : Call} (hmethod : c.flow.creditMethod ≠ .ml)
    (h : (c.lastResort env a).flow.creditMethod = .ml) :
    c.engine.mlEnabled = true ∧
      (c.lastResort env a).flow.appId = (c.giveupStep env a).mlApp env a := by
  have hguess := giveupStep_creditMethod env a hmethod
  revert h
  dsimp only [lastResort, freeNdpiFlow]
  cases hml : c.engine.mlEnabled with
  | false =>
    rw [if_neg Bool.false_ne_true]
    intro h
    split at h <;> exact absurd h hmethod
  | true =>
    rw [if_pos rfl]
    rcases mlStep_flow env a (c.giveupStep env a) with hflow | ⟨hstate, happ⟩
    · intro h
      split at h <;> exact absurd (by simpa [hflow] using h) hguess
    · intro _
      rw [if_neg (not_not.mpr hstate)]
      exact ⟨rfl, happ⟩

/-- Only the last resort leaves a flow to the model, with the features after the packet. -/
theorem process_model {e : Engine} {f : FlowEntry} (hmethod : f.creditMethod ≠ .ml)
    (hopen : f.state.isTerminal = false)
    (h : (Call.process env evt fd a { engine := e, flow := f }).flow.creditMethod = .ml) :
    f.exit evt a = .lastResort ∧ e.mlEnabled = true ∧
      ∃ d : Call,
        (Call.process env evt fd a { engine := e, flow := f }).flow.appId = d.mlApp env a ∧
        mlFeatures env d.flow.key d.flow =
          mlFeatures env f.key (mlAccumulate evt (f.countedBy evt a)) := by
  obtain ⟨ptr, l, -, -, hscanned⟩ := exists_scanned_eq evt a { engine := e, flow := f }
  have hscanned_method :
      (Call.scanned evt a { engine := e, flow := f }).flow.creditMethod ≠ .ml := by
    have hplain := congrArg FlowEntry.creditMethod (mlAccumulate_plain evt
      { (Call.counted evt a { engine := e, flow := f }).flow with ndpiFlow := ptr })
    rw [hscanned]
    exact fun hml => hmethod (hplain.symm.trans hml)
  obtain ⟨x, hallows, hrec⟩ := process_records_entry env evt fd a e hopen
  have hleaves := hrec.leaves
  rw [process_eq] at h hleaves ⊢
  revert h hleaves hallows
  cases hexit : f.exit evt a with
  | cached => simp [exit_eq_cached_iff.mp hexit] at hopen
  | emptyPending | allocFailed => exact fun h _ _ => absurd h hmethod
  | emptyGaveUp =>
    intro h _ _
    dsimp only [giveUpEmpty, publish] at h
    split at h <;> exact absurd h hmethod
  | pending => exact fun h _ _ => absurd h hscanned_method
  | classified =>
    intro h hallows hleaves
    obtain rfl : x = .direct := hallows
    have hmem := hleaves.2
    rw [h] at hmem
    simp at hmem
  | lastResort =>
    intro h _ _
    dsimp only at h ⊢
    obtain ⟨rows, heq⟩ := exists_verdictTail_eq env fd
      ((Call.scanned evt a { engine := e, flow := f }).lastResort env a)
    rw [heq] at h ⊢
    obtain ⟨hml, happ⟩ := lastResort_model env a hscanned_method h
    have hkey : (mlAccumulate evt (f.countedBy evt a)).key = f.key := by
      have hplain := congrArg FlowEntry.key (mlAccumulate_plain evt (f.countedBy evt a))
      exact hplain
    refine ⟨rfl, ?_, _, happ, ?_⟩
    · rw [hscanned] at hml
      exact hml
    · rw [← hkey]
      refine mlFeatures_of_tracked env ?_
      rw [tracked_of_core (giveupStep_core env a _), tracked_scanned, tracked_mlAccumulate]

end Call

/-! ### Runs -/

/-- When the step gives a flow to the model, the model resolves its features. -/
def EngineRun.ModelResolves (env : Env) (w : EngineRun) : EngineOp → Prop
  | .process evt _ a => w.engine.mlEnabled = true → ∀ f, w.engine.obtain evt a = some f →
      f.exit evt a = .lastResort →
        Resolved env (mlFeatures env f.key (mlAccumulate evt (f.countedBy evt a)))
  | .age _ => True

/-- The flow's application is counter `i`: adding the flow to the totals of the daemon shows there,
and so does every packet that the kernel program counts under the flow's application. -/
structure FlowEntry.Appears (env : Env) (f : FlowEntry) (i : Fin numApps) : Prop where
  app_eq : i.val = f.appId.toNat
  daemon : ∀ e : Engine, (e.addTotals env f).appBytes i = e.appBytes i + f.bytes ∧
    (e.addTotals env f).appPackets i = e.appPackets i + f.packets ∧
    (e.addTotals env f).appFlows i = e.appFlows i + 1
  kernel : ∀ (s : Kernel) (p : Pkt) (evt : Option FlowEvent),
    (processFlow s p f.key evt).2.app = some f.appId → ∃ flows,
      (processFlow s p f.key evt).1.counters p.cpu i =
        s.counters p.cpu i + (p.bytes, 1, flows)

theorem FlowEntry.appears {env : Env} {f : FlowEntry} (h : f.appId.toNat < numApps) :
    f.Appears env ⟨f.appId.toNat, h⟩ where
  app_eq := rfl
  daemon e := by simp [Engine.addTotals, addAt_apply]
  kernel s p evt happ := by
    have hcounters := Kernel.counters_processFlow s p f.key evt p.cpu ⟨f.appId.toNat, h⟩
    dsimp only at hcounters
    rw [PktOut.credit, happ] at hcounters
    dsimp only at hcounters
    rw [if_pos ⟨rfl, rfl⟩] at hcounters
    exact ⟨_, hcounters⟩

namespace EngineRun

variable (env : Env) {w : EngineRun}

/-- A call that gives a flow to the model in a step in which the model resolves. -/
theorem body_model_lt (hnames : NamesResolve env) {evt : FlowEvent} {a : Answers} (fd : ℤ)
    {f : FlowEntry} (hq : w.ModelResolves env (.process evt fd a))
    (hobtain : w.engine.obtain evt a = some f) (hopen : f.state.isTerminal = false)
    (hmethod : f.creditMethod ≠ .ml) (hml : (w.body env evt fd a f).flow.creditMethod = .ml) :
    f.exit evt a = .lastResort ∧ (w.body env evt fd a f).flow.appId.toNat < numApps := by
  obtain ⟨hexit, henabled, d, happ, hfeatures⟩ := Call.process_model env evt fd a hmethod hopen hml
  refine ⟨hexit, ?_⟩
  rw [body, happ]
  refine Call.mlApp_lt ?_
  rw [hfeatures, resolvesClass_iff hnames]
  rw [Engine.bodyStart_mlEnabled] at henabled
  exact hq henabled f hobtain hexit

/-- The flows of the model, in a run in which it resolves. -/
theorem forall_model_run (hnames : NamesResolve env) {iface : Bytes} {ml dump : Bool}
    {ops : List EngineOp} (h : Along (step env) (ModelResolves env) (start iface ml dump) ops) :
    ∀ f ∈ (run (step env) (start iface ml dump) ops).flows,
      f.creditMethod = .ml → f.state.isTerminal = true ∧ f.appId.toNat < numApps := by
  refine forall_flows_run_along (fun k t hml => by cases hml)
    (fun w evt fd a f hq hobtain hf => ?_) h
  intro hml
  cases hterm : f.state.isTerminal with
  | true =>
    obtain ⟨hstate, hmethod, happ⟩ := Call.process_decision env evt fd a
      (w.engine.bodyStart evt a) hterm
    rw [body] at hml ⊢
    rw [hstate, happ]
    exact hf (hmethod ▸ hml)
  | false =>
    have hmethod : f.creditMethod ≠ .ml := fun hml => by simp [(hf hml).1] at hterm
    obtain ⟨hexit, hlt⟩ := body_model_lt env hnames fd hq hobtain hterm hmethod hml
    refine ⟨?_, hlt⟩
    rw [body, Call.process_isTerminal, hexit]
    exact Bool.or_true _

end EngineRun

/-- **Verdicts of the model.** Where `ndpi_get_protocol_id` answers an id below 512 or `-1`, the
answer of `ndpi_ml_classify` is `0` or the id, below 512, of the first class with the highest
score exactly when the confident class has an id. In every run in which this is so whenever the
model is asked, each flow that the model classified has an application with counters: the daemon
added the flow there when the model decided it, and the kernel program counts there every packet
that it counts under the flow's application. -/
theorem ml_verdicts_run (env : Env) (hnames : NamesResolve env) :
    (∀ feat, ResolvesClass env feat ↔ Resolved env feat) ∧
    ∀ (iface : Bytes) (ml dump : Bool) (ops : List EngineOp),
      Along (EngineRun.step env) (EngineRun.ModelResolves env) (.start iface ml dump) ops →
      let w := run (EngineRun.step env) (.start iface ml dump) ops
      (∀ f ∈ w.flows, f.creditMethod = .ml → ∃ i, f.Appears env i) ∧
      ∀ evt fd a f, w.ModelResolves env (.process evt fd a) → w.engine.obtain evt a = some f →
        f.creditMethod ≠ .ml → (w.body env evt fd a f).flow.creditMethod = .ml →
        (∃ i, (w.body env evt fd a f).flow.Appears env i) ∧
        (w.step env (.process evt fd a)).engine.totals =
          w.engine.totals + (w.body env evt fd a f).flow.share env := by
  refine ⟨resolvesClass_iff hnames, fun iface ml dump ops h => ⟨fun f hf hml => ?_, ?_⟩⟩
  · exact ⟨_, FlowEntry.appears (EngineRun.forall_model_run env hnames h f hf hml).2⟩
  · intro evt fd a f hq hobtain hmethod hml
    have hopen : f.state.isTerminal = false := by
      rw [Bool.eq_false_iff]
      intro hterm
      obtain ⟨-, hsame, -⟩ := Call.process_decision env evt fd a
        ((run (EngineRun.step env) (.start iface ml dump) ops).engine.bodyStart evt a) hterm
      exact hmethod (hsame.symm.trans hml)
    obtain ⟨hexit, hlt⟩ := EngineRun.body_model_lt env hnames fd hq hobtain hopen hmethod hml
    refine ⟨⟨_, FlowEntry.appears hlt⟩, ?_⟩
    rw [EngineRun.totals_step_process env fd hobtain, hexit]
    rfl

/-- A library that answers `id` for every name, and a forest that is sure of every class. -/
def sureEnv (id : ℤ) : Env :=
  { (default : Env) with getProtocolId := fun _ => id, score := fun _ _ => 1 }

/-- Eight packets of a flow that nDPI does not recognise. -/
def eightUnknown : List EngineOp := List.replicate 8 (.process udpEvent (-1) {})

/-- The flow of eight unknown packets, where nDPI knows the names of the classes. -/
theorem ml_verdicts_run_sure :
    let w := run (EngineRun.step (sureEnv 126)) (.start [] true false) eightUnknown
    ∃ f, w.entry udpEvent.key = some f ∧ f.creditMethod = .ml ∧
      ∃ i, f.Appears (sureEnv 126) i := by
  intro w
  have hnames : NamesResolve (sureEnv 126) := fun _ =>
    .inl ⟨(by decide : (0 : ℤ) ≤ 126), (by decide : (126 : ℤ) < 512)⟩
  have hresolves (w : EngineRun) (op : EngineOp) : w.ModelResolves (sureEnv 126) op := by
    cases op with
    | age now => trivial
    | process evt fd a =>
      intro _ f _ _ b _ _ (h : (126 : ℤ) = -1)
      cases h
  have happears := ((ml_verdicts_run (sureEnv 126) hnames).2 [] true false eightUnknown
    (along_of_forall hresolves _ _)).1
  have hentry : (w.entry udpEvent.key).map (fun f => f.creditMethod) = some .ml := by
    decide +kernel
  obtain ⟨f, hf, hml⟩ := Option.map_eq_some_iff.mp hentry
  have hmem : f ∈ w.flows := (EngineRun.sound_run (sureEnv 126) _ _ _ _).mem_flows hf
  exact ⟨f, hf, hml, happears f hmem hml⟩

/-- A class whose name nDPI does not know classifies a flow under an id without a counter. -/
theorem unresolved_class_classifies :
    ¬∀ env, NamesResolve env → (∀ feat, ResolvesClass env feat) ∧
      ∀ (iface : Bytes) (ml dump : Bool) (ops : List EngineOp),
        ∀ f ∈ (run (EngineRun.step env) (.start iface ml dump) ops).flows,
          f.creditMethod = .ml → f.appId.toNat < numApps := by
  intro h
  have hnames : NamesResolve (sureEnv (-1)) := fun _ => .inr rfl
  have hlt := (h (sureEnv (-1)) hnames).2 [] true false eightUnknown
  have hentry : ((run (EngineRun.step (sureEnv (-1))) (.start [] true false)
      eightUnknown).entry udpEvent.key).map (fun f => (f.creditMethod, f.appId)) =
        some (.ml, 65535) := by
    decide +kernel
  obtain ⟨f, hf, hview⟩ := Option.map_eq_some_iff.mp hentry
  obtain ⟨hml, happ⟩ := Prod.mk.inj hview
  have hmem := (EngineRun.sound_run (sureEnv (-1)) [] true false eightUnknown).mem_flows hf
  have happ_lt := hlt f hmem hml
  rw [happ] at happ_lt
  exact absurd happ_lt (by decide)

end NdpiObserve
