import NdpiObserve.Daemon.MergedCounters
import NdpiObserve.Daemon.PageSeries
import NdpiObserve.Kernel.FlowCredits
import NdpiObserve.Pipeline.MainLoop

/-!
# The names of applications

The name of an application is that of a service of the tables, a dynamic label of the pool, or
nDPI's name of a protocol. An id that has a counter, in the engine or in the kernel, has one of
these sources: nDPI and the tables answer it, or it was given out with its label. Within one
source names differ. Nothing keeps the sources apart, because a hostname that nDPI finds in a flow
becomes a label without a look at the tables or at the names of protocols.

## Main definitions

* `Env.Native`: the ids of nDPI's protocols, with different names.
* `nameRules`: what the names and ids in the engine and in the kernel obey.
* `Sides`: the engine and the kernel's maps, whatever hands events to the engine.
* `NamesApart`: no shown names from different sources are the same.

## Main results

* `Sides.obeys_run`: the names and ids of a whole run, on both sides.
* `Sides.one_series_run`: when every shown application has its own name.
* `Sides.label_takes_service_name`: a label with the name of a service.
-/

namespace NdpiObserve

open Exposition Machine

/-! ### Ids and names -/

/-- nDPI's name of a protocol, as it is printed. -/
def Env.protoName (env : Env) (app : UInt16) : Bytes :=
  cString ((env.getProtoName app).getD (text "(null)"))

/-- The ids of nDPI's protocols: nDPI answers no others, those of the tables are among them, and
no two have the same name. -/
structure Env.Native (env : Env) (native : Set UInt16) : Prop where
  unknown : ndpiProtocolUnknown ∈ native
  table : ∀ app ∈ ([124, 126, 189, 201, 203] : List UInt16), app ∈ native
  matched : ∀ host, env.matchStringSubprotocol host ∈ native
  protocolId : ∀ name, env.getProtocolId name = -1 ∨
    ∃ app ∈ native, env.getProtocolId name = app.toNat
  injOn : Set.InjOn env.protoName native

/-- The id is one of nDPI's, a service's or that of one of the first `n` labels, or it has no
counter. -/
def HasSource (native : Set UInt16) (n : ℕ) (app : UInt16) : Prop :=
  app ∈ native ∨ (ndpiAiAppName app).isSome = true ∨ (400 ≤ app.toNat ∧ app.toNat < 400 + n) ∨
    numApps ≤ app.toNat

/-- No label of the pool is one of the names `taken`. -/
def nameRules (env : Env) (native : Set UInt16) (taken : Set Bytes) : NameRules where
  sni host := 0 ∉ host ∧ ∀ l, env.newLabel host = some l → l ∉ taken
  dns host := 0 ∉ host ∧ (dnsMatchApp host = 0 → ∀ l, env.newLabel host = some l → l ∉ taken)
  label l := 0 ∉ l ∧ l ∉ taken
  app := HasSource native

theorem zero_notMem_sldWord {host : Bytes} (h : 0 ∉ host) : 0 ∉ sldWord host := by
  have hcapital : ∀ x : UInt8, 97 ≤ x ∧ x ≤ 122 → 0 ≠ x - 32 := by decide +kernel
  intro hzero
  rcases mem_sldWord hzero with hmem | ⟨x, -, hlower, hx⟩
  · exact h hmem
  · exact hcapital x hlower hx

theorem hasSource_matchMcpService (native : Set UInt16) (n : ℕ) (host : Option Bytes) :
    HasSource native n (matchMcpService host) := by
  have htable (table : List (String × UInt16)) (host : Bytes)
      (h : (ndpiAppMcp :: table.map Prod.snd).all fun app => (ndpiAiAppName app).isSome) :
      HasSource native n ((matchTable table host).getD ndpiAppMcp) :=
    .inr (.inl (getD_matchTable_of_all h host))
  unfold matchMcpService
  split
  · exact .inr (.inl rfl)
  · exact .inr (.inl rfl)
  · exact htable _ _ (by decide)

theorem hasSource_dnsMatchApp {env : Env} {native : Set UInt16} (henv : env.Native native) (n : ℕ)
    (host : Bytes) : HasSource native n (dnsMatchApp host) := by
  have hservice (table : List (String × UInt16))
      (h : (0 :: table.map Prod.snd).all fun app => app = 0 || (ndpiAiAppName app).isSome)
      (hne : (matchTable table host).getD 0 ≠ 0) :
      HasSource native n ((matchTable table host).getD 0) := by
    have hall := getD_matchTable_of_all h host
    rw [Bool.or_eq_true, decide_eq_true_iff] at hall
    exact .inr (.inl (hall.resolve_left hne))
  have hnative (table : List (String × UInt16))
      (h : (0 :: table.map Prod.snd).all
        fun app => app = 0 || ([124, 126, 189, 201, 203] : List UInt16).contains app) :
      HasSource native n ((matchTable table host).getD 0) := by
    have hall := getD_matchTable_of_all h host
    rw [Bool.or_eq_true, decide_eq_true_iff, List.contains_iff_mem] at hall
    rcases hall with hzero | hmem
    · rw [hzero]
      exact .inl henv.unknown
    · exact .inl (henv.table _ hmem)
  unfold dnsMatchApp
  dsimp only
  split
  case isTrue hne =>
    unfold matchAiService at hne ⊢
    exact hservice _ (by decide) hne
  case isFalse => exact hnative _ (by decide)

theorem hasSource_ndpiMlClassify {env : Env} {native : Set UInt16} (henv : env.Native native)
    (n : ℕ) (feat : NdpiMlFeatures) : HasSource native n (ndpiMlClassify env feat) := by
  rw [ndpiMlClassify]
  split
  · exact .inl henv.unknown
  · generalize ndpiMlBest (env.score feat.toList) = b
    rw [ndpiMlLabelToProto]
    rcases henv.protocolId (text (ndpiMlLabelNames.getD b "")) with hunknown | ⟨app, happ, hid⟩
    · rw [hunknown]
      exact .inr (.inr (.inr (by decide)))
    · have hback : UInt16.ofNat (((app.toNat : ℕ) : ℤ) % 2 ^ 16).toNat = app := by
        have hlt := app.toNat_lt
        rw [Int.emod_eq_of_lt (by omega) (by omega), Int.toNat_natCast, UInt16.ofNat_toNat]
      rw [hid, hback]
      exact .inl happ

/-- **Sources.** nDPI, the tables, the model and the pool answer ids that have a source. -/
theorem closed_nameRules {env : Env} {native : Set UInt16} (henv : env.Native native)
    (taken : Set Bytes) : (nameRules env native taken).Closed env where
  mono hle happ := happ.imp_right (.imp_right (.imp_left (.imp_right fun h => by omega)))
  sniLabel h hl := ⟨Env.eq_of_newLabel_eq_some hl ▸ zero_notMem_sldWord h.1, h.2 _ hl⟩
  dnsLabel h hknown hl := ⟨Env.eq_of_newLabel_eq_some hl ▸ zero_notMem_sldWord h.1, h.2 hknown _ hl⟩
  none := .inl henv.unknown
  labelId hi hn := .inr (.inr (.inl (by rw [UInt16.toNat_ofNat']; omega)))
  matched host := .inl (henv.matched host)
  table host := hasSource_dnsMatchApp henv 0 host
  mcp host := hasSource_matchMcpService native 0 host
  model feat := hasSource_ndpiMlClassify henv 0 feat

/-! ### The kernel's maps -/

/-- What a packet of a flow does with ids: it takes that of the entry, the verdict, or `0`. -/
theorem FlowStep.forall_app {P : UInt16 → Prop} {p : Pkt} {evt : Option FlowEvent} {full : Prop}
    {verdict : Option UInt16} {old new : Option ObsFlowState} {path : PktPath}
    (h : FlowStep p evt full verdict old path new) (hzero : P 0)
    (hverdict : ∀ v, verdict = some v → P v) (hold : ∀ fs, old = some fs → P fs.appId) :
    (∀ app, path.app = some app → P app) ∧ ∀ fs, new = some fs → P fs.appId := by
  have hring (evt : Option FlowEvent) (app : UInt16) (h : (PktPath.ring evt).app = some app) :
      P app := by cases h
  have hcounted {app : UInt16} (happ : P app) (app' : UInt16)
      (h : (PktPath.counted app).app = some app') : P app' := Option.some.inj h ▸ happ
  have hentry {fs : ObsFlowState} (happ : P fs.appId) (fs' : ObsFlowState)
      (h : some fs = some fs') : P fs'.appId := Option.some.inj h ▸ happ
  cases h with
  | first _ => exact ⟨hring _, hentry hzero⟩
  | unstored _ => exact ⟨hring _, nofun⟩
  | decided fs _ => exact ⟨hcounted (hold fs rfl), hentry (hold fs rfl)⟩
  | learned fs v _ hv => exact ⟨hcounted (hverdict v hv), hentry (hverdict v hv)⟩
  | gaveUp fs _ _ _ => exact ⟨hcounted hzero, hentry hzero⟩
  | pending fs _ _ _ => exact ⟨hring _, hentry (hold fs rfl)⟩

namespace Kernel

/-- The ids in the kernel's maps, while `n` labels are in use. -/
structure Obeys (r : NameRules) (n : ℕ) (s : Kernel) : Prop where
  verdict : ∀ k v, s.verdictMap.lookup k = some v → r.app n v
  entry : ∀ k fs, s.flowMap.lookup k = some fs → r.app n fs.appId
  counted : ∀ cpu i, s.counters cpu i ≠ 0 → r.app n (UInt16.ofNat i)

variable {r : NameRules} {env : Env} {n : ℕ} {s : Kernel}

theorem Obeys.mono (hr : r.Closed env) {m : ℕ} (h : s.Obeys r n) (hle : n ≤ m) : s.Obeys r m :=
  ⟨fun k v hv => hr.mono hle (h.verdict k v hv), fun k fs hfs => hr.mono hle (h.entry k fs hfs),
    fun cpu i hi => hr.mono hle (h.counted cpu i hi)⟩

theorem obeys_start (r : NameRules) (n : ℕ) : Obeys r n {} := by
  refine ⟨fun k v hv => ?_, fun k fs hfs => ?_, fun cpu i hi => absurd rfl hi⟩
  · rw [BoundedMap.lookup_empty] at hv
    cases hv
  · rw [BoundedMap.lookup_empty] at hfs
    cases hfs

theorem Obeys.packet (hr : r.Closed env) (h : s.Obeys r n) (p : Pkt) :
    (processPkt s p).1.Obeys r n := by
  cases hparse : parsePkt p.skb with
  | none =>
    rw [processPkt_of_none hparse]
    exact h
  | some x =>
    obtain ⟨k, tot⟩ := x
    rw [processPkt_of_some hparse]
    dsimp only
    obtain ⟨hpath, hnew⟩ := (processFlow_flowStep s p k (p.event k tot)).forall_app
      (hr.mono (Nat.zero_le n) hr.none) (h.verdict k) (h.entry k)
    refine ⟨fun k' v hv => ?_, fun k' fs hfs => ?_, fun cpu i hi => ?_⟩
    · rw [processFlow_verdictMap] at hv
      exact h.verdict k' v hv
    · by_cases hk : k' = k
      · subst hk
        exact hnew fs hfs
      · rw [processFlow_lookup_of_ne hk] at hfs
        exact h.entry k' fs hfs
    · by_cases hold : s.counters cpu i = 0
      · rw [counters_processFlow, hold, zero_add, PktOut.credit] at hi
        split at hi
        · exact absurd rfl hi
        · rename_i app happ
          split at hi
          case isFalse => exact absurd rfl hi
          case isTrue hmine =>
            rw [← hmine.2, UInt16.ofNat_toNat]
            exact hpath app happ
      · exact h.counted cpu i hold

theorem Obeys.writeVerdict (h : s.Obeys r n) (k : FlowKey) {app : UInt16} (happ : r.app n app) :
    (s.writeVerdict k app).Obeys r n := by
  refine ⟨fun k' v hv => ?_, h.entry, h.counted⟩
  by_cases hk : k' = k
  · subst hk
    rw [Kernel.writeVerdict] at hv
    cases hupdate : s.verdictMap.update k' app with
    | none =>
      rw [hupdate] at hv
      exact h.verdict k' v hv
    | some m =>
      rw [hupdate] at hv
      dsimp only [Option.getD_some] at hv
      rw [BoundedMap.lookup_update hupdate, if_pos rfl] at hv
      rw [← Option.some.inj hv]
      exact happ
  · rw [Pipeline.lookup_writeVerdict_of_ne s hk] at hv
    exact h.verdict k' v hv

end Kernel

/-! ### Both sides -/

/-- The kernel's maps and the engine. -/
structure Sides where
  kernel : Kernel := {}
  daemon : EngineRun

/-- A packet for the kernel program, or an operation of the engine, whose event may be any. -/
inductive SidesOp where
  | packet (p : Pkt)
  | engine (op : EngineOp)

/-- The names and ids that an operation brings in. -/
def SidesOp.Obeys (r : NameRules) : SidesOp → Prop
  | .packet _ => True
  | .engine op => op.Obeys r

/-- The effects of an operation of the engine. -/
def EngineOp.effects (env : Env) (e : Engine) : EngineOp → List Effect
  | .process evt fd a => (ndpiEngineProcess env e evt fd a).2
  | .age _ => []

namespace Sides

/-- Both sides at the start. -/
def start (iface : Bytes) (ml dump : Bool) : Sides := { daemon := EngineRun.start iface ml dump }

def step (env : Env) (w : Sides) : SidesOp → Sides
  | .packet p => { w with kernel := (processPkt w.kernel p).1 }
  | .engine op =>
    { kernel := (op.effects env w.daemon.engine).foldl Kernel.receive w.kernel
      daemon := w.daemon.step env op }

theorem step_age (env : Env) (w : Sides) (now : ℤ) : w.step env (.engine (.age now)) =
    { kernel := w.kernel, daemon := w.daemon.step env (.age now) } := by
  rw [step, EngineOp.effects, List.foldl_nil]

/-- **Pipelines.** The two sides of a run of the pipeline, seen without the ring buffer. -/
theorem exists_run_eq (env : Env) (fd : ℤ) (w : Pipeline) (ops : List PipelineOp) : ∃ l,
    run (step env) { kernel := w.kernel, daemon := w.daemon } l =
      { kernel := (run (Pipeline.next env fd) w ops).kernel
        daemon := (run (Pipeline.next env fd) w ops).daemon } := by
  induction ops generalizing w with
  | nil => exact ⟨[], rfl⟩
  | cons op ops ih =>
    have hstep : ∃ l, run (step env) { kernel := w.kernel, daemon := w.daemon } l =
        { kernel := (w.next env fd op).kernel, daemon := (w.next env fd op).daemon } := by
      cases op with
      | packet p => exact ⟨[.packet p], rfl⟩
      | deliver a =>
        rw [Pipeline.next, Pipeline.step]
        split
        · exact ⟨[.engine (.process _ fd a)], rfl⟩
        · exact ⟨[], rfl⟩
      | drained =>
        rcases Pipeline.step_drained_cases env fd w with heq | ⟨-, heq⟩
        all_goals
          rw [heq]
          exact ⟨[], rfl⟩
      | age now =>
        rcases Pipeline.step_age_cases env fd w now with heq | ⟨-, heq⟩
        · rw [heq]
          exact ⟨[], rfl⟩
        · rw [heq]
          refine ⟨[.engine (.age now)], ?_⟩
          rw [run_cons, run_nil, step_age]
      | loop => exact ⟨[], rfl⟩
    obtain ⟨l, hl⟩ := hstep
    obtain ⟨l', hl'⟩ := ih (w.next env fd op)
    exact ⟨l ++ l', by rw [run_append, hl, hl', run_cons]⟩

/-- The names and ids on both sides. -/
structure Obeys (r : NameRules) (w : Sides) : Prop where
  daemon : w.daemon.Obeys r []
  kernel : w.kernel.Obeys r w.daemon.engine.dynLabels.length

variable {r : NameRules} {env : Env}

theorem obeys_start (hr : r.Closed env) (iface : Bytes) (ml dump : Bool) :
    (start iface ml dump).Obeys r :=
  ⟨EngineRun.obeys_start hr iface ml dump, Kernel.obeys_start r _⟩

/-- **Names and ids in a step.** -/
theorem Obeys.step (hr : r.Closed env) {w : Sides} (h : w.Obeys r) {op : SidesOp}
    (hop : op.Obeys r) : (w.step env op).Obeys r := by
  cases op with
  | packet p => exact ⟨h.daemon, h.kernel.packet hr p⟩
  | engine op =>
    obtain ⟨hdaemon, hpre⟩ := h.daemon.step hr hop
    refine ⟨hdaemon, ?_⟩
    have hkernel := h.kernel.mono hr hpre.length_le
    cases op with
    | age now =>
      rw [step_age]
      exact hkernel
    | process evt fd a =>
      dsimp only [Sides.step, EngineOp.effects]
      cases hf : w.daemon.engine.obtain evt a with
      | none =>
        rw [ndpiEngineProcess_of_none env fd hf]
        exact hkernel
      | some f =>
        have hbody := h.daemon.body hr fd hop.1 hop.2 hf
        have happ := hbody.flow.app
        rw [Pipeline.foldl_receive,
          Pipeline.published_of_some env fd (w := { daemon := w.daemon }) hf]
        rw [EngineRun.step_process_of_some env fd hf] at hkernel ⊢
        split
        · exact hkernel.writeVerdict f.key happ
        · exact hkernel

/-- **Names and ids of a run.** When the names and ids that come in obey the rules, those on both
sides do. -/
theorem obeys_run (hr : r.Closed env) (iface : Bytes) (ml dump : Bool) (ops : List SidesOp)
    (hops : ∀ op ∈ ops, op.Obeys r) : (run (step env) (start iface ml dump) ops).Obeys r :=
  run_induction_along (along_iff_forall_mem.mpr hops) (obeys_start hr iface ml dump)
    fun _ _ hw hop => hw.step hr hop

end Sides

/-! ### Shown applications -/

namespace MetricsIn

variable {i : MetricsIn} {a : Fin numApps}

/-- An application on the page has a counter, in the engine or in the kernel. -/
theorem Shows.counts {e : Engine} {s : Kernel} (hi : i.ReadsFrom s) (h : i.Shows e a) :
    e.Counts a ∨ ∃ cpu, s.counters cpu a ≠ 0 := by
  have hmerged {c : Fin numApps → UInt64} {get : ObsAppCnt → UInt64}
      (hc : c a ≠ 0 → e.totals.1 a ≠ 0)
      (hget : ∀ cpu, get (s.appCounters cpu a) ≠ 0 → s.counters cpu a ≠ 0)
      (hne : i.merged c get a ≠ 0) : e.Counts a ∨ ∃ cpu, s.counters cpu a ≠ 0 := by
    rcases exists_of_merged_ne_zero hne with hengine | ⟨cnt, hmem, hcnt⟩
    · exact .inl (.inl (hc hengine))
    · obtain ⟨cpu, rfl⟩ := exists_of_mem_perCpu hi hmem
      exact .inr ⟨cpu, hget cpu hcnt⟩
  rcases h with h | h | h | ⟨m, -, hm⟩
  · exact hmerged (fun hne hzero => hne (congrArg Prod.fst hzero))
      (fun cpu hne hzero => hne (congrArg Prod.fst hzero)) h
  · exact hmerged (fun hne hzero => hne (congrArg (fun t => t.2.1) hzero))
      (fun cpu hne hzero => hne (congrArg (fun t => t.2.1) hzero)) h
  · exact hmerged (fun hne hzero => hne (congrArg (fun t => t.2.2) hzero))
      (fun cpu hne hzero => hne (congrArg (fun t => t.2.2) hzero)) h
  · exact .inl (.inr ⟨m.1, fun hzero => by simp [hzero] at hm⟩)

end MetricsIn

/-! ### Names -/

/-- The label with the id of the application. -/
def Engine.poolLabel (e : Engine) (a : Fin numApps) : Option Bytes :=
  if 400 ≤ a.val then e.dynLabels[a.val - 400]? else none

/-- The name of the application is asked of nDPI. -/
def Engine.FromNdpi (e : Engine) (a : Fin numApps) : Prop :=
  ndpiAiAppName (UInt16.ofNat a) = none ∧ e.poolLabel a = none

/-- On the page, no label has the name of a service or of a protocol, and no protocol that of a
service. -/
structure NamesApart (env : Env) (e : Engine) (i : MetricsIn) : Prop where
  label_service : ∀ a b l, i.Shows e a → i.Shows e b → e.poolLabel a = some l →
    ndpiAiAppName (UInt16.ofNat b) ≠ some l
  label_native : ∀ a b l, i.Shows e a → i.Shows e b → e.poolLabel a = some l → e.FromNdpi b →
    env.protoName (UInt16.ofNat b) ≠ l
  service_native : ∀ a b s, i.Shows e a → i.Shows e b → ndpiAiAppName (UInt16.ofNat a) = some s →
    e.FromNdpi b → env.protoName (UInt16.ofNat b) ≠ s

theorem toNat_ofNat_app (a : Fin numApps) : (UInt16.ofNat a).toNat = a.val := by
  have hlt : a.val < 512 := a.isLt
  rw [UInt16.toNat_ofNat']
  omega

theorem ofNat_app_injective : Function.Injective fun a : Fin numApps => UInt16.ofNat a := by
  intro a b h
  have hval := congrArg UInt16.toNat h
  dsimp only at hval
  rw [toNat_ofNat_app, toNat_ofNat_app] at hval
  exact Fin.ext hval

theorem zero_notMem_service {app : UInt16} {s : Bytes} (h : ndpiAiAppName app = some s) :
    0 ∉ s := by
  have hall : ∀ p ∈ ndpiAiAppNames, 0 ∉ text p.2 := by decide +kernel
  obtain ⟨t, ht, rfl⟩ := exists_mem_of_ndpiAiAppName h
  exact hall _ ht

/-- The services have different names. -/
theorem service_inj {app app' : UInt16} {s : Bytes} (h : ndpiAiAppName app = some s)
    (h' : ndpiAiAppName app' = some s) : app = app' := by
  have hall : ∀ p ∈ ndpiAiAppNames, ∀ q ∈ ndpiAiAppNames, text p.2 = text q.2 → p.1 = q.1 := by
    decide +kernel
  obtain ⟨t, ht, rfl⟩ := exists_mem_of_ndpiAiAppName h
  obtain ⟨t', ht', heq⟩ := exists_mem_of_ndpiAiAppName h'
  exact hall _ ht _ ht' heq.symm

namespace Engine

variable {e : Engine} {a b : Fin numApps}

theorem poolLabel_eq_some {l : Bytes} (h : e.poolLabel a = some l) :
    400 ≤ a.val ∧ e.dynLabels[a.val - 400]? = some l := by
  rw [poolLabel] at h
  split at h
  case isTrue hle => exact ⟨hle, h⟩
  case isFalse => cases h

theorem service_eq_none_of_poolLabel {l : Bytes} (h : e.poolLabel a = some l) :
    ndpiAiAppName (UInt16.ofNat a) = none := by
  cases hs : ndpiAiAppName (UInt16.ofNat a) with
  | none => rfl
  | some s =>
    have hlt := service_lt hs
    rw [toNat_ofNat_app] at hlt
    exact absurd (poolLabel_eq_some h).1 (by omega)

/-- Different ids have different labels. -/
theorem poolLabel_inj (hnodup : e.dynLabels.Nodup) {l : Bytes} (h : e.poolLabel a = some l)
    (h' : e.poolLabel b = some l) : a = b := by
  obtain ⟨hle, hget⟩ := poolLabel_eq_some h
  obtain ⟨hle', hget'⟩ := poolLabel_eq_some h'
  obtain ⟨hlt, -⟩ := List.getElem?_eq_some_iff.mp hget
  have hindex := (List.getElem?_inj hlt hnodup).mp (hget.trans hget'.symm)
  exact Fin.ext (by omega)

theorem source_cases (e : Engine) (a : Fin numApps) :
    (∃ s, ndpiAiAppName (UInt16.ofNat a) = some s) ∨ (∃ l, e.poolLabel a = some l) ∨
      e.FromNdpi a := by
  cases hs : ndpiAiAppName (UInt16.ofNat a) with
  | some s => exact .inl ⟨s, rfl⟩
  | none =>
    cases hl : e.poolLabel a with
    | some l => exact .inr (.inl ⟨l, rfl⟩)
    | none => exact .inr (.inr ⟨hs, hl⟩)

variable (env : Env)

theorem cString_appName_of_service {s : Bytes} (h : ndpiAiAppName (UInt16.ofNat a) = some s) :
    cString (e.appName env a) = s := by
  rw [appName, ndpiEngineAppName, h]
  exact cString_of_notMem (zero_notMem_service h)

theorem cString_appName_of_label (hlen : e.dynLabels.length ≤ 64)
    (hlabels : ∀ l ∈ e.dynLabels, 0 ∉ l) {l : Bytes} (h : e.poolLabel a = some l) :
    cString (e.appName env a) = l := by
  obtain ⟨hle, hget⟩ := poolLabel_eq_some h
  obtain ⟨hlt, -⟩ := List.getElem?_eq_some_iff.mp hget
  have hval := toNat_ofNat_app a
  have hpool : UInt16.ofNat a ≥ 400 ∧ UInt16.ofNat a < 464 ∧
      (UInt16.ofNat a).toNat - 400 < e.dynLabels.length := by
    refine ⟨UInt16.le_iff_toNat_le.mpr ?_, UInt16.lt_iff_toNat_lt.mpr ?_, by rwa [hval]⟩
    · rw [hval]
      exact hle
    · rw [hval]
      exact (by omega : a.val < 464)
  rw [appName, ndpiEngineAppName, service_eq_none_of_poolLabel h]
  dsimp only
  rw [if_pos hpool, hval, hget, Option.getD_some]
  exact cString_of_notMem (hlabels l (List.mem_of_getElem? hget))

theorem cString_appName_of_ndpi (h : e.FromNdpi a) :
    cString (e.appName env a) = env.protoName (UInt16.ofNat a) := by
  have hval := toNat_ofNat_app a
  have hpool : ¬(UInt16.ofNat a ≥ 400 ∧ UInt16.ofNat a < 464 ∧
      (UInt16.ofNat a).toNat - 400 < e.dynLabels.length) := by
    rintro ⟨hle, -, hlt⟩
    have hle : 400 ≤ (UInt16.ofNat a).toNat := UInt16.le_iff_toNat_le.mp hle
    have hnone := h.2
    rw [hval] at hle hlt
    rw [poolLabel, if_pos hle, List.getElem?_eq_none_iff] at hnone
    omega
  rw [appName, ndpiEngineAppName, h.1]
  dsimp only
  rw [if_neg hpool, Env.protoName]

theorem FromNdpi.mem_native {native : Set UInt16} (h : e.FromNdpi a)
    (hsource : HasSource native e.dynLabels.length (UInt16.ofNat a)) :
    UInt16.ofNat a ∈ native := by
  rcases hsource with hmem | hs | ⟨hle, hlt⟩ | hle
  · exact hmem
  · rw [h.1] at hs
    cases hs
  · rw [toNat_ofNat_app] at hle hlt
    have hnone := h.2
    rw [poolLabel, if_pos hle, List.getElem?_eq_none_iff] at hnone
    omega
  · rw [toNat_ofNat_app] at hle
    exact absurd a.isLt (Nat.not_lt.mpr hle)

end Engine

/-- **Names within a source differ.** So the shown applications have different names exactly when
the sources are apart. -/
theorem injOn_appName_iff {env : Env} {native : Set UInt16} (henv : env.Native native) {e : Engine}
    {i : MetricsIn} (hlen : e.dynLabels.length ≤ 64) (hlabels : ∀ l ∈ e.dynLabels, 0 ∉ l)
    (hnodup : e.dynLabels.Nodup)
    (hsource : ∀ a, i.Shows e a → HasSource native e.dynLabels.length (UInt16.ofNat a)) :
    Set.InjOn (fun a => cString (e.appName env a)) {a | i.Shows e a} ↔ NamesApart env e i := by
  have hlabel {a : Fin numApps} {l : Bytes} (h : e.poolLabel a = some l) :
      cString (e.appName env a) = l := e.cString_appName_of_label env hlen hlabels h
  have hservice {a : Fin numApps} {s : Bytes} (h : ndpiAiAppName (UInt16.ofNat a) = some s) :
      cString (e.appName env a) = s := e.cString_appName_of_service env h
  have hndpi {a : Fin numApps} (h : e.FromNdpi a) :
      cString (e.appName env a) = env.protoName (UInt16.ofNat a) := e.cString_appName_of_ndpi env h
  constructor
  · intro h
    refine ⟨fun a b l ha hb hl hs => ?_, fun a b l ha hb hl hn hname => ?_,
      fun a b s ha hb hs hn hname => ?_⟩
    · obtain rfl := h ha hb ((hlabel hl).trans (hservice hs).symm)
      rw [Engine.service_eq_none_of_poolLabel hl] at hs
      cases hs
    · obtain rfl := h ha hb ((hlabel hl).trans ((hndpi hn).trans hname).symm)
      rw [hn.2] at hl
      cases hl
    · obtain rfl := h ha hb ((hservice hs).trans ((hndpi hn).trans hname).symm)
      rw [hn.1] at hs
      cases hs
  · intro h a ha b hb heq
    dsimp only at heq
    rcases e.source_cases a with ⟨s, hs⟩ | ⟨l, hl⟩ | hn
    · rw [hservice hs] at heq
      rcases e.source_cases b with ⟨s', hs'⟩ | ⟨l', hl'⟩ | hn'
      · rw [hservice hs'] at heq
        exact ofNat_app_injective (service_inj hs (heq ▸ hs'))
      · rw [hlabel hl'] at heq
        exact absurd (heq ▸ hs) (h.label_service b a l' hb ha hl')
      · rw [hndpi hn'] at heq
        exact absurd heq.symm (h.service_native a b s ha hb hs hn')
    · rw [hlabel hl] at heq
      rcases e.source_cases b with ⟨s', hs'⟩ | ⟨l', hl'⟩ | hn'
      · rw [hservice hs'] at heq
        exact absurd (heq ▸ hs') (h.label_service a b l ha hb hl)
      · rw [hlabel hl'] at heq
        exact Engine.poolLabel_inj hnodup hl (heq ▸ hl')
      · rw [hndpi hn'] at heq
        exact absurd heq.symm (h.label_native a b l ha hb hl hn')
    · rw [hndpi hn] at heq
      rcases e.source_cases b with ⟨s', hs'⟩ | ⟨l', hl'⟩ | hn'
      · rw [hservice hs'] at heq
        exact absurd heq (h.service_native b a s' hb ha hs' hn)
      · rw [hlabel hl'] at heq
        exact absurd heq (h.label_native b a l' hb ha hl' hn)
      · rw [hndpi hn'] at heq
        exact ofNat_app_injective (henv.injOn (hn.mem_native (hsource a ha))
          (hn'.mem_native (hsource b hb)) heq)

/-! ### Runs -/

/-- The protocols that nDPI answers are among `native`. -/
def Answers.Native (native : Set UInt16) (a : Answers) : Prop :=
  (a.detection.app ∈ native ∧ a.detection.master ∈ native) ∧
    a.giveup.app ∈ native ∧ a.giveup.master ∈ native

namespace SidesOp

def Native (native : Set UInt16) : SidesOp → Prop
  | .engine (.process _ _ a) => a.Native native
  | _ => True

/-- No hostname of the operation makes a label with one of the names `taken`. A hostname of a DNS
response is first looked up in the tables, one that nDPI finds is not. -/
def LabelsApart (env : Env) (taken : Set Bytes) : SidesOp → Prop
  | .engine (.process evt _ a) =>
    (∀ host ∈ [a.detectionHost, a.giveupHost], cString host ≠ [] →
      ∀ label, env.newLabel (strncpy host 79) = some label → label ∉ taken) ∧
    (evt.fromDnsPort = true → ∀ l, dnsParse (memoryReader evt.pktData) evt.dataLen = .ok l →
      ∀ x ∈ l, dnsMatchApp (strncpy x.name 79) = 0 →
        ∀ label, env.newLabel (strncpy x.name 79) = some label → label ∉ taken)
  | _ => True

theorem labelsApart_empty (env : Env) (op : SidesOp) : op.LabelsApart env ∅ := by
  cases op with
  | packet p => trivial
  | engine op =>
    cases op with
    | age now => trivial
    | process evt fd a =>
      exact ⟨fun _ _ _ label _ => Set.notMem_empty label,
        fun _ _ _ _ _ _ label _ => Set.notMem_empty label⟩

theorem obeys_nameRules {env : Env} {native : Set UInt16} {taken : Set Bytes} {op : SidesOp}
    (hnative : op.Native native) (hlabels : op.LabelsApart env taken) :
    op.Obeys (nameRules env native taken) := by
  have hzero (host : Bytes) : 0 ∉ strncpy host 79 :=
    fun h => zero_notMem_cString host (List.mem_of_mem_take h)
  have hbest {p : NdpiProtocol} (happ : p.app ∈ native) (hmaster : p.master ∈ native) :
      p.best ∈ native := by
    rw [NdpiProtocol.best]
    split
    · exact happ
    · exact hmaster
  cases op with
  | packet p => trivial
  | engine op =>
    cases op with
    | age now => trivial
    | process evt fd a =>
      obtain ⟨hhosts, hdns⟩ := hlabels
      obtain ⟨hdetection, hgiveup⟩ := hnative
      refine ⟨fun hport l hl x hx => ⟨hzero _, hdns hport l hl x hx⟩, ?_, ?_, ?_, ?_⟩
      · exact .inl (hbest hdetection.1 hdetection.2)
      · exact fun hne => ⟨hzero _, hhosts _ List.mem_cons_self hne⟩
      · exact .inl (hbest hgiveup.1 hgiveup.2)
      · exact fun hne => ⟨hzero _, hhosts _ (List.mem_cons_of_mem _ List.mem_cons_self) hne⟩

end SidesOp

/-- The names of services, and those of protocols whose ids are not a service's. -/
def Env.fixedNames (env : Env) (native : Set UInt16) : Set Bytes :=
  {s | ∃ app, ndpiAiAppName app = some s} ∪
    env.protoName '' {app | app ∈ native ∧ ndpiAiAppName app = none}

/-- No protocol of nDPI has the name of a service. -/
def Env.ServicesApart (env : Env) (native : Set UInt16) : Prop :=
  ∀ app ∈ native, ndpiAiAppName app = none → ∀ app', ndpiAiAppName app' ≠ some (env.protoName app)

namespace Sides

theorem Obeys.hasSource {env : Env} {native : Set UInt16} {taken : Set Bytes} {w : Sides}
    (h : w.Obeys (nameRules env native taken)) {i : MetricsIn} (hi : i.ReadsFrom w.kernel)
    {a : Fin numApps} (ha : i.Shows w.daemon.engine a) :
    HasSource native w.daemon.engine.dynLabels.length (UInt16.ofNat a) := by
  rcases ha.counts hi with hcounts | ⟨cpu, hcpu⟩
  · exact h.daemon.engine.counted a hcounts
  · exact h.kernel.counted cpu a hcpu

/-- **One series for each application.** In every state of every run, no two applications on the
page have the same name if and only if the names of its labels, services and protocols are apart.
Then the page has no series twice, when nDPI's names of the categories differ. The names are apart
in every state when nDPI has no protocol with the name of a service and no hostname that comes in
makes a label with the name of a service or a protocol. -/
theorem one_series_run {env : Env} {native : Set UInt16} (henv : env.Native native) (iface : Bytes)
    (ml dump : Bool) (ops : List SidesOp) (hops : ∀ op ∈ ops, op.Native native) (i : MetricsIn)
    (hi : i.ReadsFrom (run (step env) (start iface ml dump) ops).kernel) :
    let e := (run (step env) (start iface ml dump) ops).daemon.engine
    (Set.InjOn (fun a => cString (e.appName env a)) {a | i.Shows e a} ↔ NamesApart env e i) ∧
    (NamesApart env e i →
      Set.InjOn (fun c => cString (Engine.categoryName env c)) {c | e.ShowsCategory c} →
      (series (pageContent env e i)).Nodup) ∧
    (env.ServicesApart native → (∀ op ∈ ops, op.LabelsApart env (env.fixedNames native)) →
      NamesApart env e i) := by
  intro e
  have hobeys := obeys_run (closed_nameRules henv ∅) iface ml dump ops fun op hop =>
    SidesOp.obeys_nameRules (hops op hop) (op.labelsApart_empty env)
  have hengine := hobeys.daemon.engine
  have hiff : Set.InjOn (fun a => cString (e.appName env a)) {a | i.Shows e a} ↔
      NamesApart env e i :=
    injOn_appName_iff henv hengine.length_le (fun l hl => (hengine.label l hl).1) hengine.nodup
      fun a ha => hobeys.hasSource hi ha
  refine ⟨hiff, fun hapart hcategory => ?_, fun hservices hlabels => ?_⟩
  · refine nodup_series_pageContent env e i (hiff.mpr hapart) hcategory ?_ fun k =>
      (hengine.cached k).slot
    rw [List.map_congr_left fun l hl => cString_of_notMem (hengine.label l hl).1, List.map_id']
    exact hengine.nodup
  · have htaken := (obeys_run (closed_nameRules henv (env.fixedNames native)) iface ml dump ops
      fun op hop => SidesOp.obeys_nameRules (hops op hop) (hlabels op hop)).daemon.engine.label
    have hfree {a : Fin numApps} {l : Bytes} (hl : e.poolLabel a = some l) :
        l ∉ env.fixedNames native :=
      (htaken l (List.mem_of_getElem? (Engine.poolLabel_eq_some hl).2)).2
    refine ⟨fun a b l _ _ hl hs => ?_, fun a b l _ hb hl hn hname => ?_,
      fun a b s _ hb hs hn hname => ?_⟩
    · exact hfree hl (.inl ⟨_, hs⟩)
    · exact hfree hl (.inr ⟨_, ⟨hn.mem_native (hobeys.hasSource hi hb), hn.1⟩, hname⟩)
    · refine hservices _ (hn.mem_native (hobeys.hasSource hi hb)) hn.1 (UInt16.ofNat a) ?_
      rw [hname]
      exact hs

theorem protoName_numberEnv (app : UInt16) : numberEnv.protoName app = decimal app.toNat :=
  cString_of_notMem (zero_notMem_decimal _)

theorem native_numberEnv : numberEnv.Native Set.univ where
  unknown := Set.mem_univ _
  table _ _ := Set.mem_univ _
  matched _ := Set.mem_univ _
  protocolId _ := .inl rfl
  injOn app _ app' _ h := by
    rw [protoName_numberEnv, protoName_numberEnv] at h
    exact UInt16.toNat_inj.mp (decimal_injective h)

theorem categoryName_numberEnv_injective :
    Function.Injective fun c => cString (Engine.categoryName numberEnv c) := by
  have hname (c : Fin numCats) : cString (Engine.categoryName numberEnv c) = decimal c := by
    rw [Engine.categoryName]
    change cString (decimal (UInt8.ofNat c).toNat) = decimal c
    rw [cString_of_notMem (zero_notMem_decimal _),
      UInt8.toNat_ofNat_of_lt' (c.isLt.trans (by decide))]
  intro c c' h
  dsimp only at h
  rw [hname, hname] at h
  exact Fin.ext (decimal_injective h)

/-- No service is called by a number. -/
theorem servicesApart_numberEnv : numberEnv.ServicesApart Set.univ := by
  have hletters : ∀ p ∈ ndpiAiAppNames, isDigits (text p.2) = false := by decide +kernel
  intro app _ _ app' hs
  obtain ⟨t, ht, hname⟩ := exists_mem_of_ndpiAiAppName hs
  have hdigits := hletters _ ht
  dsimp only at hdigits
  rw [hname, protoName_numberEnv, isDigits_decimal] at hdigits
  cases hdigits

/-- The response, the flow to its address, the flow with a label and the flow that only nDPI knows,
as operations of both sides. -/
def labelOps : List SidesOp := EngineRun.sampleOps.map .engine

theorem native_labelOps : ∀ op ∈ labelOps, op.Native Set.univ := by
  simp [labelOps, EngineRun.sampleOps, SidesOp.Native, Answers.Native]

theorem labelsApart_labelOps :
    ∀ op ∈ labelOps, op.LabelsApart numberEnv (numberEnv.fixedNames Set.univ) := by
  have hlabel : numberEnv.newLabel (strncpy (text "www.spotify.com") 79) =
      some (text "Spotify") := by
    decide +kernel
  have hfree : text "Spotify" ∉ numberEnv.fixedNames Set.univ := by
    rintro (⟨app, hs⟩ | ⟨app, -, hname⟩)
    · have hother : ∀ p ∈ ndpiAiAppNames, text p.2 ≠ text "Spotify" := by decide +kernel
      obtain ⟨t, ht, hname⟩ := exists_mem_of_ndpiAiAppName hs
      exact hother _ ht hname
    · have hdigits := isDigits_decimal app.toNat
      rw [← protoName_numberEnv, hname] at hdigits
      exact absurd hdigits (by decide +kernel)
  have hhosts {host : Bytes} (h : ∀ label, numberEnv.newLabel (strncpy host 79) = some label →
      label ∉ numberEnv.fixedNames Set.univ) (x : Bytes) (hx : x ∈ [host, []])
      (hne : cString x ≠ []) (label : Bytes)
      (hl : numberEnv.newLabel (strncpy x 79) = some label) :
      label ∉ numberEnv.fixedNames Set.univ := by
    rcases List.mem_pair.mp hx with rfl | rfl
    · exact h label hl
    · exact absurd rfl hne
  have hnone (label : Bytes) (hl : numberEnv.newLabel (strncpy [] 79) = some label) :
      label ∉ numberEnv.fixedNames Set.univ := by
    cases hl
  simp only [labelOps, EngineRun.sampleOps, List.map_cons, List.map_nil, List.forall_mem_cons]
  refine ⟨⟨hhosts hnone, fun _ l hl => ?_⟩,
    ⟨hhosts hnone, fun hport => absurd hport (by decide)⟩,
    ⟨hhosts fun label hl => ?_, fun hport => absurd hport (by decide)⟩,
    ⟨hhosts hnone, fun hport => absurd hport (by decide)⟩, List.forall_mem_nil _⟩
  · rw [dnsParse_mistralEvent] at hl
    rw [← Except.ok.inj hl, List.forall_mem_singleton]
    exact fun hunknown => absurd hunknown (by decide +kernel)
  · have heq := hlabel.symm.trans hl
    exact Option.some.inj heq ▸ hfree

/-- Both sides after `labelOps`. -/
def labelRun : Sides := run (step numberEnv) (start (text "eth0") true false) labelOps

/-- Its page shows a service, a label and a protocol of nDPI. -/
theorem labelRun_view :
    (∀ app ∈ [(306 : Fin numApps), 400, 91], MetricsIn.Shows {} labelRun.daemon.engine app) ∧
      [(306 : Fin numApps), 400, 91].map
          (fun app => cString (labelRun.daemon.engine.appName numberEnv app)) =
        [text "Mistral", text "Spotify", text "91"] := by
  refine ⟨fun app happ => .inr (.inr (.inl ?_)), by decide +kernel⟩
  have hflows : ∀ app ∈ [(306 : Fin numApps), 400, 91],
      labelRun.daemon.engine.appFlows app = 1 := by
    decide +kernel
  have hmerged : MetricsIn.merged {} labelRun.daemon.engine.appFlows ObsAppCnt.flows app =
      labelRun.daemon.engine.appFlows app := rfl
  rw [hmerged, hflows app happ]
  decide

/-- The service, the label and the protocol have names of their own, and the page has no series
twice. -/
theorem one_series_run_label :
    ((∀ app ∈ [(306 : Fin numApps), 400, 91], MetricsIn.Shows {} labelRun.daemon.engine app) ∧
      [(306 : Fin numApps), 400, 91].map
          (fun app => cString (labelRun.daemon.engine.appName numberEnv app)) =
        [text "Mistral", text "Spotify", text "91"]) ∧
      Set.InjOn (fun a => cString (labelRun.daemon.engine.appName numberEnv a))
        {a | MetricsIn.Shows {} labelRun.daemon.engine a} ∧
      (series (pageContent numberEnv labelRun.daemon.engine {})).Nodup := by
  have hseries := one_series_run native_numberEnv (text "eth0") true false labelOps native_labelOps
    {} (fun a c hc => by cases hc)
  have hapart := hseries.2.2 servicesApart_numberEnv labelsApart_labelOps
  exact ⟨labelRun_view, hseries.1.mpr hapart,
    hseries.2.1 hapart categoryName_numberEnv_injective.injOn⟩

/-- The response, a flow to its address without a hostname, and a flow with the hostname
`mistral.ai` to another address. -/
def mistralOps : List SidesOp :=
  [.engine (.process mistralEvent (-1) {}),
    .engine (.process visitEvent (-1) (tlsAnswers [])),
    .engine (.process udpEvent (-1) (tlsAnswers (text "mistral.ai")))]

/-- **The hostname of a service.** In the DNS cache it stands for the service; found by nDPI in a
flow it becomes a label with the service's name. -/
theorem label_takes_service_name : ¬∀ (env : Env) (native : Set UInt16), env.Native native →
    ∀ (iface : Bytes) (ml dump : Bool) (ops : List SidesOp), (∀ op ∈ ops, op.Native native) →
      ∀ i : MetricsIn, i.ReadsFrom (run (step env) (start iface ml dump) ops).kernel →
        Set.InjOn (fun a => cString
          ((run (step env) (start iface ml dump) ops).daemon.engine.appName env a))
          {a | i.Shows (run (step env) (start iface ml dump) ops).daemon.engine a} := by
  intro h
  have hinj := h numberEnv Set.univ native_numberEnv (text "eth0") true false mistralOps
    (by simp [mistralOps, SidesOp.Native, Answers.Native]) {} (fun a c hc => by cases hc)
  generalize hw : run (step numberEnv) (start (text "eth0") true false) mistralOps = w at hinj
  have hview : (w.daemon.engine.dynLabels, w.daemon.engine.appFlows 306,
      w.daemon.engine.appFlows 400) = ([text "Mistral"], 1, 1) := by
    rw [← hw]
    decide +kernel
  simp only [Prod.mk.injEq] at hview
  obtain ⟨hlabels, hservice, hlabel⟩ := hview
  have hshows {a : Fin numApps} (ha : w.daemon.engine.appFlows a = 1) :
      MetricsIn.Shows {} w.daemon.engine a := by
    refine .inr (.inr (.inl ?_))
    have hmerged : MetricsIn.merged {} w.daemon.engine.appFlows ObsAppCnt.flows a =
        w.daemon.engine.appFlows a := rfl
    rw [hmerged, ha]
    decide
  have hname : cString (w.daemon.engine.appName numberEnv 306) =
      cString (w.daemon.engine.appName numberEnv 400) := by
    rw [Engine.appName, Engine.appName, hlabels]
    decide +kernel
  have heq := hinj (hshows hservice) (hshows hlabel) hname
  exact absurd heq (by decide)

end Sides

end NdpiObserve
