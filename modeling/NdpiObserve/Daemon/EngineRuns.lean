import NdpiObserve.Library.Machine
import NdpiObserve.Daemon.CallSteps

/-!
# Runs of the engine

A run is any sequence of calls of `ndpi_engine_process` and `ndpi_engine_age` after
initialisation, with any events, clocks and answers. Besides the engine, `EngineRun` records what
properties of whole runs speak about: the entries that the sweep has passed to its callback, the
effects in order, and each call that obtained an entry, with the entry as it was.

## Main definitions

* `EngineRun`, `EngineOp`, `EngineRun.step`, `EngineRun.start`: runs.
* `EngineRun.flows`: every flow created so far, as it is now or as it was when it expired.

## Main results

* `EngineRun.process_cases`: what a call does to the flows.
* `EngineRun.sound_run`: the table stays valid, and `total_created` counts the flows.
* `EngineRun.sum_flows_run`: a quantity of the run that each call changes as the call's flow
  changes is a sum over all flows.
-/

namespace NdpiObserve

open Machine

/-! ### Calls and runs -/

/-- The calls of the main loops, with what the outside answers. -/
inductive EngineOp where
  | process (evt : FlowEvent) (fd : ℤ) (a : Answers)
  | age (now : ℤ)

/-- The engine after a run, and the record of the run. -/
structure EngineRun where
  engine : Engine
  /-- The entries passed to the callback of the sweep, in order. -/
  expired : List FlowEntry := []
  effects : List Effect := []
  /-- The calls that obtained an entry, with the entry before the call. -/
  calls : List (FlowEntry × FlowEvent × Answers) := []

/-- The engine when the main loop starts. -/
def Engine.start (iface : Bytes) (ml dump : Bool) : Engine :=
  let e := ndpiEngineSetMl ndpiEngineInit ml
  ndpiEngineSetDumpFeatures { e with iface := iface } dump

/-- The entry that a call of `ndpi_engine_process` works on. -/
def Engine.obtain (e : Engine) (evt : FlowEvent) (a : Answers) : Option FlowEntry :=
  (flowTableGetOrCreate e.flows evt.key a.calloc a.timeCreated).2

/-- The engine when the body of a call starts: the packet was looked at for a DNS response and
the entry obtained. -/
def Engine.bodyStart (e : Engine) (evt : FlowEvent) (a : Answers) : Engine :=
  { e.observeDns evt a with
    flows := (flowTableGetOrCreate e.flows evt.key a.calloc a.timeCreated).1 }

namespace EngineRun

def start (iface : Bytes) (ml dump : Bool) : EngineRun := { engine := Engine.start iface ml dump }

/-- One call. -/
def step (env : Env) (w : EngineRun) : EngineOp → EngineRun
  | .process evt fd a =>
    let r := ndpiEngineProcess env w.engine evt fd a
    { engine := r.1
      expired := w.expired
      effects := w.effects ++ r.2
      calls := w.calls ++ (w.engine.obtain evt a).toList.map fun f => (f, evt, a) }
  | .age now =>
    { w with
      engine := (ndpiEngineAge env w.engine now).1
      expired := w.expired ++
        (flowTableAge w.engine.flows now (some fun f l => l ++ [f]) []).2.1 }

/-- Every flow created so far: the entries of the table, and the expired ones as the sweep saw
them. -/
def flows (w : EngineRun) : Multiset FlowEntry :=
  w.engine.flows.entries + (w.expired : Multiset FlowEntry)

end EngineRun

/-! ### The entry of a call -/

section Obtain

variable {e : Engine} {evt : FlowEvent} {a : Answers}

/-- Looking for a DNS response changes the DNS cache only. -/
theorem Engine.exists_observeDns_eq (e : Engine) (evt : FlowEvent) (a : Answers) :
    ∃ cache, e.observeDns evt a = { e with dnsCache := cache } := by
  rw [Engine.observeDns]
  split
  · exact ⟨_, rfl⟩
  · exact ⟨e.dnsCache, rfl⟩

theorem Engine.observeDns_flows (e : Engine) (evt : FlowEvent) (a : Answers) :
    (e.observeDns evt a).flows = e.flows := by
  obtain ⟨cache, h⟩ := e.exists_observeDns_eq evt a
  rw [h]

theorem Engine.observeDns_totals (e : Engine) (evt : FlowEvent) (a : Answers) :
    (e.observeDns evt a).totals = e.totals := by
  obtain ⟨cache, h⟩ := e.exists_observeDns_eq evt a
  rw [h]
  rfl

/-- The entry is found, made, or, when the allocation fails, missing. -/
theorem Engine.obtain_cases (e : Engine) (evt : FlowEvent) (a : Answers) :
    (∃ f, flowTableLookup e.flows evt.key = some f ∧ e.obtain evt a = some f ∧
      (e.bodyStart evt a).flows = e.flows) ∨
    (flowTableLookup e.flows evt.key = none ∧
      e.obtain evt a = some (FlowTable.fresh evt.key a.timeCreated) ∧
      (e.bodyStart evt a).flows = e.flows.insert (FlowTable.fresh evt.key a.timeCreated)) ∨
    (flowTableLookup e.flows evt.key = none ∧ e.obtain evt a = none ∧
      (e.bodyStart evt a).flows = e.flows) := by
  cases hl : flowTableLookup e.flows evt.key with
  | some f =>
    have hget := FlowTable.getOrCreate_of_some hl a.calloc a.timeCreated
    exact .inl ⟨f, rfl, by rw [obtain, hget], by rw [bodyStart, hget]⟩
  | none =>
    have hget := FlowTable.getOrCreate_of_none hl a.calloc a.timeCreated
    cases hc : a.calloc with
    | true =>
      rw [hc] at hget
      exact .inr (.inl ⟨rfl, by rw [obtain, hc, hget]; rfl, by rw [bodyStart, hc, hget]; rfl⟩)
    | false =>
      rw [hc] at hget
      exact .inr (.inr ⟨rfl, by rw [obtain, hc, hget]; rfl, by rw [bodyStart, hc, hget]; rfl⟩)

variable (env : Env) (fd : ℤ)

theorem ndpiEngineProcess_of_some {f : FlowEntry} (h : e.obtain evt a = some f) :
    ndpiEngineProcess env e evt fd a =
      let c := Call.process env evt fd a { engine := e.bodyStart evt a, flow := f }
      ({ c.engine with flows := c.engine.flows.store c.flow }, c.effects) := by
  rw [Engine.obtain] at h
  dsimp only [ndpiEngineProcess]
  rw [Engine.observeDns_flows, h]
  rfl

theorem ndpiEngineProcess_of_none (h : e.obtain evt a = none) :
    ndpiEngineProcess env e evt fd a = (e.observeDns evt a, []) := by
  have hflows : (flowTableGetOrCreate e.flows evt.key a.calloc a.timeCreated).1 = e.flows := by
    rcases e.obtain_cases evt a with ⟨f, -, hf, -⟩ | ⟨-, hf, -⟩ | ⟨-, -, hf⟩
    · simp [hf] at h
    · simp [hf] at h
    · exact hf
  rw [Engine.obtain] at h
  dsimp only [ndpiEngineProcess]
  rw [Engine.observeDns_flows, h, hflows, ← Engine.observeDns_flows e evt a]

end Obtain

namespace EngineRun

variable (env : Env) {w : EngineRun}

/-! ### What a call does to the flows -/

/-- The sweep passes the idle entries to its callback. -/
theorem step_age (now : ℤ) : w.step env (.age now) =
    { w with
      engine := { (w.engine.flows.idle now).foldl (fun e f => onFlowExpire env f e) w.engine with
        flows := w.engine.flows.sweep now }
      expired := w.expired ++ w.engine.flows.idle now } := by
  have hrecord (l : List FlowEntry) :
      l.foldl (fun (c : List FlowEntry) e => c ++ [e]) [] = l := by
    induction l using List.reverseRecOn with
    | nil => rfl
    | append_singleton l e ih => rw [List.foldl_append, ih]; rfl
  simp only [step, ndpiEngineAge, flowTableAge_eq, Option.elim_some, hrecord]
  rfl

theorem step_process_of_none {evt : FlowEvent} {a : Answers} (fd : ℤ)
    (h : w.engine.obtain evt a = none) :
    w.step env (.process evt fd a) = { w with engine := w.engine.observeDns evt a } := by
  simp only [step, ndpiEngineProcess_of_none env fd h, h, Option.toList_none, List.map_nil,
    List.append_nil]

/-- The call that the body of `ndpi_engine_process` makes on the entry `f`. -/
def body (w : EngineRun) (evt : FlowEvent) (fd : ℤ) (a : Answers) (f : FlowEntry) : Call :=
  Call.process env evt fd a { engine := w.engine.bodyStart evt a, flow := f }

theorem step_process_of_some {evt : FlowEvent} {a : Answers} (fd : ℤ) {f : FlowEntry}
    (h : w.engine.obtain evt a = some f) :
    w.step env (.process evt fd a) =
      { engine := { (w.body env evt fd a f).engine with
          flows := (w.engine.bodyStart evt a).flows.store (w.body env evt fd a f).flow }
        expired := w.expired
        effects := w.effects ++ (w.body env evt fd a f).effects
        calls := w.calls ++ [(f, evt, a)] } := by
  have hflows : (w.body env evt fd a f).engine.flows = (w.engine.bodyStart evt a).flows :=
    Call.process_flows env evt fd a _
  simp only [step, ndpiEngineProcess_of_some env fd h, h, Option.toList_some, List.map_cons,
    List.map_nil]
  rw [← hflows]
  rfl

/-- The run when the body of a call starts. -/
def entered (w : EngineRun) (evt : FlowEvent) (a : Answers) : EngineRun :=
  { w with engine := w.engine.bodyStart evt a }

/-- A call finds its flow among those created so far, or creates it. -/
theorem entered_cases {evt : FlowEvent} {a : Answers} {f : FlowEntry}
    (h : w.engine.obtain evt a = some f) :
    (flowTableLookup w.engine.flows evt.key = some f ∧
      (w.entered evt a).engine.flows = w.engine.flows) ∨
    (f = FlowTable.fresh evt.key a.timeCreated ∧
      flowTableLookup w.engine.flows evt.key = none ∧
      (w.entered evt a).engine.flows = w.engine.flows.insert f) := by
  rcases w.engine.obtain_cases evt a with ⟨g, hl, hg, hb⟩ | ⟨hl, hg, hb⟩ | ⟨-, hg, -⟩
  · obtain rfl : g = f := Option.some.inj (hg.symm.trans h)
    exact .inl ⟨hl, hb⟩
  · obtain rfl := Option.some.inj (hg.symm.trans h)
    exact .inr ⟨rfl, hl, hb⟩
  · simp [hg] at h

/-- The invariant of the table: it is valid, and `total_created` is the number of flows. -/
structure Sound (w : EngineRun) : Prop where
  valid : w.engine.flows.Valid
  totalCreated_eq : w.engine.flows.totalCreated = UInt64.ofNat (Multiset.card w.flows)

theorem Sound.entered (hw : w.Sound) {evt : FlowEvent} {a : Answers} {f : FlowEntry}
    (h : w.engine.obtain evt a = some f) :
    (w.entered evt a).Sound ∧ flowTableLookup (w.entered evt a).engine.flows evt.key = some f := by
  rcases entered_cases h with ⟨hl, hb⟩ | ⟨rfl, hl, hb⟩
  · refine ⟨⟨?_, ?_⟩, ?_⟩
    · rw [hb]
      exact hw.valid
    · rw [flows, hb]
      exact hw.totalCreated_eq
    · rw [hb, hl]
  · refine ⟨⟨?_, ?_⟩, ?_⟩
    · rw [hb]
      exact hw.valid.insert hl
    · rw [flows, hb, FlowTable.entries_insert, Multiset.cons_add, Multiset.card_cons,
        UInt64.ofNat_add]
      exact congrArg (· + 1) hw.totalCreated_eq
    · rw [hb, FlowTable.lookup_insert]
      exact if_pos rfl

/-- **The entry of a call.** Once a call has its entry, that entry is exchanged in the table. -/
theorem Sound.exists_entries_step (hw : w.Sound) {evt : FlowEvent} {a : Answers} (fd : ℤ)
    {f : FlowEntry} (h : w.engine.obtain evt a = some f) :
    f.key = evt.key ∧ ∃ R : Multiset FlowEntry, (∀ g ∈ R, g.key ≠ evt.key) ∧
      (w.entered evt a).engine.flows.entries = f ::ₘ R ∧
      (w.step env (.process evt fd a)).engine.flows.entries =
        (w.body env evt fd a f).flow ::ₘ R := by
  obtain ⟨hsound, hl⟩ := hw.entered h
  have hkey : f.key = evt.key := hsound.valid.key_lookup hl
  have hkey' : (w.body env evt fd a f).flow.key = evt.key :=
    (Call.process_key env evt fd a _).trans hkey
  obtain ⟨R, hR, hR'⟩ := hsound.valid.exists_entries_store (f := (w.body env evt fd a f).flow)
    (by rw [hkey', hl])
  refine ⟨hkey, R, fun g hg hgk => ?_, hR, ?_⟩
  · have hnodup := hsound.valid.nodup_keys
    rw [hR, Multiset.map_cons, Multiset.nodup_cons] at hnodup
    exact hnodup.1 (Multiset.mem_map.mpr ⟨g, hg, hgk.trans hkey.symm⟩)
  · rw [← hR', step_process_of_some env fd h]
    rfl

/-- **The flow of a call.** Once a call has its entry, the entry is exchanged among the flows. -/
theorem Sound.exists_flows_step (hw : w.Sound) {evt : FlowEvent} {a : Answers} (fd : ℤ)
    {f : FlowEntry} (h : w.engine.obtain evt a = some f) :
    ∃ R : Multiset FlowEntry, (w.entered evt a).flows = f ::ₘ R ∧
      (w.step env (.process evt fd a)).flows = (w.body env evt fd a f).flow ::ₘ R := by
  obtain ⟨-, R, -, hR, hR'⟩ := hw.exists_entries_step env fd h
  refine ⟨R + w.expired, ?_, ?_⟩
  · rw [flows, hR, Multiset.cons_add]
    rfl
  · rw [flows, hR', Multiset.cons_add]
    rfl

/-- After a call the table holds its entry as the call leaves it, and every other as before. -/
theorem Sound.lookup_step_process (hw : w.Sound) {evt : FlowEvent} {a : Answers} (fd : ℤ)
    {f : FlowEntry} (h : w.engine.obtain evt a = some f) (k : FlowKey) :
    flowTableLookup (w.step env (.process evt fd a)).engine.flows k =
      if evt.key = k then some (w.body env evt fd a f).flow
      else flowTableLookup w.engine.flows k := by
  obtain ⟨hsound, hl⟩ := hw.entered h
  have hkey : (w.body env evt fd a f).flow.key = evt.key :=
    (Call.process_key env evt fd a _).trans (hsound.valid.key_lookup hl)
  rw [step_process_of_some env fd h]
  dsimp only
  split
  case isTrue hk =>
    have hself := FlowTable.lookup_store_self (w.engine.bodyStart evt a).flows
      (w.body env evt fd a f).flow
    rw [hkey] at hself
    rw [← hk, hself]
    exact congrArg (Option.map fun _ => _) hl
  case isFalse hk =>
    rw [FlowTable.lookup_store_of_ne _ (by rwa [hkey])]
    rcases entered_cases h with ⟨-, hb⟩ | ⟨rfl, -, hb⟩
    · exact congrArg (flowTableLookup · k) hb
    · refine (congrArg (flowTableLookup · k) hb).trans ?_
      rw [FlowTable.lookup_insert]
      exact if_neg hk

/-- A call without an entry leaves the table alone. -/
theorem lookup_step_process_of_none {evt : FlowEvent} {a : Answers} (fd : ℤ)
    (h : w.engine.obtain evt a = none) (k : FlowKey) :
    flowTableLookup (w.step env (.process evt fd a)).engine.flows k =
      flowTableLookup w.engine.flows k := by
  rw [step_process_of_none env fd h]
  exact congrArg (flowTableLookup · k) (w.engine.observeDns_flows evt a)

/-- A call adds its flow to the totals on the exits with a verdict tail. -/
theorem totals_step_process {evt : FlowEvent} {a : Answers} (fd : ℤ) {f : FlowEntry}
    (h : w.engine.obtain evt a = some f) :
    (w.step env (.process evt fd a)).engine.totals = w.engine.totals +
      if (f.exit evt a).hasTail then (w.body env evt fd a f).flow.share env else 0 := by
  have hstart : (w.engine.bodyStart evt a).totals = w.engine.totals :=
    (Engine.totals_with_flows _ _).trans (w.engine.observeDns_totals evt a)
  rw [step_process_of_some env fd h, ← hstart]
  exact Call.process_totals env evt fd a { engine := w.engine.bodyStart evt a, flow := f }

/-- A sweep adds the idle flows to the totals. -/
theorem totals_step_age (now : ℤ) : (w.step env (.age now)).engine.totals =
    w.engine.totals + ((w.engine.flows.idle now).map fun f => f.share env).sum := by
  rw [step_age, Engine.totals_with_flows]
  generalize w.engine.flows.idle now = l
  induction l using List.reverseRecOn with
  | nil => exact (add_zero _).symm
  | append_singleton l f ih =>
    rw [List.foldl_append, List.map_append, List.sum_append, ← add_assoc, ← ih, List.map_singleton,
      List.sum_singleton]
    exact Engine.totals_addTotals env _ f

/-- The settings stay as they are. -/
theorem settings_step (op : EngineOp) :
    (w.step env op).engine.settings = w.engine.settings := by
  cases op with
  | age now =>
    rw [step_age]
    generalize w.engine.flows.idle now = l
    induction l using List.reverseRecOn with
    | nil => rfl
    | append_singleton l f ih =>
      rw [List.foldl_append]
      exact ih
  | process evt fd a =>
    obtain ⟨cache, hdns⟩ := w.engine.exists_observeDns_eq evt a
    cases hf : w.engine.obtain evt a with
    | none =>
      rw [step_process_of_none env fd hf, hdns]
      rfl
    | some f =>
      rw [step_process_of_some env fd hf]
      refine (Call.process_settings env evt fd a _).trans ?_
      rw [Engine.bodyStart, hdns]
      rfl

theorem settings_run (w : EngineRun) (ops : List EngineOp) :
    (run (step env) w ops).engine.settings = w.engine.settings :=
  run_induction (P := fun w' : EngineRun => w'.engine.settings = w.engine.settings) rfl
    (fun _ op hw => (settings_step env op).trans hw) ops

/-- A sweep removes the idle entries. -/
theorem Sound.lookup_step_age (hw : w.Sound) (now : ℤ) (k : FlowKey) :
    flowTableLookup (w.step env (.age now)).engine.flows k =
      (flowTableLookup w.engine.flows k).filter fun f => !f.isIdle now := by
  rw [step_age]
  exact hw.valid.lookup_sweep now k

theorem flows_age (now : ℤ) : (w.step env (.age now)).flows = w.flows := by
  rw [step_age, flows, flows, FlowTable.entries_eq_sweep_add_idle w.engine.flows now,
    ← Multiset.coe_add]
  abel

theorem entries_start (iface : Bytes) (ml dump : Bool) :
    (start iface ml dump).engine.flows.entries = 0 := by
  simp [start, Engine.start, ndpiEngineSetDumpFeatures, ndpiEngineSetMl, ndpiEngineInit,
    FlowTable.entries, flowTableInit]

theorem flows_start (iface : Bytes) (ml dump : Bool) : (start iface ml dump).flows = 0 := by
  rw [flows, entries_start]
  rfl

theorem sound_start (iface : Bytes) (ml dump : Bool) : (start iface ml dump).Sound where
  valid := FlowTable.valid_init
  totalCreated_eq := by rw [flows_start]; rfl

theorem Sound.step (hw : w.Sound) (op : EngineOp) : (w.step env op).Sound := by
  cases op with
  | age now =>
    refine ⟨by rw [step_age]; exact hw.valid.sweep now, ?_⟩
    rw [flows_age, step_age]
    exact hw.totalCreated_eq
  | process evt fd a =>
    cases ho : w.engine.obtain evt a with
    | none =>
      rw [step_process_of_none env fd ho]
      refine ⟨?_, ?_⟩
      · rw [Engine.observeDns_flows]
        exact hw.valid
      · rw [flows, Engine.observeDns_flows]
        exact hw.totalCreated_eq
    | some f =>
      obtain ⟨hsound, -⟩ := hw.entered ho
      obtain ⟨R, hR, hR'⟩ := hw.exists_flows_step env fd ho
      have hcard : Multiset.card (w.step env (.process evt fd a)).flows =
          Multiset.card (w.entered evt a).flows := by
        rw [hR, hR', Multiset.card_cons, Multiset.card_cons]
      refine ⟨?_, ?_⟩
      · rw [step_process_of_some env fd ho]
        exact hsound.valid.store _
      · rw [hcard, ← hsound.totalCreated_eq, step_process_of_some env fd ho]
        rfl

/-- Every run keeps the table valid and counts its flows. -/
theorem sound_run (iface : Bytes) (ml dump : Bool) (ops : List EngineOp) :
    (run (step env) (start iface ml dump) ops).Sound :=
  run_induction (sound_start iface ml dump) (fun _ op hw => hw.step env op) ops

/-! ### Sums over all flows -/

section Entries

variable {env} {P : FlowEntry → Prop}

theorem forall_entered (hfresh : ∀ k t, P (FlowTable.fresh k t)) (hP : ∀ f ∈ w.flows, P f)
    {evt : FlowEvent} {a : Answers} {f : FlowEntry} (h : w.engine.obtain evt a = some f) :
    ∀ g ∈ (w.entered evt a).flows, P g := by
  rcases entered_cases h with ⟨-, hb⟩ | ⟨rfl, -, hb⟩
  · rw [flows, hb]
    exact hP
  · rw [flows, hb, FlowTable.entries_insert, Multiset.cons_add]
    intro g hg
    rcases Multiset.mem_cons.mp hg with rfl | hg
    · exact hfresh _ _
    · exact hP g hg

/-- A property of entries that new entries have and the call of a step keeps. -/
theorem Sound.forall_step_of_body (hw : w.Sound) (hfresh : ∀ k t, P (FlowTable.fresh k t))
    (hP : ∀ f ∈ w.flows, P f) {op : EngineOp}
    (hbody : ∀ evt fd a f, op = .process evt fd a → w.engine.obtain evt a = some f → P f →
      P (w.body env evt fd a f).flow) : ∀ f ∈ (w.step env op).flows, P f := by
  cases op with
  | age now =>
    rw [flows_age]
    exact hP
  | process evt fd a =>
    cases ho : w.engine.obtain evt a with
    | none =>
      rw [step_process_of_none env fd ho, flows, Engine.observeDns_flows]
      exact hP
    | some f =>
      obtain ⟨R, hR, hR'⟩ := hw.exists_flows_step env fd ho
      have hentered := forall_entered hfresh hP ho
      rw [hR] at hentered
      rw [hR']
      intro g hg
      rcases Multiset.mem_cons.mp hg with rfl | hg
      · exact hbody evt fd a f rfl ho (hentered f (Multiset.mem_cons_self f R))
      · exact hentered g (Multiset.mem_cons_of_mem hg)

theorem Sound.forall_step (hw : w.Sound) (hfresh : ∀ k t, P (FlowTable.fresh k t))
    (hbody : ∀ evt fd a e f, P f → P (Call.process env evt fd a { engine := e, flow := f }).flow)
    (hP : ∀ f ∈ w.flows, P f) (op : EngineOp) : ∀ f ∈ (w.step env op).flows, P f :=
  hw.forall_step_of_body hfresh hP fun evt fd a f _ _ hf => hbody evt fd a _ f hf

/-- A property of entries that new entries have, and calls keep in steps that meet `Q`, holds of
all flows of a run whose steps meet `Q`. -/
theorem forall_flows_run_along {Q : EngineRun → EngineOp → Prop}
    (hfresh : ∀ k t, P (FlowTable.fresh k t))
    (hbody : ∀ w evt fd a f, Q w (.process evt fd a) → w.engine.obtain evt a = some f → P f →
      P (w.body env evt fd a f).flow)
    {iface : Bytes} {ml dump : Bool} {ops : List EngineOp}
    (h : Along (step env) Q (start iface ml dump) ops) :
    ∀ f ∈ (run (step env) (start iface ml dump) ops).flows, P f := by
  refine (run_induction_along (P := fun w : EngineRun => w.Sound ∧ ∀ f ∈ w.flows, P f) h
    ⟨sound_start iface ml dump, by simp [flows_start]⟩ fun w op hw hq => ?_).2
  refine ⟨hw.1.step env op, hw.1.forall_step_of_body hfresh hw.2 ?_⟩
  rintro evt fd a f rfl ho hf
  exact hbody w evt fd a f hq ho hf

/-- A property of entries that new entries have and calls keep holds of all flows. -/
theorem forall_flows_run (hfresh : ∀ k t, P (FlowTable.fresh k t))
    (hbody : ∀ evt fd a e f, P f → P (Call.process env evt fd a { engine := e, flow := f }).flow)
    (iface : Bytes) (ml dump : Bool) (ops : List EngineOp) :
    ∀ f ∈ (run (step env) (start iface ml dump) ops).flows, P f := by
  refine (run_induction (P := fun w : EngineRun => w.Sound ∧ ∀ f ∈ w.flows, P f)
    ⟨sound_start iface ml dump, ?_⟩
    (fun _ op hw => ⟨hw.1.step env op, hw.1.forall_step hfresh hbody hw.2 op⟩) ops).2
  simp [flows_start]

end Entries

/-- A quantity `C` of the run that starts at zero, that depends neither on the DNS cache nor on
the table nor on the totals, and that a call changes as `g` changes on the entry of the call,
where `g` is zero on new entries and `P` holds of all entries. -/
structure Tallies {A : Type*} [AddCommGroup A] (P : FlowEntry → Prop) (C : EngineRun → A)
    (g : FlowEntry → A) : Prop where
  start : ∀ iface ml dump, C (start iface ml dump) = 0
  new : ∀ k t, g (FlowTable.fresh k t) = 0
  dns : ∀ w evt a, C { w with engine := w.engine.observeDns evt a } = C w
  table : ∀ w t, C { w with engine := { w.engine with flows := t } } = C w
  expire : ∀ w f, C { w with engine := onFlowExpire env f w.engine } = C w
  expired : ∀ w l, C { w with expired := l } = C w
  call : ∀ w evt fd a f, P f →
    let c := Call.process env evt fd a { engine := w.engine, flow := f }
    C { w with
      engine := c.engine, effects := w.effects ++ c.effects
      calls := w.calls ++ [(f, evt, a)] } = C w + (g c.flow - g f)

section Sums

variable {env} {A : Type*} [AddCommGroup A] {P : FlowEntry → Prop} {C : EngineRun → A}
  {g : FlowEntry → A}

theorem Tallies.step (h : Tallies env P C g) (hfresh : ∀ k t, P (FlowTable.fresh k t))
    (hw : w.Sound) (hP : ∀ f ∈ w.flows, P f) (hsum : C w = (w.flows.map g).sum) (op : EngineOp) :
    C (w.step env op) = ((w.step env op).flows.map g).sum := by
  cases op with
  | age now =>
    have hfold (l : List FlowEntry) (e : Engine) :
        C { w with engine := l.foldl (fun e f => onFlowExpire env f e) e } =
          C { w with engine := e } := by
      induction l generalizing e with
      | nil => rfl
      | cons f l ih => exact (ih _).trans (h.expire { w with engine := e } f)
    rw [flows_age, ← hsum, step_age]
    let e := (w.engine.flows.idle now).foldl (fun e f => onFlowExpire env f e) w.engine
    calc C { w with
          engine := { e with flows := w.engine.flows.sweep now }
          expired := w.expired ++ w.engine.flows.idle now }
        = C { w with engine := { e with flows := w.engine.flows.sweep now } } :=
          h.expired { w with engine := { e with flows := w.engine.flows.sweep now } } _
      _ = C { w with engine := e } := h.table { w with engine := e } _
      _ = C w := hfold _ _
  | process evt fd a =>
    cases ho : w.engine.obtain evt a with
    | none =>
      rw [step_process_of_none env fd ho, h.dns, hsum, flows, flows, Engine.observeDns_flows]
    | some f =>
      obtain ⟨R, hR, hR'⟩ := hw.exists_flows_step env fd ho
      have hentered : C (w.entered evt a) = ((w.entered evt a).flows.map g).sum := by
        refine ((h.table { w with engine := w.engine.observeDns evt a } _).trans
          (h.dns w evt a)).trans ?_
        rw [hsum]
        rcases entered_cases ho with ⟨-, hb⟩ | ⟨rfl, -, hb⟩
        · rw [flows, flows, hb]
          rfl
        · rw [flows, flows, hb, FlowTable.entries_insert, Multiset.cons_add, Multiset.map_cons,
            Multiset.sum_cons, h.new, zero_add]
          rfl
      have hPf : P f := forall_entered hfresh hP ho f (by rw [hR]; exact Multiset.mem_cons_self f R)
      have hcall := h.call (w.entered evt a) evt fd a f hPf
      rw [hentered, hR, Multiset.map_cons, Multiset.sum_cons] at hcall
      rw [hR', Multiset.map_cons, Multiset.sum_cons, step_process_of_some env fd ho]
      refine (h.table { engine := _, expired := _, effects := _, calls := _ } _).trans ?_
      refine hcall.trans ?_
      rw [body]
      change g f + _ + (_ - g f) = _
      abel

/-- **Sums over all flows.** A quantity of the run that each call changes as its flow changes is
a sum over all flows. -/
theorem Tallies.sum_flows_run (h : Tallies env P C g) (hfresh : ∀ k t, P (FlowTable.fresh k t))
    (hbody : ∀ evt fd a e f, P f → P (Call.process env evt fd a { engine := e, flow := f }).flow)
    (iface : Bytes) (ml dump : Bool) (ops : List EngineOp) :
    let w := run (EngineRun.step env) (EngineRun.start iface ml dump) ops
    C w = (w.flows.map g).sum := by
  refine (run_induction (P := fun w : EngineRun =>
      (w.Sound ∧ ∀ f ∈ w.flows, P f) ∧ C w = (w.flows.map g).sum)
    ⟨⟨sound_start iface ml dump, ?_⟩, ?_⟩ (fun w op hw => ?_) ops).2
  · simp [flows_start]
  · simp [flows_start, h.start]
  · obtain ⟨⟨hw, hP⟩, hsum⟩ := hw
    exact ⟨⟨hw.step env op, hw.forall_step hfresh hbody hP op⟩, h.step hfresh hw hP hsum op⟩

end Sums

end EngineRun

/-! ### A sample event -/

/-- A UDP packet from 10.0.0.1:40000 to 10.0.0.2:443 with four bytes of payload. -/
def udpPacket : Bytes :=
  [0x45, 0, 0, 32, 0, 0, 0, 0, 64, 17, 0, 0, 10, 0, 0, 1, 10, 0, 0, 2,
    0x9C, 0x40, 0x01, 0xBB, 0, 12, 0, 0, 1, 2, 3, 4]

/-- The event of `udpPacket`, captured whole. -/
def udpEvent : FlowEvent where
  key :=
    { srcIp := 0x0100000A, dstIp := 0x0200000A, srcPort := 0x409C, dstPort := 0xBB01
      proto := ipprotoUdp }
  pktData i := udpPacket.getD i 0
  pktLen := 32
  dataLen := 32

/-- The same packet in a flow to 1.2.3.4. -/
def visitEvent : FlowEvent := { udpEvent with key := { udpEvent.key with dstIp := 0x04030201 } }

end NdpiObserve
