import NdpiObserve.Daemon.EngineRuns
import NdpiObserve.Library.Ledger

/-!
# What a flow adds to the totals over its life

A flow may be added to the totals of its application and category at its verdict
(`Call.creditVerdict`) and again when it expires (`onFlowExpire`). A `LifeRun` measures, for each
flow, by how much the totals grew over its calls and at its expiry, and remembers how the flow
was decided. Every expired flow is added once by the sweep; a flow whose verdict came with the
verdict tail was added before, so it is added twice.

## Main definitions

* `Life`, `LifeRun`: a flow with what it added to the totals, and runs that measure it.
* `Accounted`: what an entry of the table has added so far.

## Main results

* `LifeRun.attributed_run`: what every flow of every run has added.
* `LifeRun.added_eq_share_iff`: which flows are added exactly once.
-/

namespace NdpiObserve

open Machine

/-- A flow, what its calls and its expiry added to the totals, and the exit that decided it. -/
structure Life where
  flow : FlowEntry
  added : Totals
  ended : Option Exit

/-- A run that measures the lives of flows: of the live ones by their keys, and of the expired
ones. -/
structure LifeRun extends EngineRun where
  live : FlowKey → Totals × Option Exit := fun _ => (0, none)
  closed : List Life := []

namespace LifeRun

variable (env : Env)

/-- The callback of the sweep, with the growth of the totals during it. -/
def expire (w : LifeRun) (f : FlowEntry) (s : Engine × List Life) : Engine × List Life :=
  let e := onFlowExpire env f s.1
  (e, s.2 ++ [{
    flow := f
    added := (w.live f.key).1 + (e.totals - s.1.totals)
    ended := (w.live f.key).2 }])

/-- One call, with the growth of the totals attributed to the flow of the call, and the growth
during each callback of the sweep to the flow that expires. -/
def step (w : LifeRun) : EngineOp → LifeRun
  | .process evt fd a =>
    let next := w.toEngineRun.step env (.process evt fd a)
    { toEngineRun := next
      live :=
        match w.engine.obtain evt a with
        | none => w.live
        | some f =>
          let old := if (flowTableLookup w.engine.flows evt.key).isSome then w.live evt.key
            else (0, none)
          Function.update w.live evt.key (old.1 + (next.engine.totals - w.engine.totals),
            if (f.exit evt a).decides then some (f.exit evt a) else old.2)
      closed := w.closed }
  | .age now =>
    { toEngineRun := w.toEngineRun.step env (.age now)
      live := w.live
      closed := w.closed ++
        (flowTableAge w.engine.flows now (some (w.expire env)) (w.engine, [])).2.1.2 }

def start (iface : Bytes) (ml dump : Bool) : LifeRun :=
  { toEngineRun := EngineRun.start iface ml dump }

/-- The life so far of an entry of the table. -/
def lifeOf (w : LifeRun) (f : FlowEntry) : Life where
  flow := f
  added := (w.live f.key).1
  ended := (w.live f.key).2

/-- The lives of all flows created so far. -/
def lives (w : LifeRun) : Multiset Life :=
  w.engine.flows.entries.map w.lifeOf + (w.closed : Multiset Life)

end LifeRun

/-- What an entry has added to the totals so far: its share, if the exit that decided it has a
verdict tail, and nothing otherwise. -/
def Accounted (env : Env) (f : FlowEntry) : Totals × Option Exit → Prop
  | (added, none) => f.state.isTerminal = false ∧ added = 0
  | (added, some y) =>
    f.state.isTerminal = true ∧ y.decides = true ∧
      added = if y.hasTail then f.share env else 0

namespace LifeRun

variable (env : Env) {w : LifeRun}

/-- The invariant of the measurement: every live entry is accounted for, every expired flow was
added once more by the sweep, and nothing else was added to the totals. -/
structure Attributed (w : LifeRun) : Prop where
  sound : w.toEngineRun.Sound
  live : ∀ f ∈ w.engine.flows.entries, Accounted env f (w.live f.key)
  closed : ∀ l ∈ w.closed, ∃ added, Accounted env l.flow (added, l.ended) ∧
    l.added = added + l.flow.share env
  closed_flow : w.closed.map Life.flow = w.expired
  totals : w.engine.totals = (w.lives.map Life.added).sum

theorem toEngineRun_step (op : EngineOp) :
    (w.step env op).toEngineRun = w.toEngineRun.step env op := by
  cases op <;> rfl

/-! ### One call -/

/-- A call on an entry that is accounted for leaves it accounted for. -/
theorem accounted_process (evt : FlowEvent) (fd : ℤ) (a : Answers) (e : Engine) {f : FlowEntry}
    {old : Totals × Option Exit} (h : Accounted env f old) :
    let c := Call.process env evt fd a { engine := e, flow := f }
    Accounted env c.flow (old.1 + (c.engine.totals - e.totals),
      if (f.exit evt a).decides then some (f.exit evt a) else old.2) := by
  intro c
  obtain ⟨added, ended⟩ := old
  have htotals : c.engine.totals = e.totals +
      if (f.exit evt a).hasTail then c.flow.share env else 0 :=
    Call.process_totals env evt fd a { engine := e, flow := f }
  have hadded : added + (c.engine.totals - e.totals) =
      added + if (f.exit evt a).hasTail then c.flow.share env else 0 := by
    rw [htotals, add_sub_cancel_left]
  rw [hadded]
  cases hterm : f.state.isTerminal with
  | true =>
    have hc : c = _ :=
      Call.process_of_isTerminal env evt fd a (c := { engine := e, flow := f }) hterm
    rw [Call.exit_eq_cached_iff.mpr hterm, hc]
    cases ended with
    | none => simp [Accounted, hterm] at h
    | some y => exact ⟨h.1, h.2.1, (add_zero _).trans h.2.2⟩
  | false =>
    obtain ⟨x, hallows, hrec⟩ := Call.process_records_entry env evt fd a e hterm
    have hleaves : x.Leaves c.flow := hrec.leaves
    cases ended with
    | some y => simp [Accounted, hterm] at h
    | none =>
      obtain ⟨-, rfl⟩ := h
      rw [zero_add]
      cases hdec : (f.exit evt a).decides with
      | true => exact ⟨hallows.isTerminal hdec hleaves, hdec, rfl⟩
      | false =>
        obtain ⟨hx, htail⟩ := hallows.undecided hdec
        subst hx
        exact ⟨hleaves, by rw [htail]; rfl⟩

/-! ### Whole runs -/

theorem sum_lives (w : LifeRun) : (w.lives.map Life.added).sum =
    (w.engine.flows.entries.map fun f => (w.live f.key).1).sum +
      (w.closed.map Life.added).sum := by
  have hlife (f : FlowEntry) : (Life.added ∘ w.lifeOf) f = (w.live f.key).1 := rfl
  rw [lives, Multiset.map_add, Multiset.sum_add, Multiset.map_map, Multiset.map_coe,
    Multiset.sum_coe, Multiset.map_congr rfl fun f _ => hlife f]

theorem attributed_start (iface : Bytes) (ml dump : Bool) :
    (start iface ml dump).Attributed env where
  sound := EngineRun.sound_start iface ml dump
  live f hf := by
    have hzero : (start iface ml dump).engine.flows.entries = 0 :=
      EngineRun.entries_start iface ml dump
    simp [hzero] at hf
  closed l hl := absurd hl List.not_mem_nil
  closed_flow := rfl
  totals := by
    have hzero : (start iface ml dump).engine.flows.entries = 0 :=
      EngineRun.entries_start iface ml dump
    have htotals : (start iface ml dump).engine.totals = 0 := rfl
    rw [sum_lives, hzero, htotals, Multiset.map_zero, Multiset.sum_zero, zero_add]
    exact List.sum_nil.symm

/-- The sweep adds the share of every idle entry. -/
theorem foldl_expire (w : LifeRun) (l : List FlowEntry) (e : Engine) (acc : List Life) :
    (l.foldl (fun s f => w.expire env f s) (e, acc)).2 =
        acc ++ l.map (fun f => { w.lifeOf f with added := (w.live f.key).1 + f.share env }) ∧
      (l.foldl (fun e f => onFlowExpire env f e) e).totals =
        e.totals + (l.map fun f => f.share env).sum := by
  induction l generalizing e acc with
  | nil => simp
  | cons f l ih =>
    have hshare : (onFlowExpire env f e).totals = e.totals + f.share env :=
      Engine.totals_addTotals env e f
    obtain ⟨h₁, h₂⟩ := ih (onFlowExpire env f e) (acc ++ [{
      w.lifeOf f with added := (w.live f.key).1 + f.share env }])
    refine ⟨?_, ?_⟩
    · rw [List.foldl_cons, expire, hshare, add_sub_cancel_left]
      exact h₁.trans (by rw [List.append_assoc]; rfl)
    · rw [List.foldl_cons, h₂, hshare, List.map_cons, List.sum_cons, add_assoc]

theorem Attributed.age (hw : w.Attributed env) (now : ℤ) :
    (w.step env (.age now)).Attributed env := by
  have hengine := EngineRun.step_age (w := w.toEngineRun) env now
  have hentries := w.engine.flows.entries_eq_sweep_add_idle now
  obtain ⟨hclosed, htotals⟩ := foldl_expire env w (w.engine.flows.idle now) w.engine []
  have hstep : (w.step env (.age now)).closed = w.closed ++
      (w.engine.flows.idle now).map
        (fun f => { w.lifeOf f with added := (w.live f.key).1 + f.share env }) := by
    rw [← List.nil_append ((w.engine.flows.idle now).map _), ← hclosed]
    simp only [step, flowTableAge_eq, Option.elim_some]
  refine ⟨?_, fun f hf => ?_, fun l hl => ?_, ?_, ?_⟩
  · rw [toEngineRun_step]
    exact hw.sound.step env _
  · refine hw.live f ?_
    rw [toEngineRun_step, hengine] at hf
    rw [hentries]
    exact Multiset.mem_add.mpr (.inl hf)
  · rw [hstep] at hl
    rcases List.mem_append.mp hl with hl | hl
    · exact hw.closed l hl
    · obtain ⟨f, hf, rfl⟩ := List.mem_map.mp hl
      refine ⟨(w.live f.key).1, hw.live f ?_, rfl⟩
      rw [hentries]
      exact Multiset.mem_add.mpr (.inr (Multiset.mem_coe.mpr hf))
  · rw [hstep, List.map_append, hw.closed_flow, List.map_map, toEngineRun_step, hengine]
    exact congrArg (w.expired ++ ·) (List.map_id _)
  · have hengine' : (w.step env (.age now)).engine.totals = _ :=
      (congrArg (fun r : EngineRun => r.engine.totals) hengine).trans
        (Engine.totals_with_flows _ _)
    have hflows : (w.step env (.age now)).engine.flows = _ :=
      congrArg (fun r : EngineRun => r.engine.flows) hengine
    have hlive : (w.step env (.age now)).live = w.live := by rw [step]
    rw [hengine', htotals, hw.totals, sum_lives, sum_lives, hstep, hflows, hentries,
      List.map_append, List.sum_append, Multiset.map_add, Multiset.sum_add, Multiset.map_coe,
      Multiset.sum_coe, List.map_map]
    have hidle (l : List FlowEntry) :
        (l.map (Life.added ∘ fun f =>
          { w.lifeOf f with added := (w.live f.key).1 + f.share env })).sum =
          (l.map fun f => (w.live f.key).1).sum + (l.map fun f => f.share env).sum := by
      exact List.sum_map_add
    rw [hidle, hlive]
    abel

/-- What the flow of a call had added before it: nothing, when the call creates it. -/
def before (w : LifeRun) (k : FlowKey) : Totals × Option Exit :=
  if (flowTableLookup w.engine.flows k).isSome then w.live k else (0, none)

theorem live_step_process {evt : FlowEvent} {a : Answers} (fd : ℤ) {f : FlowEntry}
    (ho : w.engine.obtain evt a = some f) :
    (w.step env (.process evt fd a)).live = Function.update w.live evt.key
      ((w.before evt.key).1 +
          ((w.toEngineRun.step env (.process evt fd a)).engine.totals - w.engine.totals),
        if (f.exit evt a).decides then some (f.exit evt a) else (w.before evt.key).2) := by
  simp only [step, ho]
  rfl

/-- The flow of a call was accounted for, and the table holds the other entries besides it. -/
theorem Attributed.before_call (hw : w.Attributed env) {evt : FlowEvent} {a : Answers}
    {f : FlowEntry} {R : Multiset FlowEntry} (ho : w.engine.obtain evt a = some f)
    (hkey : f.key = evt.key) (hR : (w.entered evt a).engine.flows.entries = f ::ₘ R) :
    Accounted env f (w.before evt.key) ∧ R ≤ w.engine.flows.entries ∧
      (w.engine.flows.entries.map fun f => (w.live f.key).1).sum =
        (w.before evt.key).1 + (R.map fun f => (w.live f.key).1).sum := by
  rcases EngineRun.entered_cases ho with ⟨hl, hb⟩ | ⟨rfl, hl, hb⟩
  · have hbefore : w.before evt.key = w.live f.key := by
      rw [before, hl, hkey]
      rfl
    rw [hb] at hR
    rw [hbefore, hR]
    refine ⟨hw.live f (by rw [hR]; exact Multiset.mem_cons_self f R),
      Multiset.le_cons_self R f, ?_⟩
    rw [Multiset.map_cons, Multiset.sum_cons]
  · have hbefore : w.before evt.key = (0, none) := by
      rw [before, hl]
      rfl
    rw [hb, FlowTable.entries_insert] at hR
    obtain rfl := (Multiset.cons_inj_right _).mp hR
    rw [hbefore]
    exact ⟨⟨rfl, rfl⟩, le_refl _, (zero_add _).symm⟩

theorem Attributed.process (hw : w.Attributed env) (evt : FlowEvent) (fd : ℤ) (a : Answers) :
    (w.step env (.process evt fd a)).Attributed env := by
  have hsound : (w.step env (.process evt fd a)).Sound := by
    rw [toEngineRun_step]
    exact hw.sound.step env _
  cases ho : w.engine.obtain evt a with
  | none =>
    have hengine : (w.step env (.process evt fd a)).engine = w.engine.observeDns evt a := by
      rw [toEngineRun_step, EngineRun.step_process_of_none env fd ho]
    have hflows : (w.step env (.process evt fd a)).engine.flows = w.engine.flows := by
      rw [hengine, Engine.observeDns_flows]
    have hlive : (w.step env (.process evt fd a)).live = w.live := by simp only [step, ho]
    have hexpired : (w.step env (.process evt fd a)).expired = w.expired := by
      rw [toEngineRun_step, EngineRun.step_process_of_none env fd ho]
    refine ⟨hsound, fun f hf => ?_, hw.closed, by rw [hexpired]; exact hw.closed_flow, ?_⟩
    · rw [hflows] at hf
      rw [hlive]
      exact hw.live f hf
    · have htotals := hw.totals
      rw [sum_lives] at htotals ⊢
      rw [hflows, hlive, hengine, Engine.observeDns_totals]
      exact htotals
  | some f =>
    obtain ⟨hkey, R, hne, hR, hR'⟩ := hw.sound.exists_entries_step env fd ho
    obtain ⟨hbefore, hle, hsum⟩ := hw.before_call env ho hkey hR
    have hkey' : (w.body env evt fd a f).flow.key = evt.key :=
      (Call.process_key env evt fd a _).trans hkey
    -- the growth of the totals during the body
    have htotals : (w.toEngineRun.step env (.process evt fd a)).engine.totals =
        (w.body env evt fd a f).engine.totals := by
      rw [EngineRun.step_process_of_some env fd ho]
      exact Engine.totals_with_flows _ _
    have hstart : (w.engine.bodyStart evt a).totals = w.engine.totals :=
      (Engine.totals_with_flows _ _).trans (w.engine.observeDns_totals evt a)
    have hacc := accounted_process env evt fd a (w.engine.bodyStart evt a) hbefore
    dsimp only at hacc
    rw [hstart] at hacc
    have hlive := live_step_process env fd ho
    rw [htotals] at hlive
    have hentries : (w.step env (.process evt fd a)).engine.flows.entries =
        (w.body env evt fd a f).flow ::ₘ R := by
      rw [toEngineRun_step, hR']
    have hexpired : (w.step env (.process evt fd a)).expired = w.expired := by
      rw [toEngineRun_step, EngineRun.step_process_of_some env fd ho]
    refine ⟨hsound, fun g hg => ?_, hw.closed, by rw [hexpired]; exact hw.closed_flow, ?_⟩
    · rw [hentries] at hg
      rw [hlive]
      rcases Multiset.mem_cons.mp hg with rfl | hg
      · rw [hkey', Function.update_self]
        exact hacc
      · rw [Function.update_of_ne (hne g hg)]
        exact hw.live g (Multiset.mem_of_le hle hg)
    · have hold := hw.totals
      rw [sum_lives, hsum] at hold
      have hrest : (R.map fun f => ((w.step env (.process evt fd a)).live f.key).1) =
          R.map fun f => (w.live f.key).1 :=
        Multiset.map_congr rfl fun g hg => by rw [hlive, Function.update_of_ne (hne g hg)]
      have hclosed : (w.step env (.process evt fd a)).closed = w.closed := by rw [step]
      rw [sum_lives, hentries, Multiset.map_cons, Multiset.sum_cons, hrest, hlive, hkey',
        Function.update_self, toEngineRun_step, htotals, hclosed, hold]
      dsimp only
      abel

theorem Attributed.step (hw : w.Attributed env) (op : EngineOp) :
    (w.step env op).Attributed env := by
  cases op with
  | process evt fd a => exact hw.process env evt fd a
  | age now => exact hw.age env now

/-- Every run accounts for what every flow adds to the totals. -/
theorem attributed_run (iface : Bytes) (ml dump : Bool) (ops : List EngineOp) :
    (run (step env) (start iface ml dump) ops).Attributed env :=
  run_induction (attributed_start env iface ml dump) (fun _ op hw => hw.step env op) ops

/-! ### Flows added exactly once -/

/-- An expired flow is added once, unless the exit that decided it had a verdict tail. -/
theorem added_eq_share_iff (hw : w.Attributed env) {l : Life} (hl : l ∈ w.closed)
    (hterm : l.flow.state.isTerminal = true) (happ : l.flow.appId.toNat < numApps) :
    l.added = l.flow.share env ↔ ∀ y ∈ l.ended, y.hasTail = false := by
  obtain ⟨added, hacc, hadded⟩ := hw.closed l hl
  rw [hadded, add_eq_right]
  cases hended : l.ended with
  | none => simp [hended, Accounted, hterm] at hacc
  | some y =>
    rw [hended] at hacc
    obtain ⟨-, -, rfl⟩ := hacc
    simp only [Option.mem_some_iff, forall_eq']
    cases htail : y.hasTail with
    | false => simp
    | true =>
      -- the flow counter of the application would not change
      refine iff_of_false (fun hzero => ?_) (by simp)
      have hflows := congrArg (fun t : Totals => (t.1 ⟨l.flow.appId.toNat, happ⟩).2.2) hzero
      simp [FlowEntry.share] at hflows

/-- The flow counter of an application, in the totals. -/
private def flowsAt (i : Fin numApps) : Totals →+ UInt64 :=
  AddMonoidHom.mk' (fun t => (t.1 i).2.2) fun _ _ => rfl

/-- A flow that was not added at its verdict counts at most once, and under its application. -/
private theorem flowsAt_added_le (hw : w.Attributed env)
    (htails : ∀ l ∈ w.closed, ∀ y ∈ l.ended, y.hasTail = false) {l : Life} (hl : l ∈ w.lives)
    (i : Fin numApps) :
    (flowsAt i l.added).toNat ≤ if l.flow.appId.toNat = i then 1 else 0 := by
  have hshare (f : FlowEntry) :
      (flowsAt i (f.share env)).toNat ≤ if f.appId.toNat = i then 1 else 0 := by
    change ((if i.val = f.appId.toNat then (f.bytes, f.packets, (1 : UInt64)) else 0).2.2).toNat ≤ _
    by_cases hi : i.val = f.appId.toNat
    · rw [if_pos hi, if_pos hi.symm]
      exact le_refl _
    · rw [if_neg hi, if_neg fun h => hi h.symm]
      exact le_refl _
  rcases Multiset.mem_add.mp hl with hl | hl
  · obtain ⟨f, hf, rfl⟩ := Multiset.mem_map.mp hl
    have hacc := hw.live f hf
    change (flowsAt i (w.live f.key).1).toNat ≤ if f.appId.toNat = i then 1 else 0
    generalize w.live f.key = p at hacc ⊢
    obtain ⟨added, ended⟩ := p
    cases ended with
    | none =>
      obtain ⟨-, rfl⟩ := hacc
      exact Nat.zero_le _
    | some y =>
      obtain ⟨-, -, rfl⟩ := hacc
      dsimp only
      split
      · exact hshare f
      · exact Nat.zero_le _
  · have hl := Multiset.mem_coe.mp hl
    obtain ⟨added, hacc, hadded⟩ := hw.closed l hl
    have hzero : added = 0 := by
      cases hended : l.ended with
      | none =>
        rw [hended] at hacc
        exact hacc.2
      | some y =>
        rw [hended] at hacc
        obtain ⟨-, -, rfl⟩ := hacc
        rw [htails l hl y hended]
        rfl
    rw [hadded, hzero, zero_add]
    exact hshare l.flow

theorem card_lives (hw : w.Attributed env) : Multiset.card w.lives = Multiset.card w.flows := by
  rw [lives, EngineRun.flows, Multiset.card_add, Multiset.card_add, Multiset.card_map,
    ← hw.closed_flow]
  simp

theorem sum_appFlows_le (hw : w.Attributed env)
    (htails : ∀ l ∈ w.closed, ∀ y ∈ l.ended, y.hasTail = false) :
    ∑ i, (w.engine.appFlows i).toNat ≤ Multiset.card w.flows := by
  rw [← card_lives env hw]
  refine le_trans (Finset.sum_le_sum fun i _ => ?_)
    (Ledger.sum_sum_ite_le_card w.lives fun l => l.flow.appId.toNat)
  calc (w.engine.appFlows i).toNat
      = (flowsAt i w.engine.totals).toNat := rfl
    _ = ((w.lives.map Life.added).map (flowsAt i)).sum.toNat := by
        rw [hw.totals, map_multiset_sum]
    _ ≤ (((w.lives.map Life.added).map (flowsAt i)).map UInt64.toNat).sum := Ledger.toNat_sum_le _
    _ ≤ (w.lives.map fun l => if l.flow.appId.toNat = i.val then 1 else 0).sum := by
        rw [Multiset.map_map, Multiset.map_map]
        exact Multiset.sum_map_le_sum_map _ _ fun l hl => flowsAt_added_le env hw htails hl i

/-- **Which flows are added exactly once.** In every run, an expired flow that reached a verdict
with an id of the counters has added exactly its bytes, its packets and one flow to its
application and its category if and only if the exit that decided it had no verdict tail: its
last packet had no captured payload, or the nDPI flow structure could not be allocated. If that
holds of every expired flow, the flow counters of all applications together do not exceed the
flows created. -/
theorem added_once_run (iface : Bytes) (ml dump : Bool) (ops : List EngineOp) :
    let w := run (step env) (start iface ml dump) ops
    (w.closed.map Life.flow = w.expired ∧
      ∀ l ∈ w.closed, l.flow.state.isTerminal = true → l.flow.appId.toNat < numApps →
        (l.added = l.flow.share env ↔ ∀ y ∈ l.ended, y.hasTail = false)) ∧
    (env.CategoriesBounded → ∀ l ∈ w.closed,
      (ndpiEngineCategoryFor env l.flow.appId l.flow.sni).toNat < numCats) ∧
    w.engine.flows.totalCreated = UInt64.ofNat (Multiset.card w.flows) ∧
    ((∀ l ∈ w.closed, ∀ y ∈ l.ended, y.hasTail = false) →
      ∑ i, (w.engine.appFlows i).toNat ≤ Multiset.card w.flows) := by
  intro w
  have hw : w.Attributed env := attributed_run env iface ml dump ops
  exact ⟨⟨hw.closed_flow, fun l hl => added_eq_share_iff env hw hl⟩,
    fun h l _ => ndpiEngineCategoryFor_lt h l.flow.appId l.flow.sni, hw.sound.totalCreated_eq,
    sum_appFlows_le env hw⟩

/-- A flow that nDPI classifies on its first packet and that then expires is counted twice. -/
theorem expired_flow_added_twice :
    let w := run (EngineRun.step default) (EngineRun.start [] true false)
      [.process udpEvent (-1) { detection := { app := 7 } }, .age 100]
    w.expired.length = 1 ∧ w.engine.flows.totalCreated = 1 ∧
      w.engine.appFlows ⟨7, by decide⟩ = 2 := by
  intro w
  let a : Answers := { detection := { app := 7 } }
  let w₀ := EngineRun.start [] true false
  let w₁ := w₀.step default (.process udpEvent (-1) a)
  let f := (w₀.body default udpEvent (-1) a (FlowTable.fresh udpEvent.key 0)).flow
  have ho : w₀.engine.obtain udpEvent a = some (FlowTable.fresh udpEvent.key 0) := by
    decide +kernel
  have happ : f.appId = 7 := by decide +kernel
  have hidle : f.isIdle 100 = true := by decide +kernel
  have hcreated : w₁.engine.flows.totalCreated = 1 := by decide +kernel
  have hflows : w₁.engine.appFlows ⟨7, by decide⟩ = 1 := by decide +kernel
  have hexpired : w₁.expired = [] := by decide +kernel
  -- the table holds the flow alone, and the sweep expires it
  have hentries : w₁.engine.flows.entries = {f} := by
    obtain ⟨-, R, -, hR, hR'⟩ :=
      (EngineRun.sound_start [] true false).exists_entries_step default (-1) ho
    have hempty : w₀.engine.flows.entries = 0 := EngineRun.entries_start [] true false
    rcases EngineRun.entered_cases ho with ⟨hl, -⟩ | ⟨-, -, hb⟩
    · exact absurd hl (by decide +kernel)
    · rw [hb, FlowTable.entries_insert, hempty] at hR
      obtain rfl := (Multiset.cons_inj_right _).mp hR
      exact hR'
  have hsweep : w₁.engine.flows.idle 100 = [f] := by
    rw [← Multiset.coe_eq_singleton, FlowTable.coe_idle, hentries, Multiset.filter_singleton,
      if_pos hidle]
  have hw : w = w₁.step default (.age 100) := by simp only [w, run_cons, run_nil, w₁, w₀, a]
  rw [hw, EngineRun.step_age]
  have hcast : ((100 : ℤ) : ℚ) = 100 := by norm_num
  rw [hcast, hsweep]
  refine ⟨by simp [hexpired], hcreated, ?_⟩
  dsimp only [List.foldl_cons, List.foldl_nil, onFlowExpire, Engine.addTotals]
  rw [addAt_apply, hflows, happ]
  decide

end LifeRun

end NdpiObserve
