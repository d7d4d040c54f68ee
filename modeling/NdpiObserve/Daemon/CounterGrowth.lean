import NdpiObserve.Daemon.PacketAccounting
import NdpiObserve.Daemon.ScanCounters
import NdpiObserve.Library.Meters

/-!
# What the counters can count

The counters that the engine exports are meters of its runs. A counter of decisions or of packets
grows by one at most in a call. The totals grow by the traffic of a flow when a call decides the
flow and again when the sweep expires it, which can be many flows at once; this traffic came in with
the calls of the flow, so the entries of the table are the supply that the totals draw from.

## Main definitions

* `Quantity`, `TotalsSlot`: what the totals count, and for whom.
* `FlowEntry.due`, `EngineRun.supply`: what entries can still add to the totals.

## Main results

* `EngineRun.draws_of_records`, `EngineRun.draws_of_call`: the counters of decisions and of packets.
* `EngineRun.draws_totals`: the totals.
-/

namespace NdpiObserve

open Machine Meter

/-! ### Quantities -/

/-- What totals count. -/
inductive Quantity where
  | bytes
  | packets
  | flows

namespace Quantity

/-- The counter of the quantity. -/
def get : Quantity → UInt64 × UInt64 × UInt64 → UInt64
  | .bytes, t => t.1
  | .packets, t => t.2.1
  | .flows, t => t.2.2

theorem get_add (q : Quantity) (t u : UInt64 × UInt64 × UInt64) :
    q.get (t + u) = q.get t + q.get u := by
  cases q <;> rfl

theorem get_zero (q : Quantity) : q.get 0 = 0 := by
  cases q <;> rfl

/-- What a packet of an undecided flow adds to its entry. -/
def brought (evt : FlowEvent) : Quantity → ℕ
  | .bytes => evt.pktLen.toNat
  | .packets => 1
  | .flows => 0

end Quantity

/-- The application or the category that is counted for. -/
inductive TotalsSlot where
  | app (a : Fin numApps)
  | category (c : Fin numCats)

/-- The counters of the slot. -/
def TotalsSlot.get : TotalsSlot → Totals → UInt64 × UInt64 × UInt64
  | .app a, t => t.1 a
  | .category c, t => t.2 c

theorem TotalsSlot.get_add (s : TotalsSlot) (t u : Totals) : s.get (t + u) = s.get t + s.get u := by
  cases s <;> rfl

/-! ### Entries -/

namespace FlowEntry

/-- What the entry has counted. -/
def amount (q : Quantity) (f : FlowEntry) : ℕ := (q.get (f.bytes, f.packets, 1)).toNat

/-- What the entry can still add to the totals: its traffic when it expires, and before that when it
is decided. -/
def due (q : Quantity) (f : FlowEntry) : ℕ :=
  if f.state.isTerminal then f.amount q else 2 * f.amount q

theorem amount_le_due (q : Quantity) (f : FlowEntry) : f.amount q ≤ f.due q := by
  rw [due]
  split <;> omega

/-- A slot gets all that the entry has counted, or nothing. -/
theorem exists_share_eq (env : Env) (q : Quantity) (s : TotalsSlot) (f : FlowEntry) :
    ∃ d ≤ f.amount q, q.get (s.get (f.share env)) = UInt64.ofNat d := by
  have hslot : s.get (f.share env) = (f.bytes, f.packets, 1) ∨ s.get (f.share env) = 0 := by
    cases s <;> exact ite_eq_or_eq _ _ _
  rcases hslot with h | h
  · refine ⟨f.amount q, le_refl _, ?_⟩
    rw [h, amount, UInt64.ofNat_toNat]
  · refine ⟨0, Nat.zero_le _, ?_⟩
    rw [h, q.get_zero]
    rfl

end FlowEntry

namespace Call

variable (env : Env) (evt : FlowEvent) (fd : ℤ) (a : Answers) (e : Engine) {f : FlowEntry}

/-- **The supply in a call.** What a call adds to the totals is due from the entry or brought by the
packet. -/
theorem due_process (q : Quantity) (hf : Metered f) :
    let c := Call.process env evt fd a { engine := e, flow := f }
    (if (f.exit evt a).hasTail then c.flow.amount q else 0) + c.flow.due q ≤
      f.due q + 2 * q.brought evt := by
  intro c
  cases hterm : f.state.isTerminal with
  | true =>
    have hc : c = _ :=
      process_of_isTerminal env evt fd a (c := { engine := e, flow := f }) hterm
    have hdue : c.flow.due q = f.due q := by
      rw [hc]
      rfl
    have htail : (f.exit evt a).hasTail = false := by
      rw [exit_eq_cached_iff.mpr hterm]
      rfl
    rw [hdue, htail]
    simp
  | false =>
    obtain ⟨-, hpackets, hbytes⟩ := process_meters_toNat env evt fd a e hf hterm
    have hamount : c.flow.amount q = f.amount q + q.brought evt := by
      cases q with
      | bytes => exact hbytes
      | packets => exact hpackets
      | flows => rfl
    have hdue : f.due q = 2 * f.amount q := by
      rw [FlowEntry.due, hterm]
      rfl
    obtain ⟨x, hallows, hrec⟩ := process_records_entry env evt fd a e hterm
    cases hdec : (f.exit evt a).decides with
    | true =>
      have hdone : c.flow.due q = c.flow.amount q := by
        rw [FlowEntry.due, hallows.isTerminal hdec hrec.leaves]
        rfl
      rw [hdone, hdue, hamount]
      split <;> omega
    | false =>
      have hle : c.flow.due q ≤ 2 * c.flow.amount q := by
        rw [FlowEntry.due]
        split <;> omega
      rw [(hallows.undecided hdec).2, hdue]
      simp only [Bool.false_eq_true, if_false]
      omega

end Call

/-- What an event can bring in. Its packet may be added to the totals twice. -/
def FlowEvent.load (evt : FlowEvent) : ℕ := 2 * (evt.pktLen.toNat + 1)

def EngineOp.load : EngineOp → ℕ
  | .process evt _ _ => evt.load
  | .age _ => 0

/-- A new entry, with what its first packet brings. -/
theorem due_fresh_le (q : Quantity) (k : FlowKey) (t : ℤ) (evt : FlowEvent) :
    (FlowTable.fresh k t).due q + 2 * q.brought evt ≤ evt.load := by
  cases q with
  | bytes =>
    show 0 + 2 * evt.pktLen.toNat ≤ 2 * (evt.pktLen.toNat + 1)
    omega
  | packets =>
    show 0 + 2 * 1 ≤ 2 * (evt.pktLen.toNat + 1)
    omega
  | flows =>
    show 2 * 1 + 2 * 0 ≤ 2 * (evt.pktLen.toNat + 1)
    omega

namespace EngineRun

variable (env : Env) {w : EngineRun}

/-- The invariant of the table, with the packet counters of all flows. -/
structure Measured (w : EngineRun) : Prop where
  sound : w.Sound
  metered : ∀ f ∈ w.flows, Metered f

theorem measured_start (iface : Bytes) (ml dump : Bool) : (start iface ml dump).Measured :=
  ⟨sound_start iface ml dump, by simp [flows_start]⟩

theorem Measured.step (hw : w.Measured) (op : EngineOp) : (w.step env op).Measured :=
  ⟨hw.sound.step env op, hw.sound.forall_step metered_fresh
    (fun evt fd a e _ hf => Call.process_metered env evt fd a e hf) hw.metered op⟩

/-! ### The totals -/

/-- What the entries of the table can still add to the totals. -/
def supply (q : Quantity) (w : EngineRun) : ℕ :=
  (w.engine.flows.entries.map fun f => f.due q).sum

/-- Shares of many flows. -/
theorem exists_sum_share_eq (q : Quantity) (s : TotalsSlot) (l : List FlowEntry) :
    ∃ d ≤ (l.map fun f => f.due q).sum,
      q.get (s.get (l.map fun f => f.share env).sum) = UInt64.ofNat d := by
  induction l with
  | nil =>
    refine ⟨0, Nat.zero_le _, ?_⟩
    cases q <;> cases s <;> rfl
  | cons f l ih =>
    obtain ⟨d, hd, hshare⟩ := f.exists_share_eq env q s
    obtain ⟨d', hd', hshares⟩ := ih
    have hdue := f.amount_le_due q
    refine ⟨d + d', ?_, ?_⟩
    · rw [List.map_cons, List.sum_cons]
      omega
    · rw [List.map_cons, List.sum_cons, s.get_add, q.get_add, hshare, hshares, UInt64.ofNat_add]

/-- What the table loses in a sweep. -/
theorem supply_age (q : Quantity) (w : EngineRun) (now : ℤ) :
    (w.step env (.age now)).supply q + ((w.engine.flows.idle now).map fun f => f.due q).sum =
      w.supply q := by
  rw [supply, step_age]
  dsimp only
  rw [supply, FlowTable.entries_eq_sweep_add_idle w.engine.flows now, Multiset.map_add,
    Multiset.sum_add, Multiset.map_coe, Multiset.sum_coe]

/-- The entry of a call and the others: it is one of the table, or it is new and the packet pays for
it. -/
theorem due_entered_le (q : Quantity) {evt : FlowEvent} {a : Answers} {f : FlowEntry}
    (ho : w.engine.obtain evt a = some f) {R : Multiset FlowEntry}
    (hR : (w.entered evt a).engine.flows.entries = f ::ₘ R) :
    f.due q + 2 * q.brought evt + (R.map fun f => f.due q).sum ≤ w.supply q + evt.load := by
  rcases entered_cases ho with ⟨-, hb⟩ | ⟨rfl, -, hb⟩
  · have hsum : w.supply q = f.due q + (R.map fun f => f.due q).sum := by
      rw [supply, ← hb, hR, Multiset.map_cons, Multiset.sum_cons]
    have hbrought : 2 * q.brought evt ≤ evt.load := by
      cases q <;> simp [Quantity.brought, FlowEvent.load]
    omega
  · rw [hb, FlowTable.entries_insert] at hR
    have hsum : w.supply q = (R.map fun f => f.due q).sum := by
      rw [supply, (Multiset.cons_inj_right _).mp hR]
    have hfresh := due_fresh_le q evt.key a.timeCreated evt
    omega

/-- A call on an entry: what it adds to the totals, with what is due from the table afterwards. -/
theorem exists_totals_process (q : Quantity) (s : TotalsSlot) (hw : w.Measured) {evt : FlowEvent}
    (fd : ℤ) {a : Answers} {f : FlowEntry} (ho : w.engine.obtain evt a = some f) :
    ∃ d, q.get (s.get (w.step env (.process evt fd a)).engine.totals) =
        q.get (s.get w.engine.totals) + UInt64.ofNat d ∧
      d + (w.step env (.process evt fd a)).supply q ≤ w.supply q + evt.load := by
  obtain ⟨-, R, -, hR, hR'⟩ := hw.sound.exists_entries_step env fd ho
  have hf : Metered f := by
    refine forall_entered metered_fresh hw.metered ho f ?_
    rw [flows, hR]
    exact Multiset.mem_add.mpr (.inl (Multiset.mem_cons_self f R))
  have hcall := Call.due_process env evt fd a (w.engine.bodyStart evt a) q hf
  have hbefore := due_entered_le q ho hR
  have hafter : (w.step env (.process evt fd a)).supply q =
      (w.body env evt fd a f).flow.due q + (R.map fun f => f.due q).sum := by
    rw [supply, hR', Multiset.map_cons, Multiset.sum_cons]
  rw [totals_step_process env fd ho, s.get_add, q.get_add, hafter]
  rw [show Call.process env evt fd a _ = w.body env evt fd a f from rfl] at hcall
  cases htail : (f.exit evt a).hasTail with
  | true =>
    rw [htail] at hcall
    simp only [if_true] at hcall ⊢
    obtain ⟨d, hd, hshare⟩ := (w.body env evt fd a f).flow.exists_share_eq env q s
    exact ⟨d, by rw [hshare], by omega⟩
  | false =>
    rw [htail] at hcall
    simp only [Bool.false_eq_true, if_false] at hcall ⊢
    refine ⟨0, ?_, by omega⟩
    congr 1
    cases q <;> cases s <;> rfl

/-- **The totals are meters.** A call or a sweep adds to them what was due from the entries or comes
with the packet. -/
theorem draws_totals (q : Quantity) (s : TotalsSlot) :
    Draws (step env) Measured (fun w => q.get (s.get w.engine.totals)) (supply q)
      EngineOp.load := by
  intro w op hw
  dsimp only
  cases op with
  | age now =>
    obtain ⟨d, hd, hshares⟩ := exists_sum_share_eq env q s (w.engine.flows.idle now)
    have hsupply := supply_age env q w now
    refine ⟨d, ?_, ?_⟩
    · rw [totals_step_age, s.get_add, q.get_add, hshares]
    · rw [← hsupply]
      omega
  | process evt fd a =>
    show ∃ d, _ ∧ d + _ ≤ w.supply q + evt.load
    cases ho : w.engine.obtain evt a with
    | none =>
      refine ⟨0, ?_, ?_⟩
      · rw [step_process_of_none env fd ho, Engine.observeDns_totals]
        exact (add_zero _).symm
      · rw [step_process_of_none env fd ho, supply, Engine.observeDns_flows, Nat.zero_add]
        exact Nat.le_add_right _ _
    | some f => exact exists_totals_process env q s hw fd ho

/-! ### Counters of calls -/

/-- A counter that depends neither on the DNS cache nor on the table, that expiry leaves alone, and
that a call raises by one at most. -/
theorem draws_of_call {C : Engine → UInt64}
    (hdns : ∀ (e : Engine) cache, C { e with dnsCache := cache } = C e)
    (htable : ∀ (e : Engine) t, C { e with flows := t } = C e)
    (hexpire : ∀ e f, C (onFlowExpire env f e) = C e)
    (hcall : ∀ evt fd a e f, ∃ d ≤ 1,
      C (Call.process env evt fd a { engine := e, flow := f }).engine = C e + UInt64.ofNat d) :
    Draws (step env) Measured (fun w => C w.engine) (fun _ => 0) EngineOp.load := by
  intro w op _
  cases op with
  | age now =>
    have hfold (l : List FlowEntry) (e : Engine) :
        C (l.foldl (fun e f => onFlowExpire env f e) e) = C e := by
      induction l generalizing e with
      | nil => rfl
      | cons f l ih => exact (ih _).trans (hexpire e f)
    refine ⟨0, ?_, le_refl _⟩
    rw [step_age]
    exact ((htable _ _).trans (hfold _ _)).trans (add_zero _).symm
  | process evt fd a =>
    show ∃ d, _ ∧ d + 0 ≤ 0 + 2 * (evt.pktLen.toNat + 1)
    have hobserved : C (w.engine.observeDns evt a) = C w.engine := by
      obtain ⟨cache, h⟩ := w.engine.exists_observeDns_eq evt a
      rw [h]
      exact hdns w.engine cache
    cases ho : w.engine.obtain evt a with
    | none =>
      refine ⟨0, ?_, by omega⟩
      rw [step_process_of_none env fd ho]
      exact hobserved.trans (add_zero _).symm
    | some f =>
      obtain ⟨d, hd, hC⟩ := hcall evt fd a (w.engine.bodyStart evt a) f
      have hstart : C (w.engine.bodyStart evt a) = C w.engine := (htable _ _).trans hobserved
      refine ⟨d, ?_, by omega⟩
      rw [step_process_of_some env fd ho]
      exact ((htable _ _).trans hC).trans (congrArg (· + UInt64.ofNat d) hstart)

/-- A counter of decisions: a call on an undecided flow records at most one. -/
theorem draws_of_records {C : Engine → UInt64}
    (hdns : ∀ (e : Engine) cache, C { e with dnsCache := cache } = C e)
    (htable : ∀ (e : Engine) t, C { e with flows := t } = C e)
    (hexpire : ∀ e f, C (onFlowExpire env f e) = C e)
    (hcached : ∀ (e : Engine) n, C { e with pktsCached := n } = C e)
    (hcall : ∀ e x c, Call.Records e x c → ∃ d ≤ 1, C c.engine = C e + UInt64.ofNat d) :
    Draws (step env) Measured (fun w => C w.engine) (fun _ => 0) EngineOp.load := by
  refine draws_of_call env hdns htable hexpire fun evt fd a e f => ?_
  cases hterm : f.state.isTerminal with
  | true =>
    refine ⟨0, Nat.zero_le _, ?_⟩
    rw [Call.process_of_isTerminal env evt fd a (c := { engine := e, flow := f }) hterm]
    exact (hcached e _).trans (add_zero _).symm
  | false =>
    obtain ⟨x, -, hrec⟩ := Call.process_records_entry env evt fd a e hterm
    exact hcall e x _ hrec

/-- `total_created`. -/
theorem draws_totalCreated : Draws (step env) Measured (fun w => w.engine.flows.totalCreated)
    (fun _ => 0) EngineOp.load := by
  intro w op hw
  have hnext := (hw.step env op).sound.totalCreated_eq
  dsimp only
  rw [hnext, hw.sound.totalCreated_eq]
  cases op with
  | age now =>
    rw [flows_age]
    exact ⟨0, (add_zero _).symm, le_refl _⟩
  | process evt fd a =>
    show ∃ d, _ ∧ d + 0 ≤ 0 + 2 * (evt.pktLen.toNat + 1)
    cases ho : w.engine.obtain evt a with
    | none =>
      rw [step_process_of_none env fd ho, flows, flows, Engine.observeDns_flows]
      exact ⟨0, (add_zero _).symm, by omega⟩
    | some f =>
      obtain ⟨R, hR, hR'⟩ := hw.sound.exists_flows_step env fd ho
      have hcard : Multiset.card (w.step env (.process evt fd a)).flows =
          Multiset.card (w.entered evt a).flows := by
        rw [hR, hR', Multiset.card_cons, Multiset.card_cons]
      rw [hcard]
      rcases entered_cases ho with ⟨-, hb⟩ | ⟨-, -, hb⟩
      · refine ⟨0, ?_, by omega⟩
        rw [flows, hb]
        exact (add_zero _).symm
      · refine ⟨1, ?_, by omega⟩
        rw [← UInt64.ofNat_add, flows, hb, FlowTable.entries_insert, Multiset.cons_add,
          Multiset.card_cons]
        rfl

/-- A decision counts as one or not at all. -/
theorem exists_ite_eq (p : Prop) [Decidable p] (x : UInt64) :
    ∃ d ≤ 1, (x + if p then 1 else 0) = x + UInt64.ofNat d := by
  by_cases h : p
  · exact ⟨1, le_refl _, congrArg (x + ·) (if_pos h)⟩
  · exact ⟨0, Nat.zero_le _, congrArg (x + ·) (if_neg h)⟩

theorem draws_flowsClassified :
    Draws (step env) Measured (fun w => w.engine.flowsClassified) (fun _ => 0) EngineOp.load := by
  refine draws_of_records env (C := Engine.flowsClassified) (fun _ _ => rfl) (fun _ _ => rfl)
    (fun _ _ => rfl) (fun _ _ => rfl) fun e x c hrec => ?_
  rw [hrec.flowsClassified]
  exact exists_ite_eq _ _

theorem draws_flowsGaveUp :
    Draws (step env) Measured (fun w => w.engine.flowsGaveUp) (fun _ => 0) EngineOp.load := by
  refine draws_of_records env (C := Engine.flowsGaveUp) (fun _ _ => rfl) (fun _ _ => rfl)
    (fun _ _ => rfl) (fun _ _ => rfl) fun e x c hrec => ?_
  rw [hrec.flowsGaveUp]
  exact exists_ite_eq _ _

theorem draws_flowsMlClassified :
    Draws (step env) Measured (fun w => w.engine.flowsMlClassified) (fun _ => 0) EngineOp.load := by
  refine draws_of_records env (C := Engine.flowsMlClassified) (fun _ _ => rfl) (fun _ _ => rfl)
    (fun _ _ => rfl) (fun _ _ => rfl) fun e x c hrec => ?_
  rw [hrec.flowsMlClassified]
  exact exists_ite_eq _ _

/-- The decrements of `flows_guessed` take back what the same call has counted. -/
theorem draws_flowsGuessed :
    Draws (step env) Measured (fun w => w.engine.flowsGuessed) (fun _ => 0) EngineOp.load := by
  refine draws_of_records env (C := Engine.flowsGuessed) (fun _ _ => rfl) (fun _ _ => rfl)
    (fun _ _ => rfl) (fun _ _ => rfl) fun e x c hrec => ?_
  have hguess : c.engine.flowsGuessed = e.flowsGuessed + if x = .guessed then 1 else 0 := by
    rw [hrec.flowsGuessed, hrec.balance_guesses]
    split <;> rfl
  rw [hguess]
  exact exists_ite_eq _ _

/-- So do those of the credits. -/
theorem draws_appClassified (m : CreditMethod) {app : UInt16} (h : app.toNat < numApps) :
    Draws (step env) Measured (fun w => w.engine.appClassified m ⟨app.toNat, h⟩) (fun _ => 0)
      EngineOp.load := by
  refine draws_of_records env (C := fun e => e.appClassified m ⟨app.toNat, h⟩) (fun _ _ => rfl)
    (fun _ _ => rfl) (fun _ _ => rfl) (fun _ _ => rfl) fun e x c hrec => ?_
  have hheld : c.engine.appClassified m ⟨app.toNat, h⟩ =
      e.appClassified m ⟨app.toNat, h⟩ + if c.flow.Holds m app then 1 else 0 := by
    rw [hrec.appClassified m app h, hrec.balance_method m app h]
    split <;> rfl
  rw [hheld]
  exact exists_ite_eq _ _

/-- `pkts_scanned`. -/
theorem draws_pktsScanned :
    Draws (step env) Measured (fun w => w.engine.pktsScanned) (fun _ => 0) EngineOp.load := by
  refine draws_of_call env (C := Engine.pktsScanned) (fun _ _ => rfl) (fun _ _ => rfl)
    (fun _ _ => rfl) fun evt fd a e f => ?_
  have hscanned := congrArg (fun c => c.2.1)
    (Call.process_packetCounters env evt fd a { engine := e, flow := f })
  refine ⟨if (f.exit evt a).scans then 1 else 0, by split <;> omega, hscanned.trans ?_⟩
  dsimp only
  split
  · rfl
  · exact (add_zero _).symm

end EngineRun

end NdpiObserve
