import NdpiObserve.Library.Ledger
import NdpiObserve.Daemon.Engine

/-!
# The credit of a flow during a call

A classified flow holds one credit: a unit in the counter of its method and application. The
stages of `ndpi_engine_process` grant it, move it to the application of a hostname, and take it
back when the model decides otherwise. The counters that the code also decrements follow the
postings of the call (`Call.Posted`), and each stage is a lemma about `Call.Records`, which says
how the flow ends, what the flow counters gained and where the one credit is.

## Main definitions

* `Account`, `postings`: the accounts that credits move between, and the postings of effects.
* `Ending`, `Call.Records`: how a call decides its flow, with the counters and credits it leaves.

## Main results

* `Call.exists_overrideByHost_eq`: what a hostname overrides.
* `Call.Records.ndpiVerdict`, `Call.Records.lastResort`: nDPI's verdict and the last resort.
-/

namespace NdpiObserve

open Ledger

/-! ### Counters -/

theorem ofInt_zero : UInt64.ofInt 0 = 0 := rfl

/-- A wrapping counter at a number that is not negative. -/
theorem ofInt_natCast (n : ℕ) : UInt64.ofInt n = UInt64.ofNat n := by
  induction n with
  | zero => rfl
  | succ n ih => rw [Nat.cast_succ, UInt64.ofInt_add, ih, UInt64.ofNat_add]; rfl

theorem addAt_apply {n : ℕ} (c : Fin n → UInt64) (i : ℕ) (x : UInt64) (j : Fin n) :
    addAt c i x j = c j + if j.val = i then x else 0 := by
  by_cases hi : i < n
  · rcases eq_or_ne j ⟨i, hi⟩ with rfl | hj
    · simp [addAt, hi]
    · have hv : j.val ≠ i := fun h => hj (Fin.ext h)
      simp [addAt, hi, hj, hv]
  · have hv : j.val ≠ i := fun h => hi (h ▸ j.isLt)
    simp [addAt, hi, hv]

theorem Engine.addClassified_apply (e : Engine) (m : CreditMethod) (app : UInt16) (x : UInt64)
    (m' : CreditMethod) (i : Fin numApps) :
    (e.addClassified m app x).appClassified m' i =
      e.appClassified m' i + if m = m' ∧ app.toNat = i then x else 0 := by
  rcases eq_or_ne m' m with rfl | hm
  · simp [Engine.addClassified, addAt_apply, eq_comm]
  · simp [Engine.addClassified, Function.update_of_ne hm, hm.symm]

/-! ### Postings -/

/-- The accounts that the credits of a call move between: one for each method and application,
and the guesses of nDPI. -/
inductive Account where
  | method (m : CreditMethod) (app : UInt16)
  | guesses
deriving DecidableEq

/-- The posting that an effect makes. -/
def Effect.posting : Effect → Option (Posting Account)
  | .credit m app => some (.credit (.method m app))
  | .debit m app => some (.debit (.method m app))
  | .guessed => some (.credit .guesses)
  | .unguessed => some (.debit .guesses)
  | _ => none

/-- The postings of a list of effects, in order. -/
def postings (l : List Effect) : List (Posting Account) := l.filterMap Effect.posting

@[simp] theorem postings_nil : postings [] = [] := rfl

@[simp] theorem postings_append (l l' : List Effect) :
    postings (l ++ l') = postings l ++ postings l' :=
  List.filterMap_append

theorem postings_eq_nil {l : List Effect} (h : ∀ x ∈ l, x.posting = none) : postings l = [] :=
  List.filterMap_eq_nil_iff.mpr h

namespace Call

/-- The counters with decrements follow the postings of the call, which overdraw nothing. -/
structure Posted (e : Engine) (c : Call) : Prop where
  appClassified : ∀ m (app : UInt16) (h : app.toNat < numApps),
    c.engine.appClassified m ⟨app.toNat, h⟩ = e.appClassified m ⟨app.toNat, h⟩ +
      UInt64.ofInt (balance (.method m app) (postings c.effects))
  flowsGuessed : c.engine.flowsGuessed =
    e.flowsGuessed + UInt64.ofInt (balance .guesses (postings c.effects))
  solvent : Solvent (postings c.effects)

variable {e : Engine} {c : Call}

/-- One posting `p` on the account of the flow's application, with the change `x` of its
counter, both under the guard on the id. -/
private theorem Posted.post (h : Posted e c) {m : CreditMethod} {ef : Effect}
    {p : Posting Account} (hef : ef.posting = some p) {s : ℤ} {x : UInt64}
    (hs : UInt64.ofInt s = x)
    (hp : ∀ a, p.amount a = if .method m c.flow.appId = a then s else 0)
    (hsolvent : c.flow.appId.toNat < numApps → Solvent (postings c.effects ++ [p])) :
    Posted e { c with
      engine := c.engine.addClassified m c.flow.appId x
      effects := c.effects ++ if c.flow.appId.toNat < numApps then [ef] else [] } := by
  have hpost : postings (c.effects ++ if c.flow.appId.toNat < numApps then [ef] else []) =
      postings c.effects ++ if c.flow.appId.toNat < numApps then [p] else [] := by
    rw [postings_append]
    split <;> simp [postings, hef]
  refine ⟨fun m' app happ => ?_, ?_, ?_⟩
  · rw [hpost, balance_append, UInt64.ofInt_add, ← add_assoc, ← h.appClassified m' app happ,
      Engine.addClassified_apply]
    congr 1
    by_cases hm : m = m' ∧ c.flow.appId = app
    · obtain ⟨rfl, rfl⟩ := hm
      simp [happ, hp, hs]
    · have hm' : ¬ (m = m' ∧ c.flow.appId.toNat = app.toNat) := by
        rwa [UInt16.toNat_inj]
      rw [if_neg hm']
      split <;> simp [hp, hm, ofInt_zero]
  · have hzero : balance .guesses (if c.flow.appId.toNat < numApps then [p] else []) = 0 := by
      split <;> simp [hp]
    rw [hpost, balance_append, hzero, add_zero]
    exact h.flowsGuessed
  · rw [hpost]
    split
    · exact hsolvent ‹_›
    · simpa using h.solvent

theorem Posted.credit (h : Posted e c) (m : CreditMethod) : Posted e (c.credit m) :=
  h.post rfl (s := 1) UInt64.ofInt_one (fun _ => rfl) fun _ => h.solvent.credit _

/-- A debit is posted where the credit of the flow is. -/
theorem Posted.debit (h : Posted e c) {m : CreditMethod}
    (hm : c.flow.appId.toNat < numApps →
      0 < balance (.method m c.flow.appId) (postings c.effects)) : Posted e (c.debit m) :=
  h.post rfl (s := -1) UInt64.ofInt_neg_one (fun _ => rfl) fun happ => h.solvent.debit (hm happ)

end Call

/-! ### Endings -/

/-- How a call leaves a flow that was not decided: still undecided, classified by nDPI, by its
guess or by the model, or given up. -/
inductive Ending where
  | undecided
  | direct
  | guessed
  | model
  | gaveUp
deriving DecidableEq

/-- The flow ends classified. -/
def Ending.classifies : Ending → Bool
  | .direct | .guessed | .model => true
  | .undecided | .gaveUp => false

/-- The state, and where the credit is. -/
def Ending.Leaves (f : FlowEntry) : Ending → Prop
  | .undecided => f.state.isTerminal = false
  | .direct => f.state = .classified ∧ f.creditMethod ∈ [.ndpi, .sni, .dns]
  | .guessed => f.state = .classified ∧ f.creditMethod ∈ [.giveup, .sni, .dns]
  | .model => f.state = .classified ∧ f.creditMethod = .ml
  | .gaveUp => f.state = .gaveUp

/-- The flow is classified as `app` with its credit under `m`. -/
def FlowEntry.Holds (f : FlowEntry) (m : CreditMethod) (app : UInt16) : Prop :=
  f.state = .classified ∧ f.creditMethod = m ∧ f.appId = app

instance (f : FlowEntry) (m : CreditMethod) (app : UInt16) : Decidable (f.Holds m app) :=
  inferInstanceAs (Decidable (_ ∧ _ ∧ _))

theorem Ending.Leaves.state_eq {f : FlowEntry} {x : Ending} (h : x.Leaves f)
    (hx : x.classifies = true) : f.state = .classified := by
  cases x with
  | undecided | gaveUp => simp [Ending.classifies] at hx
  | direct | guessed | model => exact h.1

namespace Call

/-- What the credits of a call are read from. -/
def creditView (c : Call) :=
  (c.flow.state, c.flow.creditMethod, c.flow.appId, c.engine.appClassified,
    c.engine.flowsGuessed, c.engine.flowsClassified, c.engine.flowsMlClassified,
    c.engine.flowsGaveUp, postings c.effects)

/-- The counters and postings of a call on a flow that was not decided, from the engine `e`: the
flow ends as `x`, the flow counters say so, and the flow's credit is the only one posted. -/
structure Records (e : Engine) (x : Ending) (c : Call) : Prop extends Posted e c where
  leaves : x.Leaves c.flow
  flowsClassified : c.engine.flowsClassified =
    e.flowsClassified + if x.classifies then 1 else 0
  flowsMlClassified : c.engine.flowsMlClassified =
    e.flowsMlClassified + if x = .model then 1 else 0
  flowsGaveUp : c.engine.flowsGaveUp = e.flowsGaveUp + if x = .gaveUp then 1 else 0
  balance_method : ∀ m (app : UInt16), app.toNat < numApps →
    balance (.method m app) (postings c.effects) = if c.flow.Holds m app then 1 else 0
  balance_guesses : balance .guesses (postings c.effects) = if x = .guessed then 1 else 0

variable {e : Engine} {c c' : Call} {x : Ending}

/-- Stages that keep what the credits are read from keep the records. -/
theorem Records.of_creditView_eq (h : Records e x c) (hc : c'.creditView = c.creditView) :
    Records e x c' := by
  simp only [creditView, Prod.mk.injEq] at hc
  obtain ⟨hstate, hmethod, happ, hcl, hg, hf, hml, hgu, hpost⟩ := hc
  have hholds (m : CreditMethod) (app : UInt16) : c'.flow.Holds m app ↔ c.flow.Holds m app := by
    simp [FlowEntry.Holds, hstate, hmethod, happ]
  refine ⟨⟨?_, ?_, ?_⟩, ?_, ?_, ?_, ?_, ?_, ?_⟩
  · rw [hcl, hpost]
    exact h.appClassified
  · rw [hg, hpost]
    exact h.flowsGuessed
  · rw [hpost]
    exact h.solvent
  · have hx := h.leaves
    cases x <;> simpa [Ending.Leaves, hstate, hmethod] using hx
  · rw [hf, h.flowsClassified]
  · rw [hml, h.flowsMlClassified]
  · rw [hgu, h.flowsGaveUp]
  · intro m app hlt
    rw [hpost, h.balance_method m app hlt]
    exact if_congr (hholds m app).symm rfl rfl
  · rw [hpost, h.balance_guesses]

/-- The credit that a classified flow holds is on its account. -/
theorem Records.balance_pos (h : Records e x c) (hx : x.classifies = true)
    (hlt : c.flow.appId.toNat < numApps) :
    0 < balance (.method c.flow.creditMethod c.flow.appId) (postings c.effects) := by
  rw [h.balance_method _ _ hlt, if_pos ⟨h.leaves.state_eq hx, rfl, rfl⟩]
  exact one_pos

/-! ### Moving the credit of a flow -/

theorem balance_credit (c : Call) (m : CreditMethod) (a : Account) :
    balance a (postings (c.credit m).effects) = balance a (postings c.effects) +
      if c.flow.appId.toNat < numApps ∧ .method m c.flow.appId = a then 1 else 0 := by
  rw [Call.credit, postings_append, balance_append]
  by_cases h : c.flow.appId.toNat < numApps <;> simp [h, postings, Effect.posting]

theorem balance_debit (c : Call) (m : CreditMethod) (a : Account) :
    balance a (postings (c.debit m).effects) = balance a (postings c.effects) -
      if c.flow.appId.toNat < numApps ∧ .method m c.flow.appId = a then 1 else 0 := by
  rw [Call.debit, postings_append, balance_append]
  by_cases h : c.flow.appId.toNat < numApps
  · by_cases ha : Account.method m c.flow.appId = a <;>
      simp [h, ha, postings, Effect.posting, sub_eq_add_neg]
  · simp [h]

/-- A first credit is the only one, and the flow `f` holds it. -/
private theorem balance_credit_eq_holds {m : CreditMethod} {f : FlowEntry}
    (h : ∀ m (app : UInt16), app.toNat < numApps →
      balance (.method m app) (postings c.effects) = 0)
    (hf : f.Holds m c.flow.appId) (m' : CreditMethod) (app : UInt16) (hlt : app.toNat < numApps) :
    balance (.method m' app) (postings (c.credit m).effects) =
      if f.Holds m' app then 1 else 0 := by
  obtain ⟨hstate, hmethod, happ⟩ := hf
  rw [balance_credit, h m' app hlt, zero_add]
  refine if_congr ?_ rfl rfl
  simp only [Account.method.injEq, FlowEntry.Holds, hstate, hmethod, happ, true_and]
  exact ⟨And.right, fun h => ⟨h.2 ▸ hlt, h⟩⟩

/-- Once the credit of a classified flow is taken back, no account holds one. -/
private theorem balance_debit_eq_zero
    (h : ∀ m (app : UInt16), app.toNat < numApps →
      balance (.method m app) (postings c.effects) = if c.flow.Holds m app then 1 else 0)
    (hstate : c.flow.state = .classified) (m : CreditMethod) (app : UInt16)
    (hlt : app.toNat < numApps) :
    balance (.method m app) (postings (c.debit c.flow.creditMethod).effects) = 0 := by
  rw [balance_debit, h m app hlt, sub_eq_zero]
  refine if_congr ?_ rfl rfl
  simp only [Account.method.injEq, FlowEntry.Holds, hstate, true_and]
  exact ⟨fun h => ⟨h.2 ▸ hlt, h⟩, And.right⟩

theorem Records.moveCredit (h : Records e x c) (hx : x = .direct ∨ x = .guessed)
    (aiId : UInt16) (fromDns : Bool) :
    Records e x (c.moveCredit c.flow.creditMethod aiId fromDns) := by
  have hclass : x.classifies = true := by rcases hx with rfl | rfl <;> rfl
  have hstate := h.leaves.state_eq hclass
  rw [Call.moveCredit]
  split
  case isFalse => exact h
  case isTrue hmove =>
    have hposted : Posted e (c.debit c.flow.creditMethod) :=
      h.toPosted.debit fun hlt => h.balance_pos hclass hlt
    have hmoved : Posted e { c.debit c.flow.creditMethod with
        flow := { c.flow with appId := aiId } } :=
      ⟨hposted.appClassified, hposted.flowsGuessed, hposted.solvent⟩
    have hcredit := hmoved.credit (if fromDns then .dns else .sni)
    refine ⟨⟨hcredit.appClassified, hcredit.flowsGuessed, hcredit.solvent⟩, ?_,
      h.flowsClassified, h.flowsMlClassified, h.flowsGaveUp, ?_, ?_⟩
    · rcases hx with rfl | rfl <;> exact ⟨hstate, by cases fromDns <;> simp⟩
    · refine balance_credit_eq_holds (balance_debit_eq_zero h.balance_method hstate) ?_
      exact ⟨hstate, rfl, rfl⟩
    · change balance .guesses (postings (Call.credit _ _).effects) = _
      rw [balance_credit, if_neg (by simp), add_zero]
      change balance .guesses (postings (c.debit _).effects) = _
      rw [balance_debit, if_neg (by simp), sub_zero, h.balance_guesses]

/-! ### The hostname override -/

/-- What a hostname teaches besides the application: the hostname itself, new labels and new
ids in the DNS cache. -/
def learn (c : Call) (sni : Bytes) (labels : List Bytes) (cache : DnsCache) : Call :=
  { c with
    flow := { c.flow with sni := sni }
    engine := { c.engine with dynLabels := labels, dnsCache := cache } }

theorem exists_resolveDns_eq (env : Env) (c : Call) (host : Bytes) :
    ∃ labels cache, (c.resolveDns env host).1 = c.learn c.flow.sni labels cache := by
  dsimp only [resolveDns]
  generalize (if dnsMatchApp host = 0 then engineGetDynApp env c.engine.dynLabels host
    else (c.engine.dynLabels, dnsMatchApp host)) = r
  split
  · exact ⟨c.engine.dynLabels, c.engine.dnsCache, rfl⟩
  · split
    · exact ⟨r.1, _, rfl⟩
    · exact ⟨r.1, c.engine.dnsCache, rfl⟩

/-- **The hostname override.** Something is learnt, and then the credit moves to the hostname's
application, if there is one. -/
theorem exists_overrideByHost_eq (env : Env) (c : Call) (m : CreditMethod) (serverName : Bytes)
    (time : ℤ) :
    ∃ sni labels cache aiId fromDns, c.overrideByHost env m serverName time =
      (c.learn sni labels cache).moveCredit m aiId fromDns := by
  -- without a hostname nothing moves, as for the id `0`
  have hstay (d : Call) : d.moveCredit m 0 false = d := by simp [moveCredit]
  rw [overrideByHost]
  generalize hd : (if cString serverName ≠ [] then
    { c with flow := { c.flow with sni := strncpy serverName 79 } } else c) = d
  have hlearn : ∃ sni, d = c.learn sni c.engine.dynLabels c.engine.dnsCache := by
    subst hd
    split
    · exact ⟨_, rfl⟩
    · exact ⟨c.flow.sni, rfl⟩
  obtain ⟨sni, rfl⟩ := hlearn
  cases overrideHost (c.learn sni c.engine.dynLabels c.engine.dnsCache) time with
  | none => exact ⟨sni, _, _, 0, false, (hstay _).symm⟩
  | some host =>
    obtain ⟨host, fromDns⟩ := host
    cases fromDns with
    | false => exact ⟨sni, _, _, _, false, rfl⟩
    | true =>
      obtain ⟨labels, cache, h⟩ := exists_resolveDns_eq env
        (c.learn sni c.engine.dynLabels c.engine.dnsCache) host
      refine ⟨sni, labels, cache,
        ((c.learn sni c.engine.dynLabels c.engine.dnsCache).resolveDns env host).2, true, ?_⟩
      dsimp only
      rw [if_pos rfl, h]
      rfl

theorem Records.overrideByHost (h : Records e x c) (hx : x = .direct ∨ x = .guessed) (env : Env)
    (serverName : Bytes) (time : ℤ) :
    Records e x (c.overrideByHost env c.flow.creditMethod serverName time) := by
  obtain ⟨sni, labels, cache, aiId, fromDns, heq⟩ :=
    exists_overrideByHost_eq env c c.flow.creditMethod serverName time
  rw [heq]
  have hlearn : Records e x (c.learn sni labels cache) := h.of_creditView_eq rfl
  exact hlearn.moveCredit hx aiId fromDns

/-! ### Verdicts -/

theorem Records.freeNdpiFlow (h : Records e x c) : Records e x c.freeNdpiFlow := by
  refine h.of_creditView_eq ?_
  have hpost : postings (c.flow.ndpiFlow.toList.map Effect.ndpiFlowFree) = [] :=
    postings_eq_nil (by simp [Effect.posting])
  simp [Call.freeNdpiFlow, creditView, hpost]

theorem Records.emit (h : Records e x c) (ef : Effect) (hef : ef.posting = none) :
    Records e x (c.emit ef) := by
  refine h.of_creditView_eq ?_
  simp [Call.emit, creditView, postings, hef]

/-- A flow that is not decided holds no credit. -/
theorem Records.balance_eq_zero (h : Records e x c) (hx : x.classifies = false) (m : CreditMethod)
    (app : UInt16) (hlt : app.toNat < numApps) :
    balance (.method m app) (postings c.effects) = 0 := by
  rw [h.balance_method m app hlt, if_neg]
  rintro ⟨hstate, -, -⟩
  have hleaves := h.leaves
  cases x <;> simp_all [Ending.Leaves, Ending.classifies, FlowState.isTerminal]

theorem Records.ndpiVerdict (h : Records e .undecided c) (env : Env) (a : Answers) :
    Records e .direct (c.ndpiVerdict env a) := by
  have hcredit := Posted.credit (m := .ndpi) (c := { c.classify a.detection with
    engine := { c.engine with flowsClassified := c.engine.flowsClassified + 1 } })
    ⟨h.appClassified, h.flowsGuessed, h.solvent⟩
  have hgrant : Records e .direct { Call.credit { c.classify a.detection with
      engine := { c.engine with flowsClassified := c.engine.flowsClassified + 1 } } .ndpi with
      flow := { (c.classify a.detection).flow with creditMethod := .ndpi } } := by
    refine ⟨⟨hcredit.appClassified, hcredit.flowsGuessed, hcredit.solvent⟩, ⟨rfl, by simp⟩, ?_,
      h.flowsMlClassified, h.flowsGaveUp, ?_, ?_⟩
    · change c.engine.flowsClassified + 1 = _
      rw [h.flowsClassified]
      simp [Ending.classifies]
    · exact balance_credit_eq_holds (h.balance_eq_zero rfl) ⟨rfl, rfl, rfl⟩
    · change balance .guesses (postings (Call.credit _ _).effects) = _
      rw [balance_credit, if_neg (by simp), add_zero]
      exact h.balance_guesses
  exact (hgrant.overrideByHost (.inl rfl) env a.detectionHost a.timeHost).freeNdpiFlow

theorem Records.giveupStep (h : Records e .undecided c) (env : Env) (a : Answers) :
    Records e (if a.giveup.isKnown then .guessed else .undecided) (c.giveupStep env a) := by
  have hemit : Records e .undecided (c.emit .detectionGiveup) := h.emit _ rfl
  rw [Call.giveupStep]
  split
  case isFalse => exact hemit
  case isTrue =>
    have hguess : postings ((c.emit .detectionGiveup).effects ++ [Effect.guessed]) =
        postings (c.emit .detectionGiveup).effects ++ [.credit .guesses] := by
      rw [postings_append]
      rfl
    -- the flow before its credit: one guess more
    let d : Call := { (c.emit .detectionGiveup).classify a.giveup with
      engine := { c.engine with
        flowsGuessed := c.engine.flowsGuessed + 1
        flowsClassified := c.engine.flowsClassified + 1 }
      effects := (c.emit .detectionGiveup).effects ++ [Effect.guessed] }
    have hd : Posted e d := by
      refine ⟨fun m app hlt => ?_, ?_, ?_⟩
      · change c.engine.appClassified m _ = _
        rw [h.appClassified m app hlt]
        change _ = _ + UInt64.ofInt (balance _ (postings (_ ++ [Effect.guessed])))
        rw [hguess]
        simp [h.balance_eq_zero rfl m app hlt, hemit.balance_eq_zero rfl m app hlt]
      · change c.engine.flowsGuessed + 1 = _ +
          UInt64.ofInt (balance _ (postings (_ ++ [Effect.guessed])))
        rw [hguess, h.flowsGuessed, h.balance_guesses]
        simp [hemit.balance_guesses, ofInt_zero]
      · change Solvent (postings (_ ++ [Effect.guessed]))
        rw [hguess]
        exact hemit.solvent.credit _
    have hzero (m : CreditMethod) (app : UInt16) (hlt : app.toNat < numApps) :
        balance (.method m app) (postings d.effects) = 0 := by
      change balance _ (postings (_ ++ [Effect.guessed])) = 0
      rw [hguess]
      simp [hemit.balance_eq_zero rfl m app hlt]
    have hcredit := hd.credit .giveup
    have hgrant : Records e .guessed
        { d.credit .giveup with flow := { d.flow with creditMethod := .giveup } } := by
      refine ⟨⟨hcredit.appClassified, hcredit.flowsGuessed, hcredit.solvent⟩, ⟨rfl, by simp⟩, ?_,
        h.flowsMlClassified, h.flowsGaveUp, ?_, ?_⟩
      · change c.engine.flowsClassified + 1 = _
        rw [h.flowsClassified]
        simp [Ending.classifies]
      · exact balance_credit_eq_holds hzero ⟨rfl, rfl, rfl⟩
      · change balance .guesses (postings (d.credit .giveup).effects) = _
        rw [balance_credit, if_neg (by simp), add_zero]
        change balance _ (postings (_ ++ [Effect.guessed])) = _
        rw [hguess]
        simp [hemit.balance_guesses]
    exact hgrant.overrideByHost (.inr rfl) env a.giveupHost a.timeHost

/-- The credit of a guess is taken back where it is. -/
private theorem undoGuess_eq (hmem : c.flow.creditMethod ∈ [.giveup, .sni, .dns]) :
    c.undoGuess = { c.debit c.flow.creditMethod with
      engine := { (c.debit c.flow.creditMethod).engine with
        flowsGuessed := c.engine.flowsGuessed - 1 }
      effects := (c.debit c.flow.creditMethod).effects ++ [Effect.unguessed] } := by
  rw [undoGuess]
  simp only [List.mem_cons, List.not_mem_nil, or_false] at hmem
  rcases hmem with hm | hm | hm <;> simp only [hm] <;> rfl

/-- The model's verdict on a flow that no longer holds a credit. -/
private theorem records_model (h : Posted e c)
    (hzero : ∀ m (app : UInt16), app.toNat < numApps →
      balance (.method m app) (postings c.effects) = 0)
    (hguesses : balance .guesses (postings c.effects) = 0)
    (hclassified : c.engine.flowsClassified = e.flowsClassified + 1)
    (hml : c.engine.flowsMlClassified = e.flowsMlClassified)
    (hgaveUp : c.engine.flowsGaveUp = e.flowsGaveUp) (app : UInt16) :
    Records e .model (Call.credit { c with
      flow := { c.flow with
        appId := app, state := .classified, classified := 1, creditMethod := .ml }
      engine := { c.engine with flowsMlClassified := c.engine.flowsMlClassified + 1 } } .ml) := by
  have hcredit := Posted.credit (m := .ml) (c := { c with
    flow := { c.flow with
      appId := app, state := .classified, classified := 1, creditMethod := .ml }
    engine := { c.engine with flowsMlClassified := c.engine.flowsMlClassified + 1 } })
    ⟨h.appClassified, h.flowsGuessed, h.solvent⟩
  refine ⟨⟨hcredit.appClassified, hcredit.flowsGuessed, hcredit.solvent⟩, ⟨rfl, rfl⟩, ?_, ?_, ?_,
    ?_, ?_⟩
  · exact hclassified
  · change c.engine.flowsMlClassified + 1 = _
    rw [hml]
    rfl
  · exact hgaveUp.trans (add_zero _).symm
  · exact balance_credit_eq_holds hzero ⟨rfl, rfl, rfl⟩
  · rw [balance_credit, if_neg (by simp), add_zero]
    exact hguesses

theorem Records.mlStep (h : Records e x c) (hx : x = .undecided ∨ x = .guessed) (env : Env)
    (a : Answers) : ∃ x', (x' = x ∨ x' = .model) ∧ Records e x' (c.mlStep env a) := by
  have hemit := h.emit (.mlClassify (mlFeatures env c.flow.key c.flow)) rfl
  dsimp only [Call.mlStep]
  split
  case isFalse => exact ⟨x, .inl rfl, h⟩
  case isTrue =>
    split
    case isFalse => exact ⟨x, .inl rfl, hemit⟩
    case isTrue =>
      refine ⟨.model, .inr rfl, ?_⟩
      generalize c.mlApp env a = app
      generalize c.emit (.mlClassify (mlFeatures env c.flow.key c.flow)) = d at hemit
      rcases hx with rfl | rfl
      · have hstate : d.flow.state ≠ .classified := by
          have hleaves : d.flow.state.isTerminal = false := hemit.leaves
          intro hd
          simp [hd, FlowState.isTerminal] at hleaves
        rw [if_neg hstate]
        refine records_model (c := { d with
            engine := { d.engine with flowsClassified := d.engine.flowsClassified + 1 } })
          ⟨hemit.appClassified, hemit.flowsGuessed, hemit.solvent⟩
          (hemit.balance_eq_zero rfl) hemit.balance_guesses ?_ ?_ ?_ app
        · exact congrArg (· + 1) (hemit.flowsClassified.trans (add_zero _))
        · exact hemit.flowsMlClassified.trans (add_zero _)
        · exact hemit.flowsGaveUp.trans (add_zero _)
      · have hstate := hemit.leaves.state_eq rfl
        have hdebit : Posted e (d.debit d.flow.creditMethod) :=
          hemit.toPosted.debit fun hlt => hemit.balance_pos rfl hlt
        have hguess : balance .guesses (postings (d.debit d.flow.creditMethod).effects) = 1 := by
          rw [balance_debit, if_neg (by simp), sub_zero, hemit.balance_guesses]
          rfl
        rw [if_pos hstate, undoGuess_eq hemit.leaves.2]
        have hpost : postings ((d.debit d.flow.creditMethod).effects ++ [Effect.unguessed]) =
            postings (d.debit d.flow.creditMethod).effects ++ [.debit .guesses] := by
          rw [postings_append]
          rfl
        refine records_model ⟨fun m app hlt => ?_, ?_, ?_⟩ (fun m app hlt => ?_) ?_ ?_ ?_ ?_ app
        · rw [hpost, balance_append, balance_cons, amount_debit, if_neg (by simp), balance_nil,
            add_zero, add_zero]
          exact hdebit.appClassified m app hlt
        · change d.engine.flowsGuessed - 1 = _
          have hd : d.engine.flowsGuessed = e.flowsGuessed + 1 := by
            rw [hemit.flowsGuessed, hemit.balance_guesses]
            rfl
          rw [hpost, balance_append, hguess, hd]
          simp [ofInt_zero]
        · rw [hpost]
          exact hdebit.solvent.debit (by rw [hguess]; exact one_pos)
        · rw [hpost, balance_append, balance_debit_eq_zero hemit.balance_method hstate m app hlt]
          simp
        · rw [hpost, balance_append, hguess]
          simp
        · exact hemit.flowsClassified
        · exact hemit.flowsMlClassified.trans (add_zero _)
        · exact hemit.flowsGaveUp.trans (add_zero _)

/-- A flow that is not decided is given up. -/
theorem Records.gaveUp (h : Records e .undecided c) (app : UInt16) :
    Records e .gaveUp { c with
      flow := { c.flow with appId := app, state := .gaveUp }
      engine := { c.engine with flowsGaveUp := c.engine.flowsGaveUp + 1 } } := by
  refine ⟨⟨h.appClassified, h.flowsGuessed, h.solvent⟩, rfl, h.flowsClassified,
    h.flowsMlClassified, ?_, fun m app hlt => ?_, h.balance_guesses⟩
  · exact congrArg (· + 1) (h.flowsGaveUp.trans (add_zero _))
  · rw [h.balance_eq_zero rfl m app hlt, if_neg (by simp [FlowEntry.Holds])]

theorem Records.lastResort (h : Records e .undecided c) (env : Env) (a : Answers) :
    ∃ x, (x = .guessed ∨ x = .model ∨ x = .gaveUp) ∧ Records e x (c.lastResort env a) := by
  dsimp only [Call.lastResort]
  -- the guess and the model leave the flow undecided, guessed or classified by the model
  have hsteps : ∃ x, (x = .undecided ∨ x = .guessed ∨ x = .model) ∧
      Records e x (if c.engine.mlEnabled then (c.giveupStep env a).mlStep env a else c) := by
    split
    · have hx : (if a.giveup.isKnown then Ending.guessed else .undecided) = .undecided ∨
          (if a.giveup.isKnown then Ending.guessed else .undecided) = .guessed := by
        split <;> simp
      obtain ⟨x, hx', hrec⟩ := (h.giveupStep env a).mlStep hx env a
      refine ⟨x, ?_, hrec⟩
      rcases hx' with rfl | rfl
      · exact hx.imp_right .inl
      · exact .inr (.inr rfl)
    · exact ⟨.undecided, .inl rfl, h⟩
  obtain ⟨x, hx, hrec⟩ := hsteps
  generalize (if c.engine.mlEnabled then (c.giveupStep env a).mlStep env a else c) = d at hrec ⊢
  rcases hx with rfl | hx
  · have hstate : d.flow.state ≠ .classified := by
      have hleaves : d.flow.state.isTerminal = false := hrec.leaves
      intro hd
      simp [hd, FlowState.isTerminal] at hleaves
    rw [if_pos hstate]
    exact ⟨.gaveUp, .inr (.inr rfl), (hrec.gaveUp 0).freeNdpiFlow⟩
  · have hstate : d.flow.state = .classified :=
      hrec.leaves.state_eq (by rcases hx with rfl | rfl <;> rfl)
    rw [if_neg (not_not.mpr hstate)]
    exact ⟨x, hx.imp_right .inl, hrec.freeNdpiFlow⟩

end Call

end NdpiObserve
