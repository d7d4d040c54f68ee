import NdpiObserve.Daemon.FlowMachine

/-!
# Where names and ids come from

Hostnames enter the engine in two places: nDPI leaves them in its flow structure, and the DNS hook
stores them in the DNS cache. From there they become labels of the pool, and the pool, the service
tables, nDPI and the model give the ids of applications. So what is required of hostnames and of
the ids that nDPI answers holds of every name and every id in the engine.

## Main definitions

* `NameRules`, `NameRules.Closed`: what is required of hostnames, labels and ids.
* `Engine.Obeys`, `FlowEntry.Obeys`: the names and ids in the engine and in an entry.
* `EngineRun.Observes`: the steps that bring in names and ids as required.

## Main results

* `engineGetDynApp_cases`: what the pool does with a hostname.
* `Call.process_obeys`: a call keeps the rules, and its labels only join the pool.
* `EngineRun.obeys_run`: the names and ids of a whole run.
-/

namespace NdpiObserve

open Machine

/-! ### Labels of hostnames -/

theorem length_capitalize (s : Bytes) : (capitalize s).length = s.length := by
  cases s <;> rfl

theorem mem_capitalize {b : UInt8} {s : Bytes} (h : b ∈ capitalize s) :
    b ∈ s ∨ ∃ x ∈ s, (97 ≤ x ∧ x ≤ 122) ∧ b = x - 32 := by
  cases s with
  | nil => cases h
  | cons x rest =>
    rw [capitalize] at h
    rcases List.mem_cons.mp h with rfl | hrest
    · split
      case isTrue hlower => exact .inr ⟨x, List.mem_cons_self, hlower, rfl⟩
      case isFalse => exact .inl List.mem_cons_self
    · exact .inl (List.mem_cons_of_mem x hrest)

/-- The word is made of the bytes of the hostname, apart from the capital letter. -/
theorem mem_sldWord {b : UInt8} {host : Bytes} (h : b ∈ sldWord host) :
    b ∈ host ∨ ∃ x ∈ host, (97 ≤ x ∧ x ≤ 122) ∧ b = x - 32 := by
  dsimp only [sldWord] at h
  generalize hbuf : (if (host.take 83).getLast? = some 46 then (host.take 83).dropLast
    else host.take 83) = buf at h
  have hsub : ∀ x ∈ buf, x ∈ host := by
    intro x hx
    rw [← hbuf] at hx
    split at hx
    · exact List.mem_of_mem_take (List.mem_of_mem_dropLast hx)
    · exact List.mem_of_mem_take hx
  split at h
  · exact .inl h
  · have hpart {x : UInt8} (hx : x ∈ ((buf.drop (sldStart buf)).takeWhile (· ≠ 46)).take 63) :
        x ∈ host :=
      hsub x (List.mem_of_mem_drop ((List.takeWhile_sublist _).subset (List.mem_of_mem_take hx)))
    rcases mem_capitalize h with hmem | ⟨x, hx, hb⟩
    · exact .inl (hpart hmem)
    · exact .inr ⟨x, hpart hx, hb⟩

/-- The word fits a label of the pool. -/
theorem length_sldWord_le (host : Bytes) : (sldWord host).length ≤ 63 := by
  dsimp only [sldWord]
  generalize hbuf : (if (host.take 83).getLast? = some 46 then (host.take 83).dropLast
    else host.take 83) = buf
  split
  case isTrue h =>
    -- only the empty hostname and a single dot leave nothing
    have hle : (host.take 83).length ≤ 1 := by
      rw [h] at hbuf
      split at hbuf
      · have hlen := congrArg List.length hbuf
        rw [List.length_dropLast, List.length_nil] at hlen
        omega
      · rw [hbuf]
        exact Nat.zero_le 1
    rw [List.length_take] at hle
    omega
  case isFalse =>
    rw [length_capitalize, List.length_take]
    exact Nat.min_le_left 63 _

/-- nDPI's database of hostnames has an application for the host. -/
def Env.Knows (env : Env) (host : Bytes) : Prop :=
  env.matchStringSubprotocol host ≠ ndpiProtocolUnknown ∧
    (specificName env (env.matchStringSubprotocol host)).isSome = true

/-- A hostname that nDPI does not know has its word as label. -/
theorem cleanLabel_eq_sldWord {env : Env} {host : Bytes} (h : ¬env.Knows host) :
    cleanLabel env host = sldWord host := by
  rw [cleanLabel]
  split
  case isFalse => rfl
  case isTrue hproto =>
    have hnone : specificName env (env.matchStringSubprotocol host) = none := by
      rw [← Option.not_isSome_iff_eq_none]
      exact fun hsome => h ⟨hproto, hsome⟩
    rw [hnone]
    rfl

/-- The label that an empty pool makes for a hostname. -/
def Env.newLabel (env : Env) (host : Bytes) : Option Bytes := (engineGetDynApp env [] host).1.head?

/-- **The pool.** A hostname has no id, the id of nDPI, the id of a label in use, or nDPI does not
know it and its word becomes a new label. -/
theorem engineGetDynApp_cases (env : Env) (labels : List Bytes) (host : Bytes) :
    engineGetDynApp env labels host = (labels, 0) ∨
    engineGetDynApp env labels host = (labels, env.matchStringSubprotocol host) ∨
    (∃ i < labels.length, engineGetDynApp env labels host = (labels, UInt16.ofNat (400 + i))) ∨
    (env.newLabel host = some (sldWord host) ∧ sldWord host ∉ labels ∧ labels.length < 64 ∧
      engineGetDynApp env labels host =
        (labels ++ [sldWord host], UInt16.ofNat (400 + labels.length))) := by
  have htake : (sldWord host).take 63 = sldWord host :=
    List.take_of_length_le (length_sldWord_le host)
  rw [engineGetDynApp]
  by_cases h₁ : host = []
  · rw [if_pos h₁]
    exact .inl rfl
  rw [if_neg h₁]
  by_cases h₂ : ¬46 ∈ host
  · rw [if_pos h₂]
    exact .inl rfl
  rw [if_neg h₂]
  by_cases h₃ : tldOf host = text "local" ∨ tldOf host = text "localdomain"
  · rw [if_pos h₃]
    exact .inl rfl
  rw [if_neg h₃]
  by_cases h₄ : strstr (text ".arpa") host ∨ strstr (text ".in-addr.") host
  · rw [if_pos h₄]
    exact .inl rfl
  rw [if_neg h₄]
  by_cases hknown : env.matchStringSubprotocol host ≠ ndpiProtocolUnknown ∧
      (specificName env (env.matchStringSubprotocol host)).isSome
  · rw [if_pos hknown]
    exact .inr (.inl rfl)
  rw [if_neg hknown, cleanLabel_eq_sldWord hknown]
  dsimp only
  cases hfind : labels.findIdx? (· = sldWord host) with
  | some i =>
    obtain ⟨hlt, -⟩ := List.findIdx?_eq_some_iff_getElem.mp hfind
    exact .inr (.inr (.inl ⟨i, hlt, rfl⟩))
  | none =>
    by_cases hroom : labels.length ≥ 64
    · exact .inl (if_pos hroom)
    · have hnew : sldWord host ∉ labels := fun hmem => by
        simpa using List.findIdx?_eq_none_iff.mp hfind _ hmem
      refine .inr (.inr (.inr ⟨?_, hnew, by omega, ?_⟩))
      · rw [Env.newLabel, engineGetDynApp, if_neg h₁, if_neg h₂, if_neg h₃, if_neg h₄,
          if_neg hknown, cleanLabel_eq_sldWord hknown]
        exact congrArg some htake
      · dsimp only
        rw [if_neg hroom, htake]

theorem Env.eq_of_newLabel_eq_some {env : Env} {host l : Bytes} (h : env.newLabel host = some l) :
    l = sldWord host := by
  rcases engineGetDynApp_cases env [] host with hq | hq | ⟨i, hi, -⟩ | ⟨hnew, -⟩
  · rw [newLabel, hq] at h
    cases h
  · rw [newLabel, hq] at h
    cases h
  · cases hi
  · exact Option.some.inj (h.symm.trans hnew)

/-! ### Rules -/

/-- What is required of hostnames that nDPI finds in a flow and of those that the DNS hook finds,
of labels, and of ids while `n` labels are in use. -/
structure NameRules where
  sni : Bytes → Prop
  dns : Bytes → Prop
  label : Bytes → Prop
  app : ℕ → UInt16 → Prop

/-- The engine turns hostnames into labels and ids as required, and the tables and the external
functions answer ids as required. -/
structure NameRules.Closed (r : NameRules) (env : Env) : Prop where
  mono : ∀ {n m app}, n ≤ m → r.app n app → r.app m app
  sniLabel : ∀ {host l}, r.sni host → env.newLabel host = some l → r.label l
  dnsLabel : ∀ {host l}, r.dns host → dnsMatchApp host = 0 → env.newLabel host = some l → r.label l
  none : r.app 0 0
  labelId : ∀ {i n}, i < n → n ≤ 64 → r.app n (UInt16.ofNat (400 + i))
  matched : ∀ host, r.app 0 (env.matchStringSubprotocol host)
  table : ∀ host, r.app 0 (dnsMatchApp host)
  mcp : ∀ host, r.app 0 (matchMcpService host)
  model : ∀ feat, r.app 0 (ndpiMlClassify env feat)

/-- The application has a counter of the engine that is not zero. -/
def Engine.Counts (e : Engine) (i : Fin numApps) : Prop :=
  e.totals.1 i ≠ 0 ∨ ∃ m, e.appClassified m i ≠ 0

/-- The hostname, the address and the id of the entry in a slot of the DNS cache. -/
structure DnsCacheEntry.Obeys (r : NameRules) (n : ℕ) (i : Fin dnsCacheSize) (ce : DnsCacheEntry) :
    Prop where
  host : ce.hostname = [] ∨ r.dns ce.hostname
  slot : ce.hostname = [] ∨ dnsHash ce.ip = i
  app : r.app n ce.cachedAppId

/-- The names and ids in the engine, which has at least the labels `base`. -/
structure Engine.Obeys (r : NameRules) (base : List Bytes) (e : Engine) : Prop where
  base : base <+: e.dynLabels
  nodup : e.dynLabels.Nodup
  length_le : e.dynLabels.length ≤ 64
  label : ∀ l ∈ e.dynLabels, r.label l
  cached : ∀ i, (e.dnsCache i).Obeys r e.dynLabels.length i
  counted : ∀ i, e.Counts i → r.app e.dynLabels.length (UInt16.ofNat i)

/-- The hostname and the application of an entry. -/
structure FlowEntry.Obeys (r : NameRules) (n : ℕ) (f : FlowEntry) : Prop where
  sni : f.sni = [] ∨ r.sni f.sni
  app : r.app n f.appId

/-- The ids and hostnames that nDPI answers. -/
structure Answers.Obeys (r : NameRules) (a : Answers) : Prop where
  detection : r.app 0 a.detection.best
  detectionHost : cString a.detectionHost ≠ [] → r.sni (strncpy a.detectionHost 79)
  giveup : r.app 0 a.giveup.best
  giveupHost : cString a.giveupHost ≠ [] → r.sni (strncpy a.giveupHost 79)

/-- The names that the DNS hook finds in an event. -/
def FlowEvent.Obeys (r : NameRules) (evt : FlowEvent) : Prop :=
  evt.fromDnsPort = true → ∀ l, dnsParse (memoryReader evt.pktData) evt.dataLen = .ok l →
    ∀ x ∈ l, r.dns (strncpy x.name 79)

variable {r : NameRules} {base : List Bytes} {env : Env}

theorem DnsCacheEntry.Obeys.mono (hr : r.Closed env) {n m : ℕ} {i : Fin dnsCacheSize}
    {ce : DnsCacheEntry} (h : ce.Obeys r n i) (hle : n ≤ m) : ce.Obeys r m i :=
  ⟨h.host, h.slot, hr.mono hle h.app⟩

theorem FlowEntry.Obeys.mono (hr : r.Closed env) {n m : ℕ} {f : FlowEntry} (h : f.Obeys r n)
    (hle : n ≤ m) : f.Obeys r m :=
  ⟨h.sni, hr.mono hle h.app⟩

theorem Engine.Obeys.rebase {base' : List Bytes} {e : Engine} (h : e.Obeys r base)
    (hpre : base' <+: e.dynLabels) : e.Obeys r base' :=
  ⟨hpre, h.nodup, h.length_le, h.label, h.cached, h.counted⟩

theorem Engine.Obeys.setFlows {e : Engine} (h : e.Obeys r base) (t : FlowTable) :
    Engine.Obeys r base { e with flows := t } :=
  ⟨h.base, h.nodup, h.length_le, h.label, h.cached, h.counted⟩

/-- A flow is added to the counters of its own application. -/
theorem Engine.Obeys.addTotals (env : Env) {e : Engine} (h : e.Obeys r base) {f : FlowEntry}
    (hf : f.Obeys r e.dynLabels.length) : (e.addTotals env f).Obeys r base := by
  refine ⟨h.base, h.nodup, h.length_le, h.label, h.cached, fun i hi => ?_⟩
  by_cases happ : i.val = f.appId.toNat
  · have hid : UInt16.ofNat i = f.appId := by rw [happ, UInt16.ofNat_toNat]
    rw [hid]
    exact hf.app
  · refine h.counted i (hi.imp_left fun htotals hzero => htotals ?_)
    have hadd := congrArg (fun t => t.1 i) (totals_addTotals env e f)
    have hshare : (f.share env).1 i = 0 := if_neg happ
    refine Eq.trans hadd ?_
    rw [Prod.fst_add, Pi.add_apply, hzero, hshare, add_zero]

/-! ### The DNS hook -/

theorem dnsInsertAll_obeys (hr : r.Closed env) (clock : ℕ → ℤ) (n : ℕ) (l : List DnsAnswer)
    (hl : ∀ x ∈ l, r.dns (strncpy x.name 79)) (j : ℕ) (c : DnsCache)
    (hc : ∀ i, (c i).Obeys r n i) : ∀ i, (dnsInsertAll clock j l c i).Obeys r n i := by
  induction l generalizing j c with
  | nil => exact hc
  | cons x l ih =>
    refine ih (fun y hy => hl y (List.mem_cons_of_mem x hy)) (j + 1) _ fun i => ?_
    rw [dnsCacheInsert, Function.update_apply]
    split
    case isTrue hi =>
      exact ⟨.inr (hl x List.mem_cons_self), .inr hi.symm, hr.mono (Nat.zero_le n) hr.none⟩
    case isFalse => exact hc i

theorem Engine.Obeys.observeDns (hr : r.Closed env) {e : Engine} (h : e.Obeys r base)
    {evt : FlowEvent} (hevt : evt.Obeys r) (a : Answers) : (e.observeDns evt a).Obeys r base := by
  rw [Engine.observeDns]
  split
  case isFalse => exact h
  case isTrue hport =>
    have hcache : ∀ i, (dnsCacheUpdate e.dnsCache evt.pktData evt.dataLen a.timeDns i).Obeys r
        e.dynLabels.length i := by
      rw [dnsCacheUpdate]
      cases hparse : dnsParse (memoryReader evt.pktData) evt.dataLen with
      | error _ => exact h.cached
      | ok l => exact dnsInsertAll_obeys hr _ _ l (hevt hport l hparse) 0 e.dnsCache h.cached
    exact ⟨h.base, h.nodup, h.length_le, h.label, hcache, h.counted⟩

/-! ### Calls -/

/-- The names and ids in a call. -/
structure Call.Obeys (r : NameRules) (base : List Bytes) (c : Call) : Prop where
  engine : c.engine.Obeys r base
  flow : c.flow.Obeys r c.engine.dynLabels.length

namespace Call

/-- The part of a call that has the names and the ids. -/
def names (c : Call) : List Bytes × DnsCache × Totals × (CreditMethod → Fin numApps → UInt64) ×
    Bytes × UInt16 :=
  (c.engine.dynLabels, c.engine.dnsCache, c.engine.totals, c.engine.appClassified, c.flow.sni,
    c.flow.appId)

theorem Obeys.of_names_eq {c d : Call} (h : c.Obeys r base) (heq : d.names = c.names) :
    d.Obeys r base := by
  simp only [names, Prod.mk.injEq] at heq
  obtain ⟨hlabels, hcache, htotals, hclassified, hsni, happ⟩ := heq
  refine ⟨⟨?_, ?_, ?_, ?_, ?_, fun i hi => ?_⟩, ?_, ?_⟩
  · rw [hlabels]
    exact h.engine.base
  · rw [hlabels]
    exact h.engine.nodup
  · rw [hlabels]
    exact h.engine.length_le
  · rw [hlabels]
    exact h.engine.label
  · rw [hcache, hlabels]
    exact h.engine.cached
  · rw [hlabels]
    rw [Engine.Counts, htotals, hclassified] at hi
    exact h.engine.counted i hi
  · rw [hsni]
    exact h.flow.sni
  · rw [happ, hlabels]
    exact h.flow.app

variable {c : Call}

theorem Obeys.setApp (h : c.Obeys r base) {app : UInt16}
    (happ : r.app c.engine.dynLabels.length app) :
    Obeys r base { c with flow := { c.flow with appId := app } } :=
  ⟨h.engine, h.flow.sni, happ⟩

/-- A change of the credits of the flow's application. -/
theorem Obeys.addClassified (h : c.Obeys r base) (m : CreditMethod) (x : UInt64)
    (l : List Effect) :
    Obeys r base { c with
      engine := c.engine.addClassified m c.flow.appId x, effects := c.effects ++ l } := by
  refine ⟨⟨h.engine.base, h.engine.nodup, h.engine.length_le, h.engine.label, h.engine.cached,
    fun i hi => ?_⟩, h.flow.sni, h.flow.app⟩
  by_cases happ : i.val = c.flow.appId.toNat
  · have hid : UInt16.ofNat i = c.flow.appId := by rw [happ, UInt16.ofNat_toNat]
    rw [hid]
    exact h.flow.app
  · refine h.engine.counted i (hi.imp_right ?_)
    rintro ⟨m', hm'⟩
    refine ⟨m', fun hzero => hm' ?_⟩
    dsimp only [Engine.addClassified]
    rw [Function.update_apply]
    split
    case isTrue hm =>
      rw [addAt_apply, if_neg happ, add_zero, ← hm]
      exact hzero
    case isFalse => exact hzero

theorem Obeys.credit (h : c.Obeys r base) (m : CreditMethod) : (c.credit m).Obeys r base :=
  h.addClassified m 1 _

theorem Obeys.debit (h : c.Obeys r base) (m : CreditMethod) : (c.debit m).Obeys r base :=
  h.addClassified m (-1) _

theorem Obeys.moveCredit (h : c.Obeys r base) (m : CreditMethod) {aiId : UInt16} (fromDns : Bool)
    (hid : r.app c.engine.dynLabels.length aiId) : (c.moveCredit m aiId fromDns).Obeys r base := by
  rw [Call.moveCredit]
  split
  · have hset := (h.debit m).setApp hid
    have hmoved := hset.credit (if fromDns then .dns else .sni)
    exact hmoved.of_names_eq rfl
  · exact h

/-- More labels. -/
theorem Obeys.setLabels (hr : r.Closed env) (h : c.Obeys r base) {labels : List Bytes}
    (hpre : c.engine.dynLabels <+: labels) (hnodup : labels.Nodup) (hlen : labels.length ≤ 64)
    (hlabel : ∀ l ∈ labels, r.label l) :
    Obeys r base { c with engine := { c.engine with dynLabels := labels } } :=
  ⟨⟨h.engine.base.trans hpre, hnodup, hlen, hlabel,
    fun i => (h.engine.cached i).mono hr hpre.length_le,
    fun i hi => hr.mono hpre.length_le (h.engine.counted i hi)⟩,
    h.flow.mono hr hpre.length_le⟩

/-- The pool after it was asked for a hostname, and the id that it answers. -/
theorem Obeys.askPool (hr : r.Closed env) (h : c.Obeys r base) {host : Bytes}
    (hhost : ∀ l, env.newLabel host = some l → r.label l) :
    let q := engineGetDynApp env c.engine.dynLabels host
    Obeys r base { c with engine := { c.engine with dynLabels := q.1 } } ∧
      r.app q.1.length q.2 := by
  rcases engineGetDynApp_cases env c.engine.dynLabels host with
    hq | hq | ⟨i, hi, hq⟩ | ⟨hword, hnew, hroom, hq⟩
  all_goals
    rw [hq]
    dsimp only
  · exact ⟨h, hr.mono (Nat.zero_le _) hr.none⟩
  · exact ⟨h, hr.mono (Nat.zero_le _) (hr.matched host)⟩
  · exact ⟨h, hr.labelId hi h.engine.length_le⟩
  · have hlen : (c.engine.dynLabels ++ [sldWord host]).length = c.engine.dynLabels.length + 1 :=
      List.length_append
    refine ⟨h.setLabels hr (List.prefix_append _ _) ?_ (by omega) fun l hl => ?_, ?_⟩
    · rw [← List.concat_eq_append]
      exact List.nodup_concat _ _ |>.mpr ⟨hnew, h.engine.nodup⟩
    · rcases List.mem_append.mp hl with hl | hl
      · exact h.engine.label l hl
      · rw [List.mem_singleton.mp hl]
        exact hhost _ hword
    · rw [hlen]
      exact hr.labelId (Nat.lt_succ_self _) hroom

theorem Obeys.resolveSni (hr : r.Closed env) (h : c.Obeys r base) {host : Bytes}
    (hhost : r.sni host) :
    (c.resolveSni env host).1.Obeys r base ∧
      r.app (c.resolveSni env host).1.engine.dynLabels.length (c.resolveSni env host).2 :=
  h.askPool hr fun _ => hr.sniLabel hhost

theorem Obeys.resolveDns (hr : r.Closed env) (h : c.Obeys r base) {host : Bytes}
    (hhost : r.dns host) :
    (c.resolveDns env host).1.Obeys r base ∧
      r.app (c.resolveDns env host).1.engine.dynLabels.length (c.resolveDns env host).2 := by
  dsimp only [Call.resolveDns]
  split
  · exact ⟨h, (h.engine.cached _).app⟩
  · generalize hq : (if dnsMatchApp host = 0 then engineGetDynApp env c.engine.dynLabels host
      else (c.engine.dynLabels, dnsMatchApp host)) = q
    have hfound : Obeys r base { c with engine := { c.engine with dynLabels := q.1 } } ∧
        r.app q.1.length q.2 := by
      rw [← hq]
      split
      case isTrue hunknown => exact h.askPool hr fun _ => hr.dnsLabel hhost hunknown
      case isFalse => exact ⟨h, hr.mono (Nat.zero_le _) (hr.table host)⟩
    obtain ⟨hobeys, happ⟩ := hfound
    split
    · refine ⟨⟨⟨hobeys.engine.base, hobeys.engine.nodup, hobeys.engine.length_le,
        hobeys.engine.label, fun i => ?_, hobeys.engine.counted⟩, hobeys.flow⟩, happ⟩
      dsimp only
      rw [Function.update_apply]
      split
      case isTrue hi =>
        have hold := hobeys.engine.cached (dnsHash c.flow.key.dstIp)
        rw [← hi] at hold ⊢
        exact ⟨hold.host, hold.slot, happ⟩
      case isFalse => exact hobeys.engine.cached i
    · exact ⟨hobeys, happ⟩

/-- The hostname that overrides a verdict comes from the entry or from the DNS cache. -/
theorem Obeys.overrideHost (h : c.Obeys r base) {time : ℤ} {host : Bytes} {fromDns : Bool}
    (hhost : c.overrideHost time = some (host, fromDns)) :
    if fromDns then r.dns host else r.sni host := by
  rw [Call.overrideHost] at hhost
  split at hhost
  case isTrue hsni =>
    obtain ⟨rfl, rfl⟩ := Prod.mk.inj (Option.some.inj hhost)
    exact h.flow.sni.resolve_left hsni
  case isFalse =>
    obtain ⟨dce, hdce, heq⟩ := Option.map_eq_some_iff.mp hhost
    obtain ⟨rfl, rfl⟩ := Prod.mk.inj heq
    rw [dnsCacheLookupEntry] at hdce
    split at hdce
    case isTrue hlive =>
      rw [← Option.some.inj hdce]
      exact (h.engine.cached _).host.resolve_left hlive.2.1
    case isFalse => cases hdce

theorem Obeys.overrideByHost (hr : r.Closed env) (h : c.Obeys r base) (m : CreditMethod)
    {serverName : Bytes} (time : ℤ)
    (hserver : cString serverName ≠ [] → r.sni (strncpy serverName 79)) :
    (c.overrideByHost env m serverName time).Obeys r base := by
  rw [Call.overrideByHost]
  generalize hd : (if cString serverName ≠ [] then
    { c with flow := { c.flow with sni := strncpy serverName 79 } } else c) = d
  have hobeys : d.Obeys r base := by
    rw [← hd]
    split
    case isTrue hname => exact ⟨h.engine, .inr (hserver hname), h.flow.app⟩
    case isFalse => exact h
  dsimp only
  cases hhost : d.overrideHost time with
  | none => exact hobeys
  | some x =>
    obtain ⟨host, fromDns⟩ := x
    have hname := hobeys.overrideHost hhost
    have hresolved : (if fromDns then d.resolveDns env host else d.resolveSni env host).1.Obeys r
        base ∧ r.app
          (if fromDns then d.resolveDns env host
            else d.resolveSni env host).1.engine.dynLabels.length
          (if fromDns then d.resolveDns env host else d.resolveSni env host).2 := by
      cases fromDns with
      | true => exact hobeys.resolveDns hr hname
      | false => exact hobeys.resolveSni hr hname
    exact hresolved.1.moveCredit m fromDns hresolved.2

/-- A verdict of nDPI. -/
theorem Obeys.classify (hr : r.Closed env) (h : c.Obeys r base) {p : NdpiProtocol}
    (hp : r.app 0 p.best) : (c.classify p).Obeys r base :=
  (h.setApp (hr.mono (Nat.zero_le _) hp)).of_names_eq rfl

theorem Obeys.freeNdpiFlow (h : c.Obeys r base) : c.freeNdpiFlow.Obeys r base :=
  h.of_names_eq rfl

theorem Obeys.ndpiVerdict (hr : r.Closed env) (h : c.Obeys r base) {a : Answers}
    (ha : a.Obeys r) : (c.ndpiVerdict env a).Obeys r base := by
  refine Obeys.freeNdpiFlow (Obeys.overrideByHost hr ?_ .ndpi a.timeHost ha.detectionHost)
  refine Obeys.of_names_eq (Obeys.credit ?_ .ndpi) rfl
  exact (h.classify hr ha.detection).of_names_eq rfl

theorem Obeys.giveupStep (hr : r.Closed env) (h : c.Obeys r base) {a : Answers}
    (ha : a.Obeys r) : (c.giveupStep env a).Obeys r base := by
  have hemit : (c.emit .detectionGiveup).Obeys r base := h.of_names_eq rfl
  rw [Call.giveupStep]
  split
  · refine Obeys.overrideByHost hr ?_ .giveup a.timeHost ha.giveupHost
    refine Obeys.of_names_eq (Obeys.credit ?_ .giveup) rfl
    exact (hemit.classify hr ha.giveup).of_names_eq rfl
  · exact hemit

theorem Obeys.undoGuess (h : c.Obeys r base) : c.undoGuess.Obeys r base := by
  have hback {d : Call} (hd : d.Obeys r base) (x : UInt64) : Obeys r base { d with
      engine := { d.engine with flowsGuessed := x }
      effects := d.effects ++ [Effect.unguessed] } := hd.of_names_eq rfl
  rw [Call.undoGuess]
  refine hback ?_ _
  split
  · exact h.debit .giveup
  · exact h.debit .sni
  · exact h.debit .dns
  · exact h

/-- The model answers an id of its table or a service. -/
theorem mlApp_obeys (hr : r.Closed env) (a : Answers) (c : Call) : r.app 0 (c.mlApp env a) := by
  rw [Call.mlApp]
  dsimp only
  split
  · generalize (if c.flow.sni ≠ [] then some c.flow.sni
      else dnsCacheLookup c.engine.dnsCache c.flow.key.dstIp a.timeMcp) = host
    split
    · exact hr.none
    · exact hr.mcp host
  · exact hr.model _

theorem Obeys.mlStep (hr : r.Closed env) (h : c.Obeys r base) (a : Answers) :
    (c.mlStep env a).Obeys r base := by
  have hmodel {d : Call} (hd : d.Obeys r base) : Obeys r base (Call.credit { d with
      flow := { d.flow with
        appId := c.mlApp env a, state := .classified, classified := 1, creditMethod := .ml }
      engine := { d.engine with flowsMlClassified := d.engine.flowsMlClassified + 1 } } .ml) := by
    refine Obeys.credit ?_ .ml
    exact (hd.setApp (hr.mono (Nat.zero_le _) (mlApp_obeys hr a c))).of_names_eq rfl
  dsimp only [Call.mlStep]
  split
  · split
    · refine hmodel ?_
      split
      · exact Obeys.undoGuess (h.of_names_eq rfl)
      · exact h.of_names_eq rfl
    · exact h.of_names_eq rfl
  · exact h

theorem Obeys.lastResort (hr : r.Closed env) (h : c.Obeys r base) {a : Answers}
    (ha : a.Obeys r) : (c.lastResort env a).Obeys r base := by
  dsimp only [Call.lastResort]
  refine Obeys.freeNdpiFlow ?_
  generalize hd : (if c.engine.mlEnabled then (c.giveupStep env a).mlStep env a else c) = d
  have hobeys : d.Obeys r base := by
    rw [← hd]
    split
    · exact (h.giveupStep hr ha).mlStep hr a
    · exact h
  split
  · exact Obeys.of_names_eq (hobeys.setApp (hr.mono (Nat.zero_le _) hr.none)) rfl
  · exact hobeys

theorem Obeys.verdictTail (env : Env) (fd : ℤ) (h : c.Obeys r base) :
    (c.verdictTail env fd).Obeys r base := by
  obtain ⟨rows, heq⟩ := exists_verdictTail_eq env fd c
  have htotals : (c.engine.addTotals env c.flow).Obeys r base :=
    h.engine.addTotals env h.flow
  have hadded : Obeys r base { c with engine := c.engine.addTotals env c.flow } :=
    ⟨htotals, h.flow⟩
  rw [heq]
  exact hadded.of_names_eq rfl

variable (evt : FlowEvent) (fd : ℤ) {a : Answers}

theorem Obeys.scanned (h : c.Obeys r base) : (c.scanned evt a).Obeys r base := by
  obtain ⟨ptr, l, -, -, heq⟩ := exists_scanned_eq evt a c
  have hplain := mlAccumulate_plain evt { (c.counted evt a).flow with ndpiFlow := ptr }
  have hsni := congrArg FlowEntry.sni hplain
  have happ := congrArg FlowEntry.appId hplain
  simp only [FlowEntry.plain] at hsni happ
  refine h.of_names_eq ?_
  rw [heq, names, names, hsni, happ]
  rfl

/-- **Names and ids in a call.** A call keeps the rules, and its labels only join the pool. -/
theorem process_obeys (hr : r.Closed env) (h : c.Obeys r base) (ha : a.Obeys r) :
    (c.process env evt fd a).Obeys r base := by
  have hnone : r.app c.engine.dynLabels.length 0 := hr.mono (Nat.zero_le _) hr.none
  rw [process_eq]
  cases c.flow.exit evt a with
  | cached | emptyPending | allocFailed => exact h.of_names_eq rfl
  | emptyGaveUp =>
    dsimp only [giveUpEmpty, publish]
    split <;> exact Obeys.of_names_eq (h.setApp hnone) rfl
  | classified => exact ((h.scanned evt).ndpiVerdict hr ha).verdictTail env fd
  | pending => exact h.scanned evt
  | lastResort => exact ((h.scanned evt).lastResort hr ha).verdictTail env fd

end Call

/-! ### Runs -/

/-- The names and ids that an operation brings in. -/
def EngineOp.Obeys (r : NameRules) : EngineOp → Prop
  | .process evt _ a => evt.Obeys r ∧ a.Obeys r
  | .age _ => True

namespace EngineRun

/-- The names and ids of a run. -/
structure Obeys (r : NameRules) (base : List Bytes) (w : EngineRun) : Prop where
  sound : w.Sound
  engine : w.engine.Obeys r base
  flows : ∀ f ∈ w.flows, f.Obeys r w.engine.dynLabels.length

theorem obeys_start (hr : r.Closed env) (iface : Bytes) (ml dump : Bool) :
    (start iface ml dump).Obeys r [] := by
  refine ⟨sound_start iface ml dump, ⟨List.nil_prefix, List.nodup_nil, Nat.zero_le 64, ?_,
    fun i => ⟨.inl rfl, .inl rfl, hr.none⟩, fun i hi => ?_⟩, ?_⟩
  · rintro l ⟨⟩
  · rcases hi with htotals | ⟨m, hm⟩
    · exact absurd rfl htotals
    · exact absurd rfl hm
  · simp [flows_start]

/-- The call of a step. -/
theorem Obeys.body (hr : r.Closed env) {w : EngineRun} (h : w.Obeys r base) {evt : FlowEvent}
    {a : Answers} (fd : ℤ) (hevt : evt.Obeys r) (ha : a.Obeys r) {f : FlowEntry}
    (hf : w.engine.obtain evt a = some f) :
    (w.body env evt fd a f).Obeys r w.engine.dynLabels := by
  have hlabels : (w.engine.bodyStart evt a).dynLabels = w.engine.dynLabels := by
    obtain ⟨cache, heq⟩ := w.engine.exists_observeDns_eq evt a
    rw [Engine.bodyStart, heq]
  have hobserved : (w.engine.observeDns evt a).Obeys r w.engine.dynLabels :=
    (h.engine.rebase List.prefix_rfl).observeDns hr hevt a
  have hstart : (w.engine.bodyStart evt a).Obeys r w.engine.dynLabels := hobserved.setFlows _
  have hflow : f.Obeys r (w.engine.bodyStart evt a).dynLabels.length := by
    rw [hlabels]
    rcases entered_cases hf with ⟨hl, -⟩ | ⟨rfl, -, -⟩
    · exact h.flows f (h.sound.mem_flows hl)
    · exact ⟨.inl rfl, hr.mono (Nat.zero_le _) hr.none⟩
  exact Call.process_obeys evt fd hr ⟨hstart, hflow⟩ ha

/-- The sweep adds flows to the totals. -/
theorem obeys_foldl_expire (env : Env) {e : Engine} (h : e.Obeys r base) (l : List FlowEntry)
    (hl : ∀ f ∈ l, f.Obeys r e.dynLabels.length) :
    (l.foldl (fun e f => onFlowExpire env f e) e).Obeys r base ∧
      (l.foldl (fun e f => onFlowExpire env f e) e).dynLabels = e.dynLabels := by
  induction l generalizing e with
  | nil => exact ⟨h, rfl⟩
  | cons f l ih =>
    have hadded : (onFlowExpire env f e).Obeys r base := h.addTotals env (hl f List.mem_cons_self)
    exact ih hadded fun g hg => hl g (List.mem_cons_of_mem f hg)

/-- **Names and ids in a step.** -/
theorem Obeys.step (hr : r.Closed env) {w : EngineRun} (h : w.Obeys r base) {op : EngineOp}
    (hop : op.Obeys r) :
    (w.step env op).Obeys r base ∧ w.engine.dynLabels <+: (w.step env op).engine.dynLabels := by
  have hsound := h.sound.step env op
  cases op with
  | age now =>
    have hidle : ∀ f ∈ w.engine.flows.idle now, f.Obeys r w.engine.dynLabels.length := by
      intro f hf
      refine h.flows f (Multiset.mem_add.mpr (.inl ?_))
      rw [FlowTable.entries_eq_sweep_add_idle w.engine.flows now]
      exact Multiset.mem_add.mpr (.inr (Multiset.mem_coe.mpr hf))
    obtain ⟨hengine, hlabels⟩ := obeys_foldl_expire env h.engine _ hidle
    have hflows : (w.step env (.age now)).flows = w.flows := flows_age env now
    rw [step_age] at hsound hflows ⊢
    refine ⟨⟨hsound, hengine.setFlows _, ?_⟩, ?_⟩
    · rw [hflows]
      dsimp only
      rw [hlabels]
      exact h.flows
    · dsimp only
      rw [hlabels]
  | process evt fd a =>
    obtain ⟨hevt, ha⟩ := hop
    cases hf : w.engine.obtain evt a with
    | none =>
      have hobserved := h.engine.observeDns hr hevt a
      obtain ⟨cache, hdns⟩ := w.engine.exists_observeDns_eq evt a
      rw [step_process_of_none env fd hf] at hsound ⊢
      refine ⟨⟨hsound, hobserved, ?_⟩, ?_⟩
      · dsimp only
        rw [EngineRun.flows, Engine.observeDns_flows, hdns]
        exact h.flows
      · dsimp only
        rw [hdns]
    | some f =>
      have hbody := h.body hr fd hevt ha hf
      have hpre : w.engine.dynLabels <+: (w.body env evt fd a f).engine.dynLabels :=
        hbody.engine.base
      have hlabels : (w.step env (.process evt fd a)).engine.dynLabels =
          (w.body env evt fd a f).engine.dynLabels := by rw [step_process_of_some env fd hf]
      obtain ⟨R, hR, hR'⟩ := h.sound.exists_flows_step env fd hf
      refine ⟨⟨hsound, ?_, ?_⟩, hlabels ▸ hpre⟩
      · have hbased := hbody.engine.rebase (h.engine.base.trans hpre)
        rw [step_process_of_some env fd hf]
        exact hbased.setFlows _
      · rw [hR', hlabels]
        intro g hg
        rcases Multiset.mem_cons.mp hg with rfl | hg
        · exact hbody.flow
        · have hentered : ∀ g ∈ (w.entered evt a).flows, g.Obeys r w.engine.dynLabels.length :=
            forall_entered (fun k t => ⟨.inl rfl, hr.mono (Nat.zero_le _) hr.none⟩) h.flows hf
          rw [hR] at hentered
          exact (hentered g (Multiset.mem_cons_of_mem hg)).mono hr hpre.length_le

/-- **Names and ids of a run.** When the names and ids that come in obey the rules, all names and
ids in the engine do. -/
theorem obeys_run (hr : r.Closed env) (iface : Bytes) (ml dump : Bool) (ops : List EngineOp)
    (hops : ∀ op ∈ ops, op.Obeys r) :
    (run (EngineRun.step env) (start iface ml dump) ops).Obeys r [] :=
  run_induction_along (along_iff_forall_mem.mpr hops) (obeys_start hr iface ml dump)
    fun _ _ hw hop => (hw.step hr hop).1

end EngineRun

end NdpiObserve
