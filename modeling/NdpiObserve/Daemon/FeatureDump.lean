import NdpiObserve.Daemon.CallEffects
import NdpiObserve.Daemon.HostnameSources
import NdpiObserve.Daemon.Prometheus
import NdpiObserve.Library.Csv

/-!
# The feature dump

The file that `ndpi_engine_process` appends a line to at each verdict: the label and 15 numbers
with commas between them. The label is the name of an application, which may be a word of a
hostname, and is written without quotes. So the line is read back if and only if the label is
bare, and in a run all lines are when the labels that hostnames add to the pool are.

## Main definitions

* `DumpRow.line`, `dumpFile`: a line, and the file.
* `Call.freshLabel`: the label that a hostname would add to the pool.
* `EngineOp.LabelsBare`: the steps whose hostnames have bare labels.

## Main results

* `DumpRow.read_line_iff`: the lines that are read back.
* `read_dumpFile`: the file is read back.
* `EngineRun.dump_run`: the files of runs.
-/

namespace NdpiObserve

open Machine Csv

/-! ### The file -/

/-- The first line of a new file. -/
def dumpHeader : Bytes :=
  text "label,pkt_len_mean,pkt_len_std,pkt_len_min,pkt_len_max,pkt_len_total," ++
    text "iat_mean_s,iat_std_s,iat_min_s,iat_max_s,duration_s,n_pkts," ++
    text "proto,dport,first_pkt_len,last_pkt_len\n"

/-- The names in the first line. -/
def dumpColumns : List Bytes :=
  ["label", "pkt_len_mean", "pkt_len_std", "pkt_len_min", "pkt_len_max", "pkt_len_total",
    "iat_mean_s", "iat_std_s", "iat_min_s", "iat_max_s", "duration_s", "n_pkts", "proto", "dport",
    "first_pkt_len", "last_pkt_len"].map text

/-- `|x|` in units of `10 ^ -d`, halves rounded to even. -/
def rounded (d : ℕ) (x : ℚ) : ℕ :=
  let n := x.num.natAbs * 10 ^ d
  let q := n / x.den
  let r := n % x.den
  if x.den < 2 * r ∨ (x.den = 2 * r ∧ q % 2 = 1) then q + 1 else q

/-- `printf` of a number with `d` digits behind the point. -/
def fixed (d : ℕ) (x : ℚ) : Bytes :=
  let n := rounded d x
  (if x < 0 then text "-" else []) ++ decimal (n / 10 ^ d) ++
    if d = 0 then []
    else text "." ++ (List.range d).reverse.map fun i => UInt8.ofNat (48 + n / 10 ^ i % 10)

/-- The digits behind the point of the numbers of a line. -/
def dumpDigits : List ℕ := [4, 4, 4, 4, 4, 6, 6, 6, 6, 4, 0, 0, 0, 4, 4]

namespace DumpRow

/-- The numbers of a line. -/
def columns (row : DumpRow) : List Bytes :=
  (dumpDigits.zip row.features.toList).map fun x => fixed x.1 x.2

/-- The line of a row. -/
def line (row : DumpRow) : Bytes :=
  cString row.label ++ row.columns.flatMap (fun c => text "," ++ c) ++ text "\n"

/-- The label and the numbers. -/
def fields (row : DumpRow) : List Bytes := cString row.label :: row.columns

end DumpRow

/-- A new file with the rows. -/
def dumpFile (rows : List DumpRow) : Bytes := dumpHeader ++ rows.flatMap DumpRow.line

/-! ### Reading the file -/

theorem mem_fixed {d : ℕ} {x : ℚ} {b : UInt8} (h : b ∈ fixed d x) :
    b = 45 ∨ b = 46 ∨ ∃ k < 10, b = UInt8.ofNat (48 + k) := by
  dsimp only [fixed] at h
  rcases List.mem_append.mp h with h | h
  · rcases List.mem_append.mp h with h | h
    · split at h
      · exact .inl (List.mem_singleton.mp h)
      · cases h
    · exact .inr (.inr (mem_decimal h))
  · split at h
    · cases h
    · rcases List.mem_append.mp h with h | h
      · exact .inr (.inl (List.mem_singleton.mp h))
      · obtain ⟨i, -, rfl⟩ := List.mem_map.mp h
        exact .inr (.inr ⟨_, Nat.mod_lt _ (by norm_num), rfl⟩)

/-- A number is bare. -/
theorem bare_fixed (d : ℕ) (x : ℚ) : Bare (fixed d x) := by
  have hdigit : ∀ k < 10, UInt8.ofNat (48 + k) ≠ 34 ∧ UInt8.ofNat (48 + k) ≠ 44 ∧
      UInt8.ofNat (48 + k) ≠ 10 ∧ UInt8.ofNat (48 + k) ≠ 13 := by decide
  have hbyte {b : UInt8} (h : b ∈ fixed d x) : b ≠ 34 ∧ b ≠ 44 ∧ b ≠ 10 ∧ b ≠ 13 := by
    rcases mem_fixed h with rfl | rfl | ⟨k, hk, rfl⟩
    · decide
    · decide
    · exact hdigit k hk
  refine ⟨fun hhead => ?_, fun b hb => (hbyte hb).2⟩
  exact (hbyte (List.mem_of_head? hhead)).1 rfl

namespace DumpRow

variable (row : DumpRow)

theorem length_fields : row.fields.length = dumpColumns.length := rfl

theorem bare_columns : ∀ c ∈ row.columns, Bare c := by
  intro c hc
  obtain ⟨x, -, rfl⟩ := List.mem_map.mp hc
  exact bare_fixed x.1 x.2

theorem line_eq : row.line = writeRecord row.fields := by
  have hcomma : text "," = [44] := rfl
  have hnewline : text "\n" = [10] := rfl
  rw [line, fields, writeRecord_eq_flatMap, hcomma, hnewline]

/-- **The lines that are read back.** -/
theorem read_line_iff : read row.line = [row.fields] ↔ Bare (cString row.label) := by
  rw [line_eq]
  exact read_writeRecord_iff row.bare_columns

theorem bare_fields (h : Bare (cString row.label)) : ∀ v ∈ row.fields, Bare v :=
  List.forall_mem_cons.mpr ⟨h, row.bare_columns⟩

end DumpRow

theorem dumpHeader_eq : dumpHeader = writeRecord dumpColumns := eq_of_beq (by decide +kernel)

/-- **Reading the file.** When all labels are bare, the file is read back. -/
theorem read_dumpFile {rows : List DumpRow} (h : ∀ row ∈ rows, Bare (cString row.label)) :
    read (dumpFile rows) = dumpColumns :: rows.map DumpRow.fields := by
  have hfile : dumpFile rows = (dumpColumns :: rows.map DumpRow.fields).flatMap writeRecord := by
    have hline : DumpRow.line = fun row => writeRecord row.fields := funext DumpRow.line_eq
    rw [dumpFile, dumpHeader_eq, List.flatMap_cons, List.flatMap_map, hline]
  have hcolumns : ∀ v ∈ dumpColumns, Bare v := by decide +kernel
  rw [hfile]
  refine read_flatMap_writeRecord (List.forall_mem_cons.mpr ⟨⟨by decide, hcolumns⟩, ?_⟩)
  intro l hl
  obtain ⟨row, hrow, rfl⟩ := List.mem_map.mp hl
  exact ⟨by rw [row.length_fields]; decide, row.bare_fields (h row hrow)⟩

/-! ### Labels -/

/-- The label that the hostname that overrides a verdict would add to an empty pool. -/
def Call.freshLabel (env : Env) (serverName : Bytes) (time : ℤ) (c : Call) : Option Bytes :=
  (c.hostSource serverName time).bind fun x =>
    if x.2 = true ∧ dnsMatchApp x.1 ≠ 0 then none else env.newLabel x.1

variable {env : Env}

/-- A label is in the pool, or it is the one of the hostname and the pool has room. -/
theorem mem_engineGetDynApp {labels : List Bytes} {host l : Bytes}
    (hl : l ∈ (engineGetDynApp env labels host).1) :
    l ∈ labels ∨ labels.length < 64 ∧ env.newLabel host = some l := by
  rcases engineGetDynApp_cases env labels host with hq | hq | ⟨i, -, hq⟩ | ⟨hnew, -, hroom, hq⟩
  · rw [hq] at hl
    exact .inl hl
  · rw [hq] at hl
    exact .inl hl
  · rw [hq] at hl
    exact .inl hl
  · rw [hq] at hl
    rcases List.mem_append.mp hl with hl | hl
    · exact .inl hl
    · rw [List.mem_singleton.mp hl]
      exact .inr ⟨hroom, hnew⟩

namespace Call

variable {c : Call} {l : Bytes}

theorem mem_labels_resolveDns {host : Bytes} (hl : l ∈ (c.resolveDns env host).1.engine.dynLabels) :
    l ∈ c.engine.dynLabels ∨ dnsMatchApp host = 0 ∧ c.engine.dynLabels.length < 64 ∧
      env.newLabel host = some l := by
  dsimp only [resolveDns] at hl
  split at hl
  case isTrue => exact .inl hl
  case isFalse =>
    generalize hq : (if dnsMatchApp host = 0 then engineGetDynApp env c.engine.dynLabels host
      else (c.engine.dynLabels, dnsMatchApp host)) = q at hl
    have hpool : l ∈ q.1 := by split at hl <;> exact hl
    rw [← hq] at hpool
    split at hpool
    case isTrue hknown => exact (mem_engineGetDynApp hpool).imp_right fun h => ⟨hknown, h⟩
    case isFalse => exact .inl hpool

theorem mem_labels_overrideByHost {m : CreditMethod} {serverName : Bytes} {time : ℤ}
    (hl : l ∈ (c.overrideByHost env m serverName time).engine.dynLabels) :
    l ∈ c.engine.dynLabels ∨
      c.engine.dynLabels.length < 64 ∧ c.freshLabel env serverName time = some l := by
  have hlabels : (c.keepHost serverName).engine.dynLabels = c.engine.dynLabels :=
    congrArg Prod.fst (memos_keepHost serverName c)
  rw [overrideByHost, ← keepHost] at hl
  dsimp only at hl
  rw [freshLabel, hostSource, ← hlabels]
  cases hhost : (c.keepHost serverName).overrideHost time with
  | none =>
    rw [hhost] at hl
    exact .inl hl
  | some x =>
    obtain ⟨host, fromDns⟩ := x
    rw [hhost] at hl
    dsimp only at hl
    have hmove := congrArg Prod.fst (moveCredit_memos m
      (if fromDns then (c.keepHost serverName).resolveDns env host
        else (c.keepHost serverName).resolveSni env host).2 fromDns
      (if fromDns then (c.keepHost serverName).resolveDns env host
        else (c.keepHost serverName).resolveSni env host).1)
    dsimp only [memos] at hmove
    rw [hmove] at hl
    cases fromDns with
    | true =>
      refine (mem_labels_resolveDns hl).imp_right fun h => ?_
      rw [Option.bind_some, if_neg fun hknown => hknown.2 h.1]
      exact h.2
    | false => exact mem_engineGetDynApp hl

/-- The label that the hostname would add to the pool is bare. -/
def AddsBare (env : Env) (serverName : Bytes) (time : ℤ) (c : Call) : Prop :=
  c.engine.dynLabels.length < 64 → ∀ l ∈ c.freshLabel env serverName time, Bare l

/-- A call with this exit only adds a bare label. -/
def LabelBare (env : Env) (a : Answers) (x : Exit) (c : Call) : Prop :=
  (x = .classified → c.AddsBare env a.detectionHost a.timeHost) ∧
  (x = .lastResort → c.engine.mlEnabled = true → a.giveup.isKnown = true →
    c.AddsBare env a.giveupHost a.timeHost)

instance (env : Env) (serverName : Bytes) (time : ℤ) (c : Call) :
    Decidable (c.AddsBare env serverName time) :=
  inferInstanceAs (Decidable (_ → _))

instance (env : Env) (a : Answers) (x : Exit) (c : Call) : Decidable (c.LabelBare env a x) :=
  inferInstanceAs (Decidable (_ ∧ _))

/-- The labels of the pool are bare. -/
def PoolBare (c : Call) : Prop := ∀ l ∈ c.engine.dynLabels, Bare l

theorem PoolBare.of_memos_eq {d : Call} (h : c.PoolBare) (heq : d.memos = c.memos) :
    d.PoolBare := by
  have hlabels : d.engine.dynLabels = c.engine.dynLabels := congrArg Prod.fst heq
  rw [PoolBare, hlabels]
  exact h

theorem PoolBare.overrideByHost {d : Call} (h : c.PoolBare) (hmemos : d.memos = c.memos)
    {serverName : Bytes} {time : ℤ}
    (hsource : d.hostSource serverName time = c.hostSource serverName time)
    (hadds : c.AddsBare env serverName time) (m : CreditMethod) :
    (d.overrideByHost env m serverName time).PoolBare := by
  have hlabels : d.engine.dynLabels = c.engine.dynLabels := congrArg Prod.fst hmemos
  intro l hl
  rcases mem_labels_overrideByHost hl with hl | ⟨hroom, hl⟩
  · exact h.of_memos_eq hmemos l hl
  · rw [freshLabel, hsource] at hl
    exact hadds (hlabels ▸ hroom) l hl

/-- **The labels of a call.** -/
theorem PoolBare.process (h : c.PoolBare) {evt : FlowEvent} {a : Answers}
    (hbare : (c.scanned evt a).LabelBare env a (c.flow.exit evt a)) (fd : ℤ) :
    (c.process env evt fd a).PoolBare := by
  obtain ⟨hndpi, hgiveup⟩ := hbare
  have hscanned : (c.scanned evt a).PoolBare := h.of_memos_eq (memos_scanned evt a c)
  have hdetected (hadds : (c.scanned evt a).AddsBare env a.detectionHost a.timeHost) :=
    hscanned.overrideByHost (d := (c.scanned evt a).detected a) rfl (hostSource_detected a _ _ _)
      hadds .ndpi
  have hguessed (hadds : (c.scanned evt a).AddsBare env a.giveupHost a.timeHost) :=
    hscanned.overrideByHost (d := (c.scanned evt a).guessed a) rfl (hostSource_guessed a _ _ _)
      hadds .giveup
  have hmemos := process_memos env evt fd a c
  split at hmemos
  case isTrue hx => exact (hdetected (hndpi hx)).of_memos_eq hmemos
  case isFalse =>
    split at hmemos
    case isTrue hx =>
      obtain ⟨hx, hml, hknown⟩ := hx
      have hadds := hgiveup hx ((mlEnabled_scanned evt a c).trans hml) hknown
      exact (hguessed hadds).of_memos_eq hmemos
    case isFalse => exact h.of_memos_eq hmemos

end Call

/-! ### Runs -/

/-- nDPI's names of protocols are bare. -/
def Env.ProtoNamesBare (env : Env) : Prop :=
  ∀ app, ∀ name ∈ env.getProtoName app, Bare (cString name)

/-- The label of a row is bare when those of the pool are. -/
theorem bare_dumpLabel (henv : env.ProtoNamesBare) {labels : List Bytes}
    (hpool : ∀ l ∈ labels, Bare l) (app : UInt16) :
    Bare (cString (Call.dumpLabel env labels app)) := by
  have hservices : ∀ s ∈ ndpiAiAppNames, Bare (cString (text s.2)) := by decide +kernel
  have hunknown : Bare (cString (text "unknown")) := by decide +kernel
  dsimp only [Call.dumpLabel]
  cases hname : ndpiEngineAppName env labels app with
  | none => exact hunknown
  | some name =>
    rw [Option.getD_some]
    split
    · exact hunknown
    · rw [ndpiEngineAppName] at hname
      split at hname
      case h_1 ai hai =>
        obtain ⟨s, hs, hai⟩ := exists_mem_of_ndpiAiAppName hai
        rw [← Option.some.inj hname, ← hai]
        exact hservices _ hs
      case h_2 =>
        split at hname
        · exact (hpool name (List.mem_of_getElem? hname)).takeWhile _
        · exact henv _ name hname

/-- The rows of the dump. -/
def Engine.rows (e : Engine) : List DumpRow := e.dumpFeatures.getD []

/-- The labels of the pool and of the rows are bare. -/
structure Engine.LabelsBare (e : Engine) : Prop where
  pool : ∀ l ∈ e.dynLabels, Bare l
  rows : ∀ row ∈ e.rows, Bare (cString row.label)

/-- The hostname that a step looks at has a bare label. -/
def EngineOp.LabelBare (env : Env) (w : EngineRun) : EngineOp → Prop
  | .process evt _ a => ∀ f ∈ w.engine.obtain evt a,
      (Call.scanned evt a { engine := w.engine.bodyStart evt a, flow := f }).LabelBare env a
        (f.exit evt a)
  | .age _ => True

instance (env : Env) (w : EngineRun) : (op : EngineOp) → Decidable (op.LabelBare env w)
  | .process _ _ _ => inferInstanceAs (Decidable (∀ _ ∈ _, _))
  | .age _ => isTrue trivial

/-- A row of a call has a bare label when those of the pool are bare after it. -/
theorem Call.bare_newRows (henv : env.ProtoNamesBare) {c : Call} (h : c.PoolBare) :
    ∀ row ∈ Call.newRows env c, Bare (cString row.label) := by
  intro row hrow
  rw [newRows] at hrow
  split at hrow
  · rw [List.mem_singleton.mp hrow]
    exact bare_dumpLabel henv h c.flow.appId
  · cases hrow

namespace EngineRun

/-- The rows that a call adds. -/
theorem rows_body (w : EngineRun) (evt : FlowEvent) (fd : ℤ) (a : Answers) (f : FlowEntry) :
    ∀ row ∈ (w.body env evt fd a f).engine.rows,
      row ∈ w.engine.rows ∨ row ∈ Call.newRows env (w.body env evt fd a f) := by
  have hstart : (w.engine.bodyStart evt a).dumpFeatures = w.engine.dumpFeatures := by
    obtain ⟨cache, hdns⟩ := w.engine.exists_observeDns_eq evt a
    rw [Engine.bodyStart, hdns]
  have hdump := Call.process_dumpFeatures env evt fd a
    { engine := w.engine.bodyStart evt a, flow := f }
  dsimp only at hdump
  rw [hstart, ← body] at hdump
  intro row hrow
  rw [Engine.rows, hdump] at hrow
  split at hrow
  · rw [Engine.rows]
    cases hd : w.engine.dumpFeatures with
    | none =>
      rw [hd] at hrow
      cases hrow
    | some rows =>
      rw [hd] at hrow
      exact List.mem_append.mp hrow
  · exact .inl hrow

/-- **The labels in a step.** -/
theorem labelsBare_step (henv : env.ProtoNamesBare) {w : EngineRun} (h : w.engine.LabelsBare)
    {op : EngineOp} (hop : op.LabelBare env w) : (w.step env op).engine.LabelsBare := by
  cases op with
  | age now =>
    obtain ⟨hlabels, -, hdump⟩ := foldl_expire_keeps env w.engine (w.engine.flows.idle now)
    rw [step_age]
    refine ⟨?_, ?_⟩
    · dsimp only
      rw [hlabels]
      exact h.pool
    · dsimp only [Engine.rows]
      rw [hdump]
      exact h.rows
  | process evt fd a =>
    obtain ⟨cache, hdns⟩ := w.engine.exists_observeDns_eq evt a
    cases hf : w.engine.obtain evt a with
    | none =>
      rw [step_process_of_none env fd hf]
      dsimp only
      rw [hdns]
      exact ⟨h.pool, h.rows⟩
    | some f =>
      have hstart : (w.engine.bodyStart evt a).dynLabels = w.engine.dynLabels := by
        rw [Engine.bodyStart, hdns]
      have hpool : Call.PoolBare { engine := w.engine.bodyStart evt a, flow := f } := by
        rw [Call.PoolBare]
        dsimp only
        rw [hstart]
        exact h.pool
      have hbody : (w.body env evt fd a f).PoolBare := hpool.process (hop f hf) fd
      rw [step_process_of_some env fd hf]
      refine ⟨hbody, fun row hrow => ?_⟩
      rcases rows_body w evt fd a f row hrow with hold | hnew
      · exact h.rows row hold
      · exact Call.bare_newRows henv hbody row hnew

theorem labelsBare_start (iface : Bytes) (ml dump : Bool) :
    (start iface ml dump).engine.LabelsBare := by
  refine ⟨fun l hl => absurd hl List.not_mem_nil, fun row hrow => ?_⟩
  cases dump <;> exact absurd hrow List.not_mem_nil

/-- **The dump of a run.** A line is read back as its label and its 15 numbers if and only if the
label is bare. In a run whose hostnames have bare labels, the file is read back as the columns and
the rows, if nDPI's names are bare. -/
theorem dump_run (env : Env) (iface : Bytes) (ml dump : Bool) (ops : List EngineOp) :
    let rows := (run (step env) (start iface ml dump) ops).engine.rows
    (∀ row ∈ rows, row.fields.length = 16 ∧
      (read row.line = [row.fields] ↔ Bare (cString row.label))) ∧
    (env.ProtoNamesBare →
      Along (step env) (fun w op => op.LabelBare env w) (start iface ml dump) ops →
        (∀ row ∈ rows, read row.line = [row.fields]) ∧
          read (dumpFile rows) = dumpColumns :: rows.map DumpRow.fields) := by
  intro rows
  refine ⟨fun row _ => ⟨rfl, row.read_line_iff⟩, fun henv hops => ?_⟩
  have hbare : (run (step env) (start iface ml dump) ops).engine.LabelsBare :=
    run_induction_along (P := fun w : EngineRun => w.engine.LabelsBare) hops
      (labelsBare_start iface ml dump) fun _ _ hw hop => labelsBare_step henv hw hop
  exact ⟨fun row hrow => row.read_line_iff.mpr (hbare.rows row hrow), read_dumpFile hbare.rows⟩

/-- A flow that nDPI takes for TLS to static.phantombuster.com. -/
theorem dump_run_phantombuster :
    let rows := (run (step default) (start (text "eth0") true true)
      [.process udpEvent (-1)
        { detection := { app := 91 }
          detectionHost := text "static.phantombuster.com" }]).engine.rows
    rows.map DumpRow.label = [text "Phantombuster"] ∧
      read (dumpFile rows) = dumpColumns :: rows.map DumpRow.fields := by
  intro rows
  refine ⟨by decide +kernel, ((dump_run default (text "eth0") true true _).2 ?_ ?_).2⟩
  · intro app name h
    cases h
  · decide +kernel

end EngineRun

/-- The event of a DNS response like `dnsResponse`, with a comma in the hostname. -/
def commaEvent : FlowEvent where
  key :=
    { srcIp := 0x08080808, dstIp := 0x0100000A, srcPort := 0x3500, dstPort := 0x409C
      proto := ipprotoUdp }
  pktData i := (dnsResponse.set 42 44).getD i 0
  pktLen := 68
  dataLen := 68

/-- The row of a flow to a,c.io has one field too many. -/
theorem EngineRun.comma_breaks_row : ¬ ∀ (env : Env) (iface : Bytes) (ml dump : Bool)
    (ops : List EngineOp), ∀ row ∈ (run (step env) (start iface ml dump) ops).engine.rows,
      read row.line = [row.fields] := by
  intro h
  have hreads := h default (text "eth0") true true
    [.process commaEvent (-1) {}, .process visitEvent (-1) { detection := { app := 91 } }]
  generalize hrows : (run (step default) (start (text "eth0") true true)
    [.process commaEvent (-1) {},
      .process visitEvent (-1) { detection := { app := 91 } }]).engine.rows = rows at hreads
  have hlabels : rows.map DumpRow.label = [text "A,c"] := by
    rw [← hrows]
    decide +kernel
  obtain ⟨row, rfl⟩ : ∃ row, rows = [row] := by
    refine List.length_eq_one_iff.mp ?_
    rw [← List.length_map (f := DumpRow.label), hlabels]
    rfl
  have hlabel : row.label = text "A,c" := List.singleton_inj.mp hlabels
  have hbare := row.read_line_iff.mp (hreads row (List.mem_singleton_self row))
  rw [hlabel] at hbare
  exact absurd hbare (by decide +kernel)

end NdpiObserve
