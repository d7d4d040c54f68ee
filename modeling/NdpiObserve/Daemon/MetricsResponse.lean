import NdpiObserve.Library.HttpMessages
import NdpiObserve.Daemon.PageContent
import NdpiObserve.Daemon.ControlSocket

/-!
# The response of the metrics endpoint

What a client of the metrics endpoint receives: `prometheus_handle` reads a request, of which it
uses nothing, and `write_metrics` sends the header of an HTTP response and the page. The header
announces the position in the buffer as the length of the body, so a client gets back the bytes
that were sent, and from these the metrics of the page. The two calls of `write` may send less,
but then the client gets no response at all.

## Main definitions

* `httpHeader`, `prometheusHandle`: the header, and all that is sent on a connection.
* `metricsFields`: the header fields of the response.

## Main results

* `metrics_response_read`: what an HTTP client gets from the response.
-/

namespace NdpiObserve

open HttpMessages Exposition

/-! ### What is sent -/

/-- `sizeof(header)` -/
def headerSize : ℕ := 256

/-- The string in `header`, of which `snprintf` keeps what fits; `pos` is printed as an `int`. -/
def httpHeader (pos : ℤ) : Bytes :=
  (text "HTTP/1.1 200 OK\r\n" ++
    text "Content-Type: text/plain; version=0.0.4\r\n" ++
    (text "Content-Length: " ++ decimalInt pos ++ text "\r\n") ++
    text "\r\n").take (headerSize - 1)

/-- `prometheus_handle` on a connection that is accepted; the request is discarded. `mem` is what
the memory from the start of the buffer on holds, when `malloc` finds any. -/
def prometheusHandle (env : Env) (e : Engine) (i : MetricsIn) (mem : Option (ℕ → UInt8)) : Bytes :=
  match mem with
  | none => []
  | some mem =>
    let r := writeMetrics env e i mem
    httpHeader r.contentLength ++ r.body

/-! ### The header -/

/-- `Content-Type` -/
def contentTypeField : Field where
  name := text "Content-Type"
  value := text "text/plain; version=0.0.4"
  name_ne_nil := by decide
  colon_notMem_name := by decide
  cr_notMem_name := by decide
  cr_notMem_value := by decide
  head?_value_ne := by decide

theorem head?_decimalInt_ne (z : ℤ) : (decimalInt z).head? ≠ some 32 := by
  intro h
  have hmem : 32 ∈ decimalInt z := List.mem_of_head? h
  rw [decimalInt] at hmem
  split at hmem
  · rcases List.mem_cons.mp hmem with h | h
    · exact absurd h (by decide)
    · exact blank_notMem_decimal _ h
  · exact blank_notMem_decimal _ hmem

/-- `Content-Length` -/
def contentLengthField (pos : ℤ) : Field where
  name := text "Content-Length"
  value := decimalInt pos
  name_ne_nil := by decide
  colon_notMem_name := by decide
  cr_notMem_name := by decide
  cr_notMem_value h := (lineEnd_notMem_decimalInt h).2 rfl
  head?_value_ne := head?_decimalInt_ne pos

/-- The header fields of a response with a body of length `pos`. -/
def metricsFields (pos : ℤ) : List Field := [contentTypeField, contentLengthField pos]

/-- The header is the head of a message with these fields. -/
theorem httpHeader_eq {pos : ℤ} (hpos : -2 ^ 31 ≤ pos ∧ pos < 2 ^ 31) :
    httpHeader pos = writeHead (text "HTTP/1.1 200 OK") (metricsFields pos) := by
  have hstart : text "HTTP/1.1 200 OK\r\n" = text "HTTP/1.1 200 OK" ++ crlf := by decide
  have htype : text "Content-Type: text/plain; version=0.0.4\r\n" =
      contentTypeField.write ++ crlf := by decide
  have hlength : text "Content-Length: " ++ decimalInt pos ++ text "\r\n" =
      (contentLengthField pos).write ++ crlf := by
    have hname : text "Content-Length: " = text "Content-Length" ++ [58, 32] := by decide
    rw [hname, List.append_assoc (text "Content-Length")]
    rfl
  have hlen := length_decimalInt_le hpos
  have hshort : (text "HTTP/1.1 200 OK\r\n" ++
      text "Content-Type: text/plain; version=0.0.4\r\n" ++
      (text "Content-Length: " ++ decimalInt pos ++ text "\r\n") ++
      text "\r\n").length ≤ headerSize - 1 := by
    have hfixed : (text "HTTP/1.1 200 OK\r\n").length +
        (text "Content-Type: text/plain; version=0.0.4\r\n").length +
        (text "Content-Length: ").length + 2 * (text "\r\n").length = 78 := by decide
    have hmax : headerSize - 1 = 255 := rfl
    rw [List.length_append, List.length_append, List.length_append, List.length_append,
      List.length_append]
    omega
  have hend : text "\r\n" = crlf := by decide
  rw [httpHeader, List.take_of_length_le hshort, hstart, htype, hlength, hend, writeHead,
    writeLines]
  simp only [metricsFields, List.map_cons, List.map_nil, List.flatMap_cons, List.flatMap_nil,
    List.append_nil, List.append_assoc]

/-- The length that the fields announce. -/
theorem bodyLength_metricsFields (n : ℕ) :
    bodyLength contentLength ((metricsFields n).map fun f => (f.name, f.value)) = some n := by
  have htype : ¬contentTypeField.name.map lower = contentLength := by decide
  have hlength : (text "Content-Length").map lower = contentLength := by decide
  have hfind : ((metricsFields n).map fun f => (f.name, f.value)).find?
      (fun f => f.1.map lower = contentLength) = some (text "Content-Length", decimalInt n) := by
    rw [metricsFields, List.map_cons, List.find?_cons_of_neg (by simpa using htype),
      List.map_cons]
    exact List.find?_cons_of_pos (decide_eq_true hlength)
  have hvalue : decimalInt n = decimal n := by
    rw [decimalInt, if_neg (Int.not_lt.mpr (Int.natCast_nonneg n)), Int.natAbs_natCast]
  have hdigits : (decimal n).all Numerals.isDigit = true :=
    List.all_eq_true.mpr fun b => isDigit_of_mem_decimal
  rw [bodyLength, hfind]
  dsimp only
  rw [hvalue, if_pos ⟨decimal_ne_nil n, hdigits⟩, value_decimal]

/-! ### The response -/

theorem contentLength_writeMetrics (env : Env) (e : Engine) (i : MetricsIn) (mem : ℕ → UInt8) :
    (writeMetrics env e i mem).contentLength = pageSize env e i := by
  rw [← size_metricsPage, size, writeMetrics, FormatBuffer.pos_render]

theorem length_body (env : Env) (e : Engine) (i : MetricsIn) (mem : ℕ → UInt8) :
    (writeMetrics env e i mem).body.length = (writeMetrics env e i mem).contentLength := by
  rw [writeMetrics, FormatBuffer.Sink.contents, List.length_map, List.length_range]

/-- **Reading the response.** In any state of the engine an HTTP client that has received the whole
response gets the body that was sent, and this is a page of metrics with the content that it should
have if and only if the page fits the buffer and every name on it is UTF-8 and has no quote, no
backslash and no newline. From a response that is cut off it gets nothing. -/
theorem metrics_response_read (env : Env) (e : Engine) (i : MetricsIn) (mem : ℕ → UInt8)
    (hsize : pageSize env e i < 2 ^ 31) :
    let sent := prometheusHandle env e i (some mem)
    (∃ m, readMessage sent = some m ∧ m.start = text "HTTP/1.1 200 OK" ∧
      m.body = (writeMetrics env e i mem).body ∧
      (Reads m.body (pageContent env e i) ↔
        pageSize env e i < bodySize ∧ CleanNames env e i)) ∧
    ∀ s, s <+: sent → s ≠ sent → readMessage s = none := by
  intro sent
  have hstart : text "HTTP/1.1 200 OK" ≠ [] ∧ 13 ∉ text "HTTP/1.1 200 OK" := by decide
  have hcontent := reads_body_iff env e i mem
  have hlength := (length_body env e i mem).trans (contentLength_writeMetrics env e i mem)
  have hsent : sent =
      writeHead (text "HTTP/1.1 200 OK") (metricsFields (writeMetrics env e i mem).body.length) ++
        (writeMetrics env e i mem).body := by
    rw [← httpHeader_eq (by omega), length_body]
    rfl
  clear_value sent
  generalize (writeMetrics env e i mem).body = body at *
  have hbody := bodyLength_metricsFields body.length
  subst hsent
  constructor
  · have hread := readMessage_writeHead hstart hbody []
    rw [List.append_nil] at hread
    exact ⟨_, hread, rfl, rfl, hcontent⟩
  · exact fun s => readMessage_of_prefix hstart hbody

/-- A scrape after the sample run: the client reads the page with its content, and nothing when the
last byte is missing. -/
theorem metrics_response_read_sample :
    (∃ m, readMessage (prometheusHandle numberEnv EngineRun.sampleRun.engine {}
        (some fun _ => 0)) = some m ∧
      m.start = text "HTTP/1.1 200 OK" ∧
      m.body = (writeMetrics numberEnv EngineRun.sampleRun.engine {} fun _ => 0).body ∧
      Reads m.body (pageContent numberEnv EngineRun.sampleRun.engine {})) ∧
    readMessage (prometheusHandle numberEnv EngineRun.sampleRun.engine {}
      (some fun _ => 0)).dropLast = none := by
  have hfits := EngineRun.pageSize_sampleRun
  have hclean := EngineRun.cleanNames_sampleRun
  have hlimit : bodySize < 2 ^ 31 := by norm_num [bodySize]
  have hread := metrics_response_read numberEnv EngineRun.sampleRun.engine {} (fun _ => 0)
    (Nat.lt_trans hfits hlimit)
  dsimp only at hread
  generalize prometheusHandle numberEnv EngineRun.sampleRun.engine {} (some fun _ => 0) = sent
    at hread ⊢
  obtain ⟨⟨m, hm, hstart, hbody, hreads⟩, hcut⟩ := hread
  refine ⟨⟨m, hm, hstart, hbody, hreads.mpr ⟨hfits, hclean⟩⟩, hcut _ (List.dropLast_prefix _) ?_⟩
  -- what is read is not empty, so its last byte is missing
  cases sent with
  | nil =>
    have hnone : readMessage [] = none := by decide
    rw [hnone] at hm
    cases hm
  | cons b l =>
    intro heq
    have hlength := congrArg List.length heq
    rw [List.length_dropLast, List.length_cons] at hlength
    omega

end NdpiObserve
