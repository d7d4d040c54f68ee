import NdpiObserve.Library.Floats
import NdpiObserve.Types

/-!
# Service tables and the model

The external functions that the daemon calls (`Env`), the service tables of
`daemon/ndpi_ai_services.h` and the classifier of `daemon/ndpi_ml.c`. The compiled random forest
`score` and the square root are functions of `Env`, like those of the nDPI library; a `float` or
`double` is an exact rational, and the cast of a score to `float` rounds it.

## Main definitions

* `Env`: the nDPI library, the forest and `sqrtf`.
* `aiDomains`, `appDomains`, `mcpDomains`: the services and their domains.
* `ndpiAiAppName`, `matchMcpService`, `matchAiService`, `dnsMatchApp`: the service tables.
* `ndpiMlClassify`: the class of the highest score, when it reaches the threshold.
-/

namespace NdpiObserve

/-! ### External functions -/

/-- Names of the model's classes, in the order of its outputs. -/
def ndpiMlLabelNames : List String :=
  ["Adnxs", "Akamaiedge", "Amazon", "AmazonAWS", "Cloudflare", "Co", "Criteo", "Fastly", "Google",
    "GoogleServices", "Microsoft", "NetFlix", "Pinterest", "Reddit", "Split", "Spotify",
    "Statuspage", "Twitch", "eBay"]

/-- `NDPI_ML_N_CLASSES`. -/
abbrev ndpiMlNClasses : ℕ := 19

/-- The functions and constants of the nDPI library that the daemon uses, the random forest and
the square root. -/
structure Env where
  /-- `ndpi_match_string_subprotocol`: the protocol of a hostname, `0` when it is unknown. -/
  matchStringSubprotocol : Bytes → UInt16
  /-- `ndpi_get_proto_name`. -/
  getProtoName : UInt16 → Option Bytes
  /-- `ndpi_get_proto_category` of the protocol with this application and master. -/
  getProtoCategory : UInt16 → ℕ
  /-- `ndpi_category_get_name`. -/
  categoryGetName : UInt8 → Option Bytes
  /-- `ndpi_get_protocol_id`. -/
  getProtocolId : Bytes → ℤ
  categoryUnspecified : UInt8
  categoryWeb : UInt8
  categoryMusic : UInt8
  categoryVoip : UInt8
  categoryChat : UInt8
  categoryMail : UInt8
  categoryDataTransfer : UInt8
  categoryCollaborative : UInt8
  /-- `score`: the scores of the classes for the features. -/
  score : List ℚ → Fin ndpiMlNClasses → ℚ
  sqrtf : ℚ → ℚ

/-- A library that recognises nothing and a forest whose scores are all zero. -/
instance : Inhabited Env where
  default :=
    { matchStringSubprotocol := fun _ => 0, getProtoName := fun _ => none
      getProtoCategory := fun _ => 0, categoryGetName := fun _ => none, getProtocolId := fun _ => -1
      categoryUnspecified := 0, categoryWeb := 5, categoryMusic := 25, categoryVoip := 10
      categoryChat := 9, categoryMail := 3, categoryDataTransfer := 4
      categoryCollaborative := 15, score := fun _ _ => 0, sqrtf := fun _ => 0 }

/-! ### Service tables -/

/-- `strstr(host, needle) != NULL`. -/
def strstr (needle : Bytes) : Bytes → Bool
  | [] => needle = []
  | b :: rest => needle.isPrefixOf (b :: rest) || strstr needle rest

def ndpiAppClaude : UInt16 := 300
def ndpiAppChatgpt : UInt16 := 301
def ndpiAppGemini : UInt16 := 302
def ndpiAppCopilot : UInt16 := 303
def ndpiAppPerplexity : UInt16 := 304
def ndpiAppGrok : UInt16 := 305
def ndpiAppMistral : UInt16 := 306
def ndpiAppMcp : UInt16 := 307
def ndpiAppGithubMcp : UInt16 := 308
def ndpiAppClaudeMcp : UInt16 := 309
def ndpiAppAsanaMcp : UInt16 := 310
def ndpiAppGitlabMcp : UInt16 := 311
def ndpiAppLinearMcp : UInt16 := 312
def ndpiAppGreptileMcp : UInt16 := 313
def ndpiAppMediumMcp : UInt16 := 314
def ndpiAppCloudflareMcp : UInt16 := 315

/-- The names of the service ids, in their order. -/
def ndpiAiAppNames : List (UInt16 × String) :=
  [(ndpiAppClaude, "Claude"), (ndpiAppChatgpt, "ChatGPT"), (ndpiAppGemini, "Gemini"),
    (ndpiAppCopilot, "Copilot"), (ndpiAppPerplexity, "Perplexity"), (ndpiAppGrok, "Grok"),
    (ndpiAppMistral, "Mistral"), (ndpiAppMcp, "MCP"), (ndpiAppGithubMcp, "Github_MCP"),
    (ndpiAppClaudeMcp, "Claude_MCP"), (ndpiAppAsanaMcp, "Asana_MCP"),
    (ndpiAppGitlabMcp, "Gitlab_MCP"), (ndpiAppLinearMcp, "Linear_MCP"),
    (ndpiAppGreptileMcp, "Greptile_MCP"), (ndpiAppMediumMcp, "Medium_MCP"),
    (ndpiAppCloudflareMcp, "Cloudflare_MCP")]

def ndpiAiAppName (id : UInt16) : Option Bytes := (ndpiAiAppNames.lookup id).map text

theorem exists_mem_of_ndpiAiAppName {id : UInt16} {name : Bytes}
    (h : ndpiAiAppName id = some name) : ∃ s, (id, s) ∈ ndpiAiAppNames ∧ text s = name := by
  obtain ⟨s, hs, rfl⟩ := Option.map_eq_some_iff.mp h
  obtain ⟨l, l', heq, -⟩ := List.lookup_eq_some_iff.mp hs
  exact ⟨s, by rw [heq]; exact List.mem_append_cons_self, rfl⟩

theorem service_lt {app : UInt16} {s : Bytes} (h : ndpiAiAppName app = some s) :
    app.toNat < 400 := by
  have hall : ∀ p ∈ ndpiAiAppNames, p.1.toNat < 400 := by decide
  obtain ⟨t, ht, -⟩ := exists_mem_of_ndpiAiAppName h
  exact hall _ ht

/-- The id of the first domain of the table that occurs in the host. -/
def matchTable (table : List (String × UInt16)) (host : Bytes) : Option UInt16 :=
  (table.find? fun t => strstr (text t.1) host).map Prod.snd

/-- The answer of a table, with a default, is the default or an id of the table. -/
theorem getD_matchTable_mem (table : List (String × UInt16)) (host : Bytes) (d : UInt16) :
    (matchTable table host).getD d ∈ d :: table.map Prod.snd := by
  cases h : matchTable table host with
  | none => exact List.mem_cons_self
  | some id =>
    obtain ⟨t, ht, rfl⟩ := Option.map_eq_some_iff.mp h
    exact List.mem_cons_of_mem d (List.mem_map_of_mem (List.mem_of_find?_eq_some ht))

theorem getD_matchTable_of_all {p : UInt16 → Bool} {table : List (String × UInt16)} {d : UInt16}
    (h : (d :: table.map Prod.snd).all p) (host : Bytes) :
    p ((matchTable table host).getD d) = true :=
  List.all_eq_true.mp h _ (getD_matchTable_mem table host d)

/-- The domains that `match_mcp_service` looks for, in its order. -/
def mcpDomains : List (String × UInt16) :=
  [("github.com", ndpiAppGithubMcp), ("githubcopilot.com", ndpiAppGithubMcp),
    ("anthropic.com", ndpiAppClaudeMcp), ("claude.ai", ndpiAppClaudeMcp),
    ("asana.com", ndpiAppAsanaMcp), ("gitlab.com", ndpiAppGitlabMcp),
    ("linear.app", ndpiAppLinearMcp), ("greptile.com", ndpiAppGreptileMcp),
    ("medium.com", ndpiAppMediumMcp), ("cloudflare.com", ndpiAppCloudflareMcp)]

/-- The domains that `match_ai_service` looks for. -/
def aiDomains : List (String × UInt16) :=
  [("anthropic.com", ndpiAppClaude), ("claude.ai", ndpiAppClaude),
    ("openai.com", ndpiAppChatgpt), ("chatgpt.com", ndpiAppChatgpt),
    ("oai.azure.com", ndpiAppChatgpt), ("gemini.google.com", ndpiAppGemini),
    ("generativelanguage.googleapis.com", ndpiAppGemini),
    ("aistudio.google.com", ndpiAppGemini), ("copilot.microsoft.com", ndpiAppCopilot),
    ("perplexity.ai", ndpiAppPerplexity), ("grok.x.ai", ndpiAppGrok), ("api.x.ai", ndpiAppGrok),
    ("mistral.ai", ndpiAppMistral)]

/-- The domains that `dns_match_app` looks for besides. -/
def appDomains : List (String × UInt16) :=
  [("youtube.com", 124), ("googlevideo.com", 124), ("ytimg.com", 124), ("github.com", 203),
    ("githubusercontent.com", 203), ("githubcopilot.com", 203), ("zoom.us", 189),
    ("zoom.com", 189), ("clients6.google.com", 201), ("gstatic.com", 126),
    ("googleusercontent.com", 126), ("gvt2.com", 126), ("googleapis.com", 126),
    ("google.com", 126)]

/-- The service of a flow that the model takes for MCP. -/
def matchMcpService (sni : Option Bytes) : UInt16 :=
  match sni with
  | none => ndpiAppMcp
  | some [] => ndpiAppMcp
  | some host => (matchTable mcpDomains host).getD ndpiAppMcp

def matchAiService (sni : Bytes) : UInt16 := (matchTable aiDomains sni).getD 0

/-- The id of a known hostname: AI services first, then well-known applications. -/
def dnsMatchApp (host : Bytes) : UInt16 :=
  let ai := matchAiService host
  if ai ≠ 0 then ai
  else (matchTable appDomains host).getD 0

/-! ### The model -/

/-- `ndpi_ml_features_t`. -/
structure NdpiMlFeatures where
  pktLenMean : ℚ
  pktLenStd : ℚ
  pktLenMin : ℚ
  pktLenMax : ℚ
  pktLenTotal : ℚ
  iatMeanS : ℚ
  iatStdS : ℚ
  iatMinS : ℚ
  iatMaxS : ℚ
  durationS : ℚ
  nPkts : ℚ
  proto : ℚ
  dport : ℚ
  firstPktLen : ℚ
  lastPktLen : ℚ

/-- The input vector of the model. -/
def NdpiMlFeatures.toList (feat : NdpiMlFeatures) : List ℚ :=
  [feat.pktLenMean, feat.pktLenStd, feat.pktLenMin, feat.pktLenMax, feat.pktLenTotal,
    feat.iatMeanS, feat.iatStdS, feat.iatMinS, feat.iatMaxS, feat.durationS, feat.nPkts,
    feat.proto, feat.dport, feat.firstPktLen, feat.lastPktLen]

/-- The value of `0.55f`. -/
def ndpiMlConfidenceThreshold : ℚ := 9227469 / 16777216

example : Floats.binary32.round (55 / 100) = ndpiMlConfidenceThreshold := by decide +kernel

/-- The table that `ndpi_ml_init` fills: the id of the class name, narrowed to 16 bits. -/
def ndpiMlLabelToProto (env : Env) (i : Fin ndpiMlNClasses) : UInt16 :=
  UInt16.ofNat (env.getProtocolId (text (ndpiMlLabelNames.getD i "")) % 2 ^ 16).toNat

/-- The loop over the classes: the first one with the highest score. -/
def ndpiMlBest (scores : Fin ndpiMlNClasses → ℚ) : Fin ndpiMlNClasses :=
  (List.finRange ndpiMlNClasses).tail.foldl
    (fun best i => if scores i > scores best then i else best) 0

/-- The application of the confident class, or `0`. -/
def ndpiMlClassify (env : Env) (feat : NdpiMlFeatures) : UInt16 :=
  let scores := env.score feat.toList
  let best := ndpiMlBest scores
  if Floats.binary32.round (scores best) < ndpiMlConfidenceThreshold then 0
  else ndpiMlLabelToProto env best

end NdpiObserve
