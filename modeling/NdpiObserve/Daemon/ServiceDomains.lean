import NdpiObserve.Daemon.Services
import NdpiObserve.Library.DomainNames

/-!
# Domains of the services

The tables of `daemon/ndpi_ai_services.h` list domains with the ids of the services behind them.
`dns_match_app` and `match_mcp_service` look for the first domain that occurs anywhere in a
hostname, so they take names for a service that only look like its domain, and names below the
domain of one service for another one.

## Main definitions

* `domains`: a table of the services as bytes.

## Main results

* `dnsMatchApp_eq`, `matchMcpService_eq`: both functions as searches by occurrence.
* `service_domains_iff`: the hostnames on which they answer with the most specific domain.
-/

namespace NdpiObserve

open DomainTable

/-! ### Tables of domains -/

/-- The entries of a table as bytes. -/
def domains (table : List (String × UInt16)) : List (Bytes × UInt16) :=
  table.map fun t => (text t.1, t.2)

/-! ### The search of the code -/

theorem strstr_iff_isInfix (needle host : Bytes) :
    strstr needle host = true ↔ needle <:+: host := by
  induction host with
  | nil => simp [strstr]
  | cons b rest ih =>
    rw [strstr, Bool.or_eq_true, List.isPrefixOf_iff_prefix, ih, List.infix_cons_iff]

theorem matchTable_eq (table : List (String × UInt16)) (host : Bytes) :
    matchTable table host = firstOccurring (domains table) host := by
  have hoccurs : (fun t : String × UInt16 => strstr (text t.1) host) =
      (fun t : Bytes × UInt16 => decide (t.1 <:+: host)) ∘ fun t => (text t.1, t.2) := by
    funext t
    rw [Bool.eq_iff_iff, strstr_iff_isInfix]
    simp
  rw [matchTable, firstOccurring, domains, List.find?_map, Option.map_map, hoccurs]
  rfl

theorem matchTable_append (table table' : List (String × UInt16)) (host : Bytes) :
    matchTable (table ++ table') host = (matchTable table host).or (matchTable table' host) := by
  rw [matchTable, List.find?_append, matchTable, matchTable]
  cases table.find? _ <;> rfl

theorem matchAiService_eq (host : Bytes) :
    matchAiService host = (matchTable aiDomains host).getD 0 :=
  rfl

/-- The service of a hostname is that of the first domain in it. -/
theorem dnsMatchApp_eq (host : Bytes) :
    dnsMatchApp host = (firstOccurring (domains (aiDomains ++ appDomains)) host).getD 0 := by
  have hall : ∀ t ∈ aiDomains, t.2 ≠ 0 := by decide
  have happ : dnsMatchApp host = if matchAiService host ≠ 0 then matchAiService host
      else (matchTable appDomains host).getD 0 := rfl
  rw [happ, ← matchTable_eq, matchTable_append, matchAiService_eq]
  cases hai : matchTable aiDomains host with
  | none => rfl
  | some id =>
    obtain ⟨t, ht, rfl⟩ := Option.map_eq_some_iff.mp hai
    exact if_pos (hall t (List.mem_of_find?_eq_some ht))

/-- The MCP service of a hostname is that of the first domain in it. -/
theorem matchMcpService_eq (host : Bytes) :
    matchMcpService (some host) = (firstOccurring (domains mcpDomains) host).getD ndpiAppMcp := by
  rw [← matchTable_eq]
  cases host with
  | nil => decide +kernel
  | cons b host => rfl

/-! ### The hostnames that are matched by their domain -/

/-- **The services of hostnames.** `dns_match_app` answers exactly for the hostnames at or below a
listed domain, with the id of the most specific one, if and only if the hostname is unambiguous;
and so does `match_mcp_service`. -/
theorem service_domains_iff (host : Bytes) :
    ((∀ id, id ≠ 0 → (dnsMatchApp host = id ↔
        ∃ t, MostSpecific 46 (domains (aiDomains ++ appDomains)) host t ∧ t.2 = id)) ↔
      Unambiguous 46 (domains (aiDomains ++ appDomains)) host) ∧
    ((∀ id, id ≠ ndpiAppMcp → (matchMcpService (some host) = id ↔
        ∃ t, MostSpecific 46 (domains mcpDomains) host t ∧ t.2 = id)) ↔
      Unambiguous 46 (domains mcpDomains) host) := by
  rw [dnsMatchApp_eq, matchMcpService_eq]
  constructor
  · exact getD_respects_iff_unambiguous 46 (by decide +kernel) (by decide +kernel)
      (by decide +kernel) host
  · exact getD_respects_iff_unambiguous 46 (by decide +kernel) (by decide +kernel)
      (by decide +kernel) host

/-- The hostname evilgithub.com is taken for GitHub. -/
theorem lookalike_matches : ¬ ∀ host id, id ≠ 0 → (dnsMatchApp host = id ↔
    ∃ t, MostSpecific 46 (domains (aiDomains ++ appDomains)) host t ∧ t.2 = id) := by
  intro h
  have hmatch : dnsMatchApp (text "evilgithub.com") = 203 := by decide +kernel
  obtain ⟨t, ht, -⟩ := (h (text "evilgithub.com") 203 (by decide)).mp hmatch
  have hnone : ∀ t ∈ domains (aiDomains ++ appDomains),
      ¬Below 46 (text "evilgithub.com") t.1 := by decide +kernel
  exact hnone t ht.mem ht.below

end NdpiObserve
