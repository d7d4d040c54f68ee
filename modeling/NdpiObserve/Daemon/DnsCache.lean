import NdpiObserve.Types

/-!
# The DNS cache

The address-to-hostname cache of `daemon/ndpi_dns_cache.h` and its parser of DNS responses. The
parser reads the packet through a reader that may fail, so that the same code runs on the whole
memory behind the packet (`memoryReader`, what the daemon does) and on captured bytes only
(`captureReader`, which fails outside the capture). Offsets are 32-bit and wrap, so the loops
that advance by packet-controlled amounts run on fuel; running out of it is a failure too.

## Main definitions

* `DnsCache`, `dnsCacheInsert`, `dnsCacheLookupEntry`: the direct-mapped cache.
* `dnsParse`: the insertions that the parser makes, in order.
* `dnsCacheUpdate`: the parser run on the memory of an event.
-/

namespace NdpiObserve

/-! ### The cache -/

/-- `DNS_CACHE_SIZE`. -/
abbrev dnsCacheSize : ℕ := 512

/-- `dns_cache_entry_t`; `cachedAppId` is `0` while the hostname is not resolved. -/
structure DnsCacheEntry where
  ip : UInt32 := 0
  expires : UInt32 := 0
  cachedAppId : UInt16 := 0
  hostname : Bytes := []
deriving DecidableEq

abbrev DnsCache := Fin dnsCacheSize → DnsCacheEntry

def dnsHash (ip : UInt32) : Fin dnsCacheSize :=
  let ip := ip ^^^ (ip >>> 16)
  let ip := ip * 0x45d9f3b
  let ip := ip ^^^ (ip >>> 16)
  ⟨ip.toNat % dnsCacheSize, Nat.mod_lt _ (by decide)⟩

/-- `(uint32_t)time(NULL)`. -/
def timeStamp (now : ℤ) : UInt32 := UInt32.ofNat (now % 2 ^ 32).toNat

def dnsCacheInsert (c : DnsCache) (ip : UInt32) (name : Bytes) (ttl : UInt32) (now : ℤ) :
    DnsCache :=
  Function.update c (dnsHash ip)
    { ip := ip
      expires := timeStamp now + (if ttl > 300 then 300 else ttl)
      cachedAppId := 0
      hostname := strncpy name 79 }

/-- The live entry of `ip`, or nothing if it is absent or expired. -/
def dnsCacheLookupEntry (c : DnsCache) (ip : UInt32) (now : ℤ) : Option DnsCacheEntry :=
  let e := c (dnsHash ip)
  if e.ip = ip ∧ e.hostname ≠ [] ∧ timeStamp now < e.expires then some e else none

def dnsCacheLookup (c : DnsCache) (ip : UInt32) (now : ℤ) : Option Bytes :=
  (dnsCacheLookupEntry c ip now).map DnsCacheEntry.hostname

/-! ### Reading a packet -/

/-- Why a run of the parser has no result. -/
inductive ReadFault where
  | outOfBounds (i : ℕ)
  | outOfFuel
deriving DecidableEq

/-- Access to the byte at an index of a packet. -/
abbrev Reader := ℕ → Except ReadFault UInt8

/-- All memory from the packet on. -/
def memoryReader (mem : ℕ → UInt8) : Reader := fun i => .ok (mem i)

/-- The first `n` bytes of a packet. -/
def captureReader (n : ℕ) (mem : ℕ → UInt8) : Reader :=
  fun i => if i < n then .ok (mem i) else .error (.outOfBounds i)

/-! ### The parser -/

/-- One call of `dns_cache_insert` by the parser. -/
structure DnsAnswer where
  ip : UInt32
  name : Bytes
  ttl : UInt32
deriving DecidableEq

/-- A compression pointer, by the two top bits of a label length. -/
def isPointer (llen : UInt8) : Bool := llen &&& 0xC0 = 0xC0

section Parser

-- `dns[off]` is byte `base + off` of the packet, and `dnsLen` is `dns_len`.
variable (rd : Reader) (base : ℕ) (dnsLen : UInt32)

/-- `dns[off]`. -/
def dnsAt (off : UInt32) : Except ReadFault UInt8 := rd (base + off.toNat)

/-- The loop that copies a label with `n` bytes left into `qname`. -/
def copyLabel : ℕ → UInt32 → Bytes → Except ReadFault (UInt32 × Bytes)
  | 0, off, qname => .ok (off, qname)
  | n + 1, off, qname =>
    if off < dnsLen ∧ qname.length < 79 then do
      let b ← dnsAt rd base off
      copyLabel n (off + 1) (qname ++ [b])
    else .ok (off, qname)

/-- The loop over the labels of the first question name. -/
def questionName : ℕ → UInt32 → Bytes → Except ReadFault (UInt32 × Bytes)
  | 0, _, _ => .error .outOfFuel
  | fuel + 1, off, qname =>
    if off < dnsLen then do
      let llen ← dnsAt rd base off
      let off := off + 1
      if llen = 0 then .ok (off, qname)
      else if isPointer llen then .ok (off + 1, qname)
      else do
        let qname := if 0 < qname.length ∧ qname.length < 79 then qname ++ text "." else qname
        let r ← copyLabel rd base dnsLen llen.toNat off qname
        questionName fuel r.1 r.2
    else .ok (off, qname)

/-- The loop that skips a name. -/
def skipName : ℕ → UInt32 → Except ReadFault UInt32
  | 0, _ => .error .outOfFuel
  | fuel + 1, off =>
    if off < dnsLen then do
      let llen ← dnsAt rd base off
      if llen = 0 then .ok (off + 1)
      else if isPointer llen then .ok (off + 2)
      else skipName fuel (off + (1 + llen.toUInt32))
    else .ok off

/-- The loop over the further questions, `n` of them left. -/
def skipQuestions (fuel : ℕ) : ℕ → UInt32 → Except ReadFault UInt32
  | 0, off => .ok off
  | n + 1, off =>
    if off < dnsLen then do
      let off ← skipName rd base dnsLen fuel off
      skipQuestions fuel n (off + 4)
    else .ok off

/-- The owner name of an answer: usually a pointer back to the question. -/
def skipOwner (fuel : ℕ) (off : UInt32) : Except ReadFault UInt32 :=
  if off < dnsLen then do
    let b ← dnsAt rd base off
    if isPointer b then .ok (off + 2) else skipName rd base dnsLen fuel off
  else skipName rd base dnsLen fuel off

/-- The 16-bit field at `off`. -/
def field16 (off : UInt32) : Except ReadFault UInt16 := do
  let a ← dnsAt rd base off
  let b ← dnsAt rd base (off + 1)
  .ok (be16 a b)

/-- The 32-bit field at `off`. -/
def field32 (off : UInt32) : Except ReadFault UInt32 := do
  let a ← dnsAt rd base off
  let b ← dnsAt rd base (off + 1)
  let c ← dnsAt rd base (off + 2)
  let d ← dnsAt rd base (off + 3)
  .ok (load32 d c b a)

/-- `memcpy(&ip, dns + off, 4)`. -/
def copyAddress (off : UInt32) : Except ReadFault UInt32 := do
  let a ← rd (base + off.toNat)
  let b ← rd (base + off.toNat + 1)
  let c ← rd (base + off.toNat + 2)
  let d ← rd (base + off.toNat + 3)
  .ok (load32 a b c d)

/-- The loop over the answer records, `n` of them left. -/
def answerRecords (fuel : ℕ) (qname : Bytes) : ℕ → UInt32 → Except ReadFault (List DnsAnswer)
  | 0, _ => .ok []
  | n + 1, off =>
    if off + 10 ≤ dnsLen then do
      let off ← skipOwner rd base dnsLen fuel off
      if off + 10 > dnsLen then .ok []
      else do
        let rtype ← field16 rd base off
        let ttl ← field32 rd base (off + 4)
        let rdlength ← field16 rd base (off + 8)
        let off := off + 10
        if off + rdlength.toUInt32 > dnsLen then .ok []
        else if rtype = 1 ∧ rdlength = 4 then do
          let ip ← copyAddress rd base off
          let rest ← answerRecords fuel qname n (off + rdlength.toUInt32)
          .ok ({ ip := ip, name := qname, ttl := ttl } :: rest)
        else answerRecords fuel qname n (off + rdlength.toUInt32)
    else .ok []

/-- The parser after the DNS header. -/
def dnsParseMessage (fuel : ℕ) : Except ReadFault (List DnsAnswer) := do
  let flags ← field16 rd base 2
  let qdcount ← field16 rd base 4
  let ancount ← field16 rd base 6
  if flags &&& 0x8000 = 0 ∨ ancount = 0 ∨ qdcount = 0 then .ok []
  else do
    let r ← questionName rd base dnsLen fuel 12 []
    let qname := cString r.2
    if qname = [] then .ok []
    else do
      let off ← skipQuestions rd base dnsLen fuel (qdcount.toNat - 1) r.1
      answerRecords rd base dnsLen fuel qname ancount.toNat (off + 4)

end Parser

/-- The insertions that `dns_cache_update` makes for a packet of `pktLen` bytes, in order. -/
def dnsParse (rd : Reader) (pktLen : UInt32) : Except ReadFault (List DnsAnswer) :=
  if pktLen < 40 then .ok []
  else do
    let b ← rd 0
    let ihl : UInt8 := (b &&& 0xf) * 4
    if ihl < 20 ∨ pktLen < ihl.toUInt32 + 8 + 12 then .ok []
    else dnsParseMessage rd (ihl.toNat + 8) (pktLen - ihl.toUInt32 - 8) (pktLen.toNat + 1)

/-- The insertions made one after another; the `j`-th reads the clock `clock j`. -/
def dnsInsertAll (clock : ℕ → ℤ) : ℕ → List DnsAnswer → DnsCache → DnsCache
  | _, [], c => c
  | j, a :: rest, c =>
    dnsInsertAll clock (j + 1) rest (dnsCacheInsert c a.ip a.name a.ttl (clock j))

/-- `dns_cache_update` on a packet at the start of `mem`. A run of the parser that does not end
leaves no cache; the cache before it stands for that. -/
def dnsCacheUpdate (c : DnsCache) (mem : ℕ → UInt8) (pktLen : UInt32) (clock : ℕ → ℤ) :
    DnsCache :=
  match dnsParse (memoryReader mem) pktLen with
  | .ok l => dnsInsertAll clock 0 l c
  | .error _ => c

end NdpiObserve
