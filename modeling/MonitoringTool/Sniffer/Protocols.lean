import Mathlib.Data.List.Basic

/-!
# Telling requests from responses

`isRequest` and `isResponse` of `http.cpp`, `memcached.cpp` and `mysql.cpp` look
at the first bytes of a payload.  They read through a C pointer: `data` is the
memory from the pointer on, as far as it can be read, and a read behind it is a
fault, the outer `none`.  What the code returns is a pointer into the memory
(`some k`, the offset from `data`) or `NULL`.

The classifiers never look at the direction of the packet.
-/

namespace MonitoringTool.Sniffer

/-! ## The C library on memory -/

def LF : UInt8 := 10
def CR : UInt8 := 13
def SP : UInt8 := 32

/-- The bytes of a string literal, without its terminator. -/
def chars (s : String) : List UInt8 := s.toList.map fun c => UInt8.ofNat c.toNat

/-- `strncmp(data, lit, n) == 0` for a string literal: the comparison ends at a
difference, at the terminator of the literal, or after `n` bytes. -/
def strncmpEq : (data lit : List UInt8) → (n : ℕ) → Option Bool
  | _, _, 0 => some true
  | [], _, _ + 1 => none
  | d :: _, [], _ + 1 => some (d = 0)
  | d :: data, c :: lit, n + 1 => if d = c then strncmpEq data lit n else some false

/-- `memchr(data, c, n)`. -/
def memchr (c : UInt8) : (data : List UInt8) → (n : ℕ) → Option (Option ℕ)
  | _, 0 => some none
  | [], _ + 1 => none
  | d :: data, n + 1 =>
      if d = c then some (some 0) else (memchr c data n).map (Option.map (· + 1))

/-- The length of the token at `data`: the bytes before the first that satisfies
`stop`, of `linelen` bytes. -/
def tokenIndex (stop : UInt8 → Bool) : (data : List UInt8) → (linelen : ℕ) → Option ℕ
  | _, 0 => some 0
  | [], _ + 1 => none
  | d :: data, n + 1 => if stop d then some 0 else (tokenIndex stop data n).map (· + 1)

/-- The first name that `data` agrees with on `index` bytes. -/
def firstName (data : List UInt8) (index : ℕ) : (names : List (List UInt8)) → Option (Option ℕ)
  | [] => some none
  | name :: names => do
      if ← strncmpEq data name index then return some 0
      else return (← firstName data index names).map (· + 1)

/-! ## HTTP -/

namespace Http

/-- `methodsName` of `_http::Request`. -/
def methodsName : List (List UInt8) :=
  ["NONE", "OPTIONS", "GET", "HEAD", "POST", "PUT", "DELETE", "TRACE", "CONNECT", "PATCH",
    "LINK", "UNLINK", "PROPFIND", "MKCOL", "COPY", "MOVE", "LOCK", "UNLOCK", "POLL", "BCOPY",
    "BMOVE", "SEARCH", "BDELETE", "PROPPATCH", "BPROPFIND", "BPROPPATCH", "LABEL", "MERGE",
    "REPORT", "UPDATE", "CHECKIN", "CHECKOUT", "UNCHECKOUT", "MKACTIVITY", "MKWORKSPACE",
    "VERSION_CONTROL", "BASELINE_CONTROL", "NOTIFY", "SUBSCRIBE", "UNSUBSCRIBE", "ICY"].map chars

/-- `_http::Request::parseMethod`. -/
def parseMethod (data : List UInt8) (linelen : ℕ) : Option ℕ := do
  let mandatory ←
    if linelen ≥ 2 then do
      if ← strncmpEq data (chars "M-") 2 then pure true
      else strncmpEq data [CR, LF] 2
    else pure false
  let data := if mandatory then data.drop 2 else data
  let linelen := if mandatory then linelen - 2 else linelen
  let index ← tokenIndex (· = SP) data linelen
  return (← firstName data index methodsName).getD 0

/-- The loop of `find_header_end`, `pos` bytes into the data and `len` bytes into a
line: the end of the first line with fewer than two bytes before its end. -/
def headerEnd : (data : List UInt8) → (n pos len : ℕ) → Option (Option ℕ)
  | _, 0, _, _ => some none
  | [], _ + 1, _, _ => none
  | d :: data, n + 1, pos, len =>
      if d = LF then
        if len < 2 then some (some pos) else headerEnd data n (pos + 1) 0
      else headerEnd data n (pos + 1) (len + 1)

/-- `Protocol::find_header_end` on `n` bytes: the first line is passed over,
whatever its length. -/
def findHeaderEnd (data : List UInt8) (n : ℕ) : Option (Option ℕ) := do
  match ← memchr LF data n with
  | none => return none
  | some lf => headerEnd (data.drop (lf + 1)) (n - (lf + 1)) (lf + 1) 0

/-- `Http::isRequest`. -/
def isRequest (data : List UInt8) (datalen : ℕ) : Option (Option ℕ) := do
  if (← parseMethod data datalen) = 0 then return none
  else findHeaderEnd data datalen

/-- `_http::Response::parseVersion`, as far as `isResponse` looks at it: whether
there is a version. -/
def parseVersion (line : List UInt8) : Option Bool := do
  if ← strncmpEq line (chars "HTTP/1.0") 8 then return true
  else strncmpEq line (chars "HTTP/1.1") 8

/-- `Http::isResponse`. -/
def isResponse (data : List UInt8) (datalen : ℕ) : Option (Option ℕ) := do
  if datalen < 8 then return none
  else if ← parseVersion data then findHeaderEnd data datalen
  else return none

end Http

/-! ## memcached -/

namespace MemCached

/-- `methodsName` of `_memcached::Request`. -/
def methodsName : List (List UInt8) :=
  ["none", "get", "set", "add", "replace", "append", "prepend", "delete", "flush_all", "quit",
    "incr", "decr", "touch", "gat", "gats", "slabs", "lru", "watch", "stats", "version",
    "misbehave"].map chars

/-- `status` of `_memcached::Response`, in the order of its keys. -/
def status : List (List UInt8) :=
  ["VALUE", "OK", "END", "STORED", "NOT_STORED", "EXISTS", "NOT_FOUND", "ERROR",
    "CLIENT_ERROR", "SERVER_ERROR", "DELETED", "TOUCHED", "BUSY", "BADCLASS", "NOTFULL",
    "UNSAFE", "SAME", "STAT", "VERSION", "NONE"].map chars

/-- `_memcached::Request::parseMethod`. -/
def parseMethod (data : List UInt8) (linelen : ℕ) : Option ℕ := do
  let index ← tokenIndex (fun c => c = SP || c = CR) data linelen
  return (← firstName data index methodsName).getD 0

/-- `_memcached::Response::parseStatus`: the key of the status, that of `NONE` if
there is none. -/
def parseStatus (line : List UInt8) (len : ℕ) : Option ℕ := do
  let index ← tokenIndex (· = SP) line len
  return (← firstName line index status).getD (status.length - 1)

/-- `Protocol::find_line_end` as memcached calls it, with the length of the data in
place of the pointer to its end.  The distance from `data` to that pointer is
negative, and `memchr` takes it for a size of nearly 2^64: the search goes on to
the first LF in memory.  For the same reason the LF is never taken to be followed
by a CR. -/
def findLineEnd : (data : List UInt8) → Option ℕ
  | [] => none
  | d :: data => if d = LF then some 0 else (findLineEnd data).map (· + 1)

/-- `MemCached::isRequest`. -/
def isRequest (data : List UInt8) (_datalen : ℕ) : Option (Option ℕ) := do
  let headEnd ← findLineEnd data
  if (← parseMethod data (headEnd + 1)) = 0 then return none
  else return some headEnd

/-- `MemCached::isResponse`. -/
def isResponse (data : List UInt8) (_datalen : ℕ) : Option (Option ℕ) := do
  let headEnd ← findLineEnd data
  if (← parseStatus data (headEnd + 1)) = status.length - 1 then return none
  else return some headEnd

end MemCached

/-! ## MySQL -/

namespace MySQL

/-- `MySQL::isRequest`: the sequence number of the packet is 0. -/
def isRequest (data : List UInt8) (_datalen : ℕ) : Option (Option ℕ) :=
  data[3]?.map fun seq => if seq = 0 then some 3 else none

/-- `MySQL::isResponse`. -/
def isResponse (data : List UInt8) (_datalen : ℕ) : Option (Option ℕ) :=
  data[3]?.map fun seq => if seq ≠ 0 then some 3 else none

end MySQL

/-! ## The protocols -/

/-- The classes derived from `Protocol`. -/
inductive ProtocolKind where
  | http : ProtocolKind
  | memCached : ProtocolKind
  | mySql : ProtocolKind
  deriving DecidableEq

/-- A `Protocol` of the analysis, with its monitored ports. -/
structure Protocol where
  kind : ProtocolKind
  serverPorts : List UInt16
  deriving DecidableEq

namespace Protocol

/-- `new Http(...)`. -/
def http : Protocol := { kind := .http, serverPorts := [80, 8080, 8000] }

/-- `new MemCached(...)`. -/
def memCached : Protocol := { kind := .memCached, serverPorts := [11211] }

/-- `new MySQL(...)`. -/
def mySql : Protocol := { kind := .mySql, serverPorts := [3306] }

/-- The virtual `isRequest`. -/
def isRequest (p : Protocol) : List UInt8 → ℕ → Option (Option ℕ) :=
  match p.kind with
  | .http => Http.isRequest
  | .memCached => MemCached.isRequest
  | .mySql => MySQL.isRequest

/-- The virtual `isResponse`. -/
def isResponse (p : Protocol) : List UInt8 → ℕ → Option (Option ℕ) :=
  match p.kind with
  | .http => Http.isResponse
  | .memCached => MemCached.isResponse
  | .mySql => MySQL.isResponse

/-- `Protocol::isHeaderPacket`. -/
def isHeaderPacket (p : Protocol) (data : List UInt8) (datalen : ℕ) : Option Bool := do
  let reqHeadEnd ← p.isRequest data datalen
  let rspHeadEnd ← p.isResponse data datalen
  return reqHeadEnd.isSome || rspHeadEnd.isSome

/-- `Protocol::isPacketOf`. -/
def isPacketOf (p : Protocol) (sport dport : UInt16) : Bool :=
  p.serverPorts.contains sport || p.serverPorts.contains dport

end Protocol

end MonitoringTool.Sniffer
