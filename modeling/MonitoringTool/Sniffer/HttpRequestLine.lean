import MonitoringTool.Sniffer.HeaderParam

/-!
# HTTP request lines

The constructor of HTTP's `Request` goes over the first line four times: `find_header_end`
and `find_line_end` look for its end, `parseMethod` for the first blank, and `parseUri` and
`parseVersion` go through it token by token.

`http_request_line_round_trip` says that they agree: what is written as a request line, with
a header behind it, is read as the method, the URI and the version it was written from.
-/

namespace MonitoringTool.Sniffer

/-! ## Tokens -/

/-- What `get_token_len` answers: the length of the token, and where the next one begins. -/
structure Token where
  len : ℕ
  next : ℕ
  deriving DecidableEq

namespace Protocol

/-- A blank, a CR or an LF. -/
def endsToken (d : UInt8) : Bool := d = SP || d = CR || d = LF

/-- `Protocol::get_token_len`, with `room` for `lineend - linep`. -/
def getTokenLen (linep : List UInt8) (room : ℕ) : Option Token := do
  let len ← tokenIndex endsToken linep room
  let blanks ← tokenIndex (· ≠ SP) (linep.drop len) (room - len)
  return { len := len, next := len + blanks }

/-- The next token, unless it is empty or no blank stands behind it. -/
def blankedToken (linep : List UInt8) (room : ℕ) : Option (Option Token) := do
  let token ← getTokenLen linep room
  if token.len = 0 then return none
  else if (← linep[token.len]?) = SP then return some token
  else return none

end Protocol

namespace Http

/-! ## The constructor -/

/-- `Version`. -/
inductive Version where
  | ver_1_0 : Version
  | ver_1_1 : Version
  | ver_none : Version
  deriving DecidableEq, Inhabited

/-- `parseUri`: the bytes copied, without the terminator behind them, or `NULL`. -/
def parseUri (line : List UInt8) (len : ℕ) : Option (Option (List UInt8)) := do
  match ← Protocol.blankedToken line len with
  | none => return none
  | some method =>
      let line := line.drop method.next
      match ← Protocol.blankedToken line (len - method.next) with
      | none => return none
      | some uri => return some (← memcpy line uri.len)

/-- The version that the bytes begin with. -/
def versionAt (line : List UInt8) : Option Version := do
  if ← strncmpEq line (chars "HTTP/1.0") 8 then return .ver_1_0
  else if ← strncmpEq line (chars "HTTP/1.1") 8 then return .ver_1_1
  else return .ver_none

/-- `_http::Request::parseVersion`. -/
def parseRequestVersion (line : List UInt8) (len : ℕ) : Option Version := do
  match ← Protocol.blankedToken line len with
  | none => return .ver_none
  | some method =>
      let line := line.drop method.next
      match ← Protocol.blankedToken line (len - method.next) with
      | none => return .ver_none
      | some uri =>
          if len - method.next - uri.next = 0 then return .ver_none
          else versionAt (line.drop uri.next)

/-- `_http::Request`, without the table of names. -/
structure Request where
  seq : UInt32
  nxtSeq : UInt32
  hdlen : ℕ
  methodCode : ℕ
  uri : Option (List UInt8)
  version : Version
  host : Option (List UInt8)
  referer : Option (List UInt8)
  userAgent : Option (List UInt8)
  connection : Option (List UInt8)
  accept : Option (List UInt8)
  acceptEncoding : Option (List UInt8)
  acceptLanguage : Option (List UInt8)
  acceptCharset : Option (List UInt8)
  cookie : Option (List UInt8)
  contentType : Option (List UInt8)
  contentEncoding : Option (List UInt8)
  contentLength : Option (List UInt8)
  deriving DecidableEq, Inhabited

/-- What `newRequest` stores. -/
def Request.head (req : Request) : RequestHead :=
  { hdlen := req.hdlen, methodCode := req.methodCode }

/-- The parameters that the constructor reads, those of the body for a `POST`. -/
def Request.readParams (req : Request) (header : List UInt8) : Option Request := do
  let headerParam := fun param => Protocol.headerParam header (chars param)
  let req :=
    { req with
      host := ← headerParam "Host:"
      referer := ← headerParam "Referer:"
      userAgent := ← headerParam "User-Agent:"
      connection := ← headerParam "Connection:"
      accept := ← headerParam "Accept:"
      acceptEncoding := ← headerParam "Accept-Encoding:"
      acceptLanguage := ← headerParam "Accept-Language:"
      acceptCharset := ← headerParam "Accept-Charset:"
      cookie := ← headerParam "Cookie:" }
  if methodsName[req.methodCode]? = some (chars "POST") then
    return { req with
      contentType := ← headerParam "Content-Type:"
      contentEncoding := ← headerParam "Content-Encoding:"
      contentLength := ← headerParam "Content-Length:" }
  else return req

/-- `_http::Request::Request`; `mem` is what the memory of the object holds before. -/
def Request.new (mem : Request) (data : List UInt8) (dataend : ℕ) (seq nxtSeq : UInt32) :
    Option Request := do
  match ← findHeaderEnd data (dataend + 1) with
  | none => none
  | some eoh =>
      let hdl := eoh + 1
      let lineep ← Protocol.findLineEnd data eoh
      let lnl := lineep + 1
      let methodCode ← parseMethod data lnl
      let req :=
        { mem with seq := seq, nxtSeq := nxtSeq, hdlen := hdl, methodCode := methodCode }
      if methodsName[methodCode]? = some (chars "NONE") then return req
      else
        let uri ← parseUri data lnl
        let version ← parseRequestVersion data lnl
        { req with uri := uri, version := version }.readParams (data.take hdl)

end Http

/-! ## Tokens of a line -/

/-- A text that `get_token_len` takes for one token. -/
def IsToken (text : List UInt8) : Prop :=
  text ≠ [] ∧ ∀ d ∈ text, Protocol.endsToken d = false

instance (text : List UInt8) : Decidable (IsToken text) :=
  @instDecidableAnd _ _ inferInstance (List.decidableBAll _ text)

theorem Protocol.endsToken_eq_false {d : UInt8} :
    endsToken d = false ↔ d ≠ SP ∧ d ≠ CR ∧ d ≠ LF := by
  simp [endsToken, and_assoc]

theorem IsToken.not_lf {text : List UInt8} (h : IsToken text) : LF ∉ text := fun hLF =>
  absurd (h.2 LF hLF) (by decide)

theorem IsToken.no_blank {text : List UInt8} (h : IsToken text) :
    ∀ d ∈ text, decide (d = SP) = false := fun d hd =>
  decide_eq_false (Protocol.endsToken_eq_false.mp (h.2 d hd)).1

/-- A token does not begin with a blank. -/
theorem IsToken.head {text : List UInt8} (h : IsToken text) :
    ∃ c rest, text = c :: rest ∧ c ≠ SP := by
  obtain ⟨hne, hgo⟩ := h
  cases text with
  | nil => exact absurd rfl hne
  | cons c rest =>
      have hc := Protocol.endsToken_eq_false.mp (hgo c (by simp))
      exact ⟨c, rest, rfl, hc.1⟩

theorem tokenIndex_stop {stop : UInt8 → Bool} {text : List UInt8} {d : UInt8}
    (hgo : ∀ c ∈ text, stop c = false) (hd : stop d = true) (rest : List UInt8) {n : ℕ}
    (hn : text.length < n) : tokenIndex stop (text ++ d :: rest) n = some text.length := by
  induction text generalizing n with
  | nil =>
      obtain ⟨n, rfl⟩ : ∃ k, n = k + 1 := ⟨n - 1, by simp at hn; omega⟩
      simp [tokenIndex, hd]
  | cons c text ih =>
      obtain ⟨n, rfl⟩ : ∃ k, n = k + 1 := ⟨n - 1, by simp at hn; omega⟩
      have hc : stop c = false := hgo c (by simp)
      have hrest : tokenIndex stop (text ++ d :: rest) n = some text.length :=
        ih (fun x hx => hgo x (by simp [hx])) (by simpa using hn)
      simp [tokenIndex, hc, hrest]

theorem tokenOf_stop {stop : UInt8 → Bool} {text : List UInt8} {d : UInt8}
    (hgo : ∀ c ∈ text, stop c = false) (hd : stop d = true) (rest : List UInt8) :
    tokenOf stop (text ++ d :: rest) = text := by
  unfold tokenOf
  rw [List.takeWhile_append_of_pos fun c hc => by simp [hgo c hc], List.takeWhile_cons, hd]
  simp

namespace Protocol

/-- A token with one blank behind it. -/
theorem getTokenLen_token {text : List UInt8} (h : IsToken text) {c : UInt8} (hc : c ≠ SP)
    (rest : List UInt8) {room : ℕ} (hroom : text.length + 1 < room) :
    getTokenLen (text ++ SP :: c :: rest) room = some ⟨text.length, text.length + 1⟩ := by
  have hlen : tokenIndex endsToken (text ++ SP :: c :: rest) room = some text.length :=
    tokenIndex_stop h.2 (by decide) _ (by omega)
  have hblanks : tokenIndex (· ≠ SP) ([SP] ++ c :: rest) (room - text.length) = some 1 :=
    tokenIndex_stop (by simp) (by simpa using hc) rest (by simp; omega)
  unfold getTokenLen
  rw [hlen]
  simp only [Option.bind_eq_bind, Option.bind_some, List.drop_left]
  rw [show SP :: c :: rest = [SP] ++ c :: rest from rfl, hblanks]
  rfl

theorem blankedToken_token {text : List UInt8} (h : IsToken text) {c : UInt8} (hc : c ≠ SP)
    (rest : List UInt8) {room : ℕ} (hroom : text.length + 1 < room) :
    blankedToken (text ++ SP :: c :: rest) room =
      some (some ⟨text.length, text.length + 1⟩) := by
  have hpos : text.length ≠ 0 := fun hzero => h.1 (List.length_eq_zero_iff.mp hzero)
  unfold blankedToken
  rw [getTokenLen_token h hc rest hroom]
  simp [hpos]

end Protocol

namespace Http

section Line

variable {m u : List UInt8} (hm : IsToken m) (hu : IsToken u) {c : UInt8} (hc : c ≠ SP)
  (rest : List UInt8) {len : ℕ} (hlen : m.length + u.length + 2 < len)

include hm hu hc hlen

/-- The two tokens before the version. -/
theorem blankedTokens : Protocol.blankedToken (m ++ SP :: (u ++ SP :: c :: rest)) len =
      some (some ⟨m.length, m.length + 1⟩) ∧
    (m ++ SP :: (u ++ SP :: c :: rest)).drop (m.length + 1) = u ++ SP :: c :: rest ∧
    Protocol.blankedToken (u ++ SP :: c :: rest) (len - (m.length + 1)) =
      some (some ⟨u.length, u.length + 1⟩) := by
  obtain ⟨a, u', rfl, ha⟩ := hu.head
  refine ⟨Protocol.blankedToken_token hm ha (u' ++ SP :: c :: rest) (by omega), ?_, ?_⟩
  · rw [List.drop_append]
    simp
  · exact Protocol.blankedToken_token hu hc rest (by omega)

theorem parseUri_line : parseUri (m ++ SP :: (u ++ SP :: c :: rest)) len = some (some u) := by
  obtain ⟨hmethod, hdrop, huri⟩ := blankedTokens hm hu hc rest hlen
  have hcopy : memcpy (u ++ SP :: c :: rest) u.length = some u := by simp [memcpy]
  unfold parseUri
  simp only [hmethod, hdrop, huri, hcopy, Option.bind_eq_bind, Option.bind_some]
  rfl

theorem parseRequestVersion_line :
    parseRequestVersion (m ++ SP :: (u ++ SP :: c :: rest)) len = versionAt (c :: rest) := by
  obtain ⟨hmethod, hdrop, huri⟩ := blankedTokens hm hu hc rest hlen
  have hdrop' : (u ++ SP :: c :: rest).drop (u.length + 1) = c :: rest := by
    rw [List.drop_append]
    simp
  have hleft : len - (m.length + 1) - (u.length + 1) ≠ 0 := by omega
  unfold parseRequestVersion
  simp only [hmethod, hdrop, huri, hdrop', hleft, Option.bind_eq_bind, Option.bind_some, if_false]

end Line

/-- What stands for a version on the line. -/
def Version.text : Version → List UInt8
  | .ver_1_0 => chars "HTTP/1.0"
  | .ver_1_1 => chars "HTTP/1.1"
  | .ver_none => []

/-- A version begins with its text. -/
theorem versionAt_text {version : Version} (h : version ≠ .ver_none) (rest : List UInt8) :
    versionAt (version.text ++ rest) = some version := by
  cases version with
  | ver_1_0 => simp [versionAt, Version.text, chars, strncmpEq]
  | ver_1_1 => simp [versionAt, Version.text, chars, strncmpEq]
  | ver_none => exact absurd rfl h

theorem Version.text_head {version : Version} (h : version ≠ .ver_none) (rest : List UInt8) :
    ∃ c more, version.text ++ rest = c :: more ∧ c ≠ SP := by
  cases version with
  | ver_1_0 => exact ⟨72, _, rfl, by decide⟩
  | ver_1_1 => exact ⟨72, _, rfl, by decide⟩
  | ver_none => exact absurd rfl h

theorem Version.text_no_lf (version : Version) : LF ∉ version.text := by
  cases version <;> decide

/-! ## The method -/

theorem methodsName_tokens : ∀ name ∈ methodsName, IsToken name := by
  decide

/-- No name is taken for the prefix of a mandatory extension or for an empty line. -/
theorem methodToken_name {name : List UInt8} (h : name ∈ methodsName) (rest : List UInt8) :
    methodToken (name ++ SP :: rest) = name := by
  have hplain : ∀ name ∈ methodsName, 2 ≤ name.length ∧ mandatory name = false := by decide
  obtain ⟨hlen, hno⟩ := hplain name h
  have hno' : mandatory (name ++ SP :: rest) = false := by
    match name, hlen with
    | a :: b :: name, _ => exact hno
  unfold methodToken
  rw [hno', if_neg (by decide)]
  exact tokenOf_stop (methodsName_tokens name h).no_blank (by decide) rest

/-! ## The first line -/

/-- The request line, up to its LF. -/
def requestLine (m u : List UInt8) (version : Version) : List UInt8 :=
  m ++ SP :: (u ++ SP :: (version.text ++ [CR]))

section RequestLine

variable {m u : List UInt8} {version : Version} (hm : m ∈ methodsName) (hu : IsToken u)

include hm hu in
theorem requestLine_no_lf : LF ∉ requestLine m u version := by
  have hblank : LF ≠ SP := by decide
  have hcr : LF ≠ CR := by decide
  simp [requestLine, (methodsName_tokens m hm).not_lf, hu.not_lf, version.text_no_lf, hblank, hcr]

theorem requestLine_getLast : (requestLine m u version).getLast? = some CR := by
  have hsplit : requestLine m u version = (m ++ SP :: (u ++ SP :: version.text)) ++ [CR] := by
    simp [requestLine]
  rw [hsplit, List.getLast?_concat]

theorem length_requestLine : (requestLine m u version).length =
    m.length + u.length + version.text.length + 3 := by
  simp only [requestLine, List.length_append, List.length_cons, List.length_nil]
  omega

include hm in
/-- `parseMethod` on the line. -/
theorem parseMethod_requestLine {i : ℕ} (hi : methodsName[i]? = some m) (rest : List UInt8) :
    parseMethod (requestLine m u version ++ LF :: rest) ((requestLine m u version).length + 1) =
      some i := by
  have hparse := parseMethod_line (requestLine m u version ++ [LF]) rest
  have htoken : methodToken (requestLine m u version ++ [LF]) = m := by
    have hsplit : requestLine m u version ++ [LF] =
        m ++ SP :: (u ++ SP :: (version.text ++ [CR, LF])) := by simp [requestLine]
    rw [hsplit, methodToken_name hm]
  rw [htoken, methodsName_table.codeOf_name hi] at hparse
  simpa using hparse

include hm hu in
/-- `parseUri` and `parseVersion` on it. -/
theorem parse_requestLine (hversion : version ≠ .ver_none) (rest : List UInt8) :
    parseUri (requestLine m u version ++ LF :: rest) ((requestLine m u version).length + 1) =
        some (some u) ∧
      parseRequestVersion (requestLine m u version ++ LF :: rest)
        ((requestLine m u version).length + 1) = some version := by
  obtain ⟨c, more, htext, hc⟩ := Version.text_head hversion (CR :: LF :: rest)
  have hsplit : requestLine m u version ++ LF :: rest = m ++ SP :: (u ++ SP :: c :: more) := by
    rw [← htext]
    simp [requestLine]
  have hlen : m.length + u.length + 2 < (requestLine m u version).length + 1 := by
    rw [length_requestLine]
    omega
  have hmethod := methodsName_tokens m hm
  rw [hsplit, parseUri_line hmethod hu hc more hlen,
    parseRequestVersion_line hmethod hu hc more hlen, ← htext]
  exact ⟨rfl, versionAt_text hversion _⟩

end RequestLine

/-! ## The header -/

/-- A header block that ends in an empty line: its lines, and the LF or the CR LF of one
more. -/
def EndsInEmptyLine (block : List UInt8) : Prop :=
  ∃ front eol, block = front ++ eol ∧ (front = [] ∨ front.getLast? = some LF) ∧
    (eol = [LF] ∨ eol = [CR, LF])

/-- The loop of `find_header_end` stops in front of an empty line, if not before. -/
theorem headerEnd_emptyLine {front eol : List UInt8} {len : ℕ}
    (hfront : front = [] ∧ len = 0 ∨ front.getLast? = some LF)
    (heol : eol = [LF] ∨ eol = [CR, LF]) (pos : ℕ) :
    ∃ k, headerEnd (front ++ eol) (front ++ eol).length pos len = some (some k) := by
  induction front generalizing len pos with
  | nil =>
      obtain rfl : len = 0 := by simpa using hfront
      have hCR : CR ≠ LF := by decide
      rcases heol with rfl | rfl
      · exact ⟨pos, by simp [headerEnd]⟩
      · exact ⟨pos + 1, by simp [headerEnd, hCR]⟩
  | cons d front ih =>
      have hlast : (d :: front).getLast? = some LF := by simpa using hfront
      rw [List.cons_append, List.length_cons, headerEnd]
      by_cases hd : d = LF
      · rw [if_pos hd]
        by_cases hshort : len < 2
        · exact ⟨pos, if_pos hshort⟩
        · rw [if_neg hshort]
          cases front with
          | nil => exact ih (.inl ⟨rfl, rfl⟩) (pos + 1)
          | cons e front => exact ih (.inr (by simpa using hlast)) (pos + 1)
      · rw [if_neg hd]
        cases front with
        | nil => exact absurd (by simpa using hlast) hd
        | cons e front => exact ih (.inr (by simpa using hlast)) (pos + 1)

/-- The end of the header behind a first line. -/
theorem findHeaderEnd_block {text block : List UInt8} (hLF : LF ∉ text)
    (hblock : EndsInEmptyLine block) (rest : List UInt8) {n : ℕ}
    (hn : text.length + 1 + block.length ≤ n) :
    ∃ k, findHeaderEnd (text ++ LF :: (block ++ rest)) n = some (some k) ∧ text.length < k ∧
      k ≤ text.length + block.length := by
  obtain ⟨front, eol, rfl, hfront, heol⟩ := hblock
  obtain ⟨k, hk⟩ := headerEnd_emptyLine (hfront.imp_left fun h => ⟨h, rfl⟩) heol (text.length + 1)
  obtain ⟨hfound, hlo, hhi⟩ := headerEnd_found rest
    (show (front ++ eol).length ≤ n - (text.length + 1) by omega) hk
  have hline : memchr LF (text ++ LF :: (front ++ eol ++ rest)) n = some (some text.length) :=
    memchr_eq_some_iff.mpr ⟨text, _, rfl, hLF, rfl, by omega⟩
  have hdrop : (text ++ LF :: (front ++ eol ++ rest)).drop (text.length + 1) =
      front ++ eol ++ rest := by
    rw [List.drop_append]
    simp
  refine ⟨k, ?_, by omega, by omega⟩
  rw [findHeaderEnd_behind hline, hdrop]
  exact hfound

/-- The parameters are read without a fault, and leave the first line as it was read. -/
theorem Request.readParams_some (req : Request) {header : List UInt8} (hlen : 1 ≤ header.length) :
    ∃ req', req.readParams header = some req' ∧ req'.head = req.head ∧ req'.uri = req.uri ∧
      req'.version = req.version := by
  have hparam : ∀ param, CR ∉ chars param ∧ LF ∉ chars param →
      ∃ value, Protocol.headerParam header (chars param) = some value := fun param hplain =>
    Protocol.headerParam_some hlen hplain.1 hplain.2
  choose value hvalue using hparam
  unfold Request.readParams
  simp only [hvalue "Host:" (by decide), hvalue "Referer:" (by decide),
    hvalue "User-Agent:" (by decide), hvalue "Connection:" (by decide),
    hvalue "Accept:" (by decide), hvalue "Accept-Encoding:" (by decide),
    hvalue "Accept-Language:" (by decide), hvalue "Accept-Charset:" (by decide),
    hvalue "Cookie:" (by decide), hvalue "Content-Type:" (by decide),
    hvalue "Content-Encoding:" (by decide), hvalue "Content-Length:" (by decide),
    Option.bind_eq_bind, Option.bind_some]
  split <;> exact ⟨_, rfl, rfl, rfl, rfl⟩

end Http

/-- **HTTP request lines round-trip.**  For every method of the table but `NONE`, every URI
that is one token, both versions, and every header block that ends in an empty line,
whatever follows it and whatever the memory of the object held: the constructor stores the
code of the method, the URI and the version. -/
theorem http_request_line_round_trip (mem : Http.Request) (seq nxtSeq : UInt32)
    {m u block : List UInt8} {version : Http.Version} {i : ℕ} (body more : List UInt8)
    (hm : Http.methodsName[i]? = some m) (hi : i ≠ 0) (hne : u ≠ [])
    (hu : ∀ d ∈ u, d ≠ SP ∧ d ≠ CR ∧ d ≠ LF ∧ d ≠ 0) (hversion : version ≠ .ver_none)
    (hblock : Http.EndsInEmptyLine block) :
    ∃ req, Http.Request.new mem
        (Http.requestLine m u version ++ LF :: (block ++ (body ++ more)))
        (Http.requestLine m u version ++ LF :: (block ++ body)).length seq nxtSeq = some req ∧
      req.methodCode = i ∧ req.uri = some u ∧ req.version = version := by
  have hmem : m ∈ Http.methodsName := List.mem_of_getElem? hm
  have htoken : IsToken u := by
    refine ⟨hne, fun d hd => Protocol.endsToken_eq_false.mpr ?_⟩
    obtain ⟨hSP, hCR, hLF, -⟩ := hu d hd
    exact ⟨hSP, hCR, hLF⟩
  have hLF : LF ∉ Http.requestLine m u version := Http.requestLine_no_lf hmem htoken
  obtain ⟨k, hend, hlo, hhi⟩ := Http.findHeaderEnd_block hLF hblock (body ++ more)
    (show (Http.requestLine m u version).length + 1 + block.length ≤
      (Http.requestLine m u version ++ LF :: (block ++ body)).length + 1 by simp; omega)
  have hline := Protocol.findLineEnd_line (Http.requestLine m u version)
    (block ++ (body ++ more)) hLF hlo.le (show k ≤ _ by rw [List.length_append]; omega)
  rw [if_neg fun hcr => hcr.1.2 Http.requestLine_getLast] at hline
  have hmethod : Http.parseMethod (Http.requestLine m u version ++ LF :: (block ++ (body ++ more)))
      ((Http.requestLine m u version).length + 1) = some i :=
    Http.parseMethod_requestLine hmem hm (block ++ (body ++ more))
  obtain ⟨huri, hver⟩ := Http.parse_requestLine hmem htoken hversion (block ++ (body ++ more))
  have hnone : Http.methodsName[i]? ≠ some (chars "NONE") := fun hzero =>
    hi (Http.methodsName_table.place_unique hzero (by decide))
  unfold Http.Request.new
  simp only [hend, hline, hmethod, huri, hver, hnone, Option.bind_eq_bind, Option.bind_some,
    if_false]
  have hheader : 1 ≤ ((Http.requestLine m u version ++
      LF :: (block ++ (body ++ more))).take (k + 1)).length := by
    rw [List.length_take, List.length_append, List.length_cons]
    omega
  obtain ⟨req, hreq, hhead, huri', hver'⟩ := Http.Request.readParams_some
    { mem with
      seq := seq, nxtSeq := nxtSeq, hdlen := k + 1, methodCode := i, uri := some u,
      version := version } hheader
  exact ⟨req, hreq, congrArg RequestHead.methodCode hhead, huri', hver'⟩

/-- `GET /a HTTP/1.1` with a header of one line, and a body behind it. -/
theorem http_request_line_round_trip_get :
    ∃ req, Http.Request.new default
        (chars "GET /a HTTP/1.1\r\nHost: b\r\n\r\nbody" ++ [0]) 32 1 33 = some req ∧
      req.methodCode = 2 ∧ req.uri = some (chars "/a") ∧ req.version = .ver_1_1 := by
  have hplain : ∀ d ∈ chars "/a", d ≠ SP ∧ d ≠ CR ∧ d ≠ LF ∧ d ≠ 0 :=
    List.forall_mem_cons.mpr ⟨by decide, List.forall_mem_singleton.mpr (by decide)⟩
  have hread := http_request_line_round_trip default 1 33 (m := chars "GET") (u := chars "/a")
    (i := 2) (chars "body") [0] (by decide) (by decide) (by decide) hplain
    (show Http.Version.ver_1_1 ≠ .ver_none by decide)
    ⟨chars "Host: b\r\n", [CR, LF], rfl, by decide, by decide⟩
  exact hread

end MonitoringTool.Sniffer
