import Mathlib.Data.Nat.Digits.Defs
import MonitoringTool.Sniffer.HeaderParam
import MonitoringTool.Sniffer.Metrics.MetricCumDistr

/-!
# The packets of MySQL

The constructor of MySQL's `Request` reads the length of the packet and the command behind its
header, at fixed places of the copy of the payload, which a zero byte ends.  It then looks for the
name of a statement, whatever the command is.  A `char` is signed,
so a byte of the length that is 128 or more is extended with ones.

`mysql_request_iff` says for which payloads the request stays inside its copy, and what it
says of them.  `statement_frequencies` says what the distribution of the types of requests has
for each statement after any run.
-/

namespace MonitoringTool.Sniffer.MySQL

/-! ## The constructor -/

/-- `methodsName` of `_mysql::Request`. -/
def methodsName : List (List UInt8) :=
  ["OTHER", "INSERT", "SELECT", "UPDATE", "DELETE"].map chars

/-- `strncmp(data, upper, 6) == 0 || strncmp(data, lower, 6) == 0`. -/
def isStatement (data : List UInt8) (upper lower : String) : Option Bool := do
  if ← strncmpEq data (chars upper) 6 then return true
  else strncmpEq data (chars lower) 6

/-- `_mysql::Request::parseMethod`. -/
def parseMethod (data : List UInt8) (_linelen : Int32) : Option ℕ := do
  if ← isStatement data "SELECT" "select" then return 2
  else if ← isStatement data "UPDATE" "update" then return 3
  else if ← isStatement data "INSERT" "insert" then return 1
  else if ← isStatement data "DELETE" "delete" then return 4
  else return 0

/-- `(unsigned int) c` for a `char`. -/
def unsignedInt (c : UInt8) : UInt32 := c.toInt8.toInt32.toUInt32

/-- `size`. -/
def readSize (data : List UInt8) : Option UInt32 := do
  return (unsignedInt (← data[2]?) <<< 16) + (unsignedInt (← data[1]?) <<< 8) +
    unsignedInt (← data[0]?)

/-- `_mysql::Request`, without the tables of names and the time, which is not stored. -/
structure Request where
  seq : UInt32
  nxtSeq : UInt32
  cmd : Int8
  size : UInt32
  methodCode : ℕ
  sqlCommand : ℕ
  deriving DecidableEq

/-- `_mysql::Request::Request`. -/
def Request.new (data : List UInt8) (seq nxtSeq : UInt32) : Option Request := do
  let cmd ← data[4]?
  let size ← readSize data
  let methodCode ← parseMethod (data.drop 5) size.toInt32
  return { seq := seq, nxtSeq := nxtSeq, cmd := cmd.toInt8, size := size,
           methodCode := methodCode, sqlCommand := methodCode }

/-- The request as the metrics see it, with the literals of its table. -/
def Request.method {Literal : Type*} (names : List Literal) (req : Request) :
    RequestMethod Literal :=
  { methodsName := names, methodCode := req.methodCode }

/-! ## The method -/

/-- The text begins with the name, in capitals or in small letters throughout. -/
def Begins (text name : List UInt8) : Prop := name <+: text ∨ name.map tolower <+: text

instance (text name : List UInt8) : Decidable (Begins text name) :=
  inferInstanceAs (Decidable (_ ∨ _))

/-- The names of the statements are six letters. -/
theorem six_letters : ∀ name ∈ methodsName.tail, name.length = 6 ∧ 0 ∉ name ∧
    0 ∉ name.map tolower ∧ (name.map tolower).map tolower = name.map tolower := by
  decide

/-- The comparison of a whole literal with a text that a zero byte ends. -/
theorem strncmpEq_ended {lit : List UInt8} (hlit : 0 ∉ lit) (text : List UInt8) :
    strncmpEq (text ++ [0]) lit lit.length = some (decide (lit <+: text)) := by
  induction text generalizing lit with
  | nil =>
      cases lit with
      | nil => rfl
      | cons c lit =>
          have hc : (0 : UInt8) ≠ c := fun h => hlit (by simp [h])
          simp [strncmpEq, hc]
  | cons d text ih =>
      cases lit with
      | nil => simp [strncmpEq]
      | cons c lit =>
          rw [List.cons_append, List.length_cons, strncmpEq, ih fun h => hlit (by simp [h])]
          by_cases hdc : d = c
          · simp [hdc, List.cons_prefix_cons]
          · have hcd : c ≠ d := fun h => hdc h.symm
            simp [hdc, hcd, List.cons_prefix_cons]

theorem isStatement_eq {upper lower : String} (hupper : chars upper ∈ methodsName.tail)
    (hlower : chars lower = (chars upper).map tolower) (text : List UInt8) :
    isStatement (text ++ [0]) upper lower = some (decide (Begins text (chars upper))) := by
  obtain ⟨hlength, hzero, hzero', -⟩ := six_letters _ hupper
  have hfirst := strncmpEq_ended hzero text
  have hsecond := strncmpEq_ended hzero' text
  rw [List.length_map] at hsecond
  rw [hlength] at hfirst hsecond
  rw [isStatement, hlower, hfirst, hsecond]
  unfold Begins
  by_cases h : chars upper <+: text <;> simp [h]

/-- A text begins with one name at most. -/
theorem begins_unique {text a b : List UInt8} (ha : a ∈ methodsName.tail)
    (hb : b ∈ methodsName.tail) (hbegins : Begins text a) (hbegins' : Begins text b) : a = b := by
  have hlower {name : List UInt8} (hname : name ∈ methodsName.tail) (h : Begins text name) :
      (text.take 6).map tolower = name.map tolower := by
    obtain ⟨hlength, -, -, hidem⟩ := six_letters _ hname
    rcases h with h | h
    · have htake := List.prefix_iff_eq_take.mp h
      rw [hlength] at htake
      rw [← htake]
    · have htake := List.prefix_iff_eq_take.mp h
      rw [List.length_map, hlength] at htake
      rw [← htake, hidem]
  have hinj : ∀ a ∈ methodsName.tail, ∀ b ∈ methodsName.tail,
      a.map tolower = b.map tolower → a = b := by
    decide
  exact hinj a ha b hb ((hlower ha hbegins).symm.trans (hlower hb hbegins'))

/-- The method is the name that the text begins with. -/
theorem parseMethod_eq (text : List UInt8) (linelen : Int32) :
    ∃ code < methodsName.length, parseMethod (text ++ [0]) linelen = some code ∧
      ∀ name ∈ methodsName.tail, methodsName[code]? = some name ↔ Begins text name := by
  have hfound {code : ℕ} {name : List UInt8} (hcode : methodsName[code]? = some name)
      (hmem : name ∈ methodsName.tail) (h : Begins text name) :
      ∀ name ∈ methodsName.tail, methodsName[code]? = some name ↔ Begins text name := by
    intro name' hname'
    rw [hcode, Option.some_inj]
    exact ⟨fun heq => heq ▸ h, begins_unique hmem hname' h⟩
  rw [parseMethod, isStatement_eq (by decide) (by decide), isStatement_eq (by decide) (by decide),
    isStatement_eq (by decide) (by decide), isStatement_eq (by decide) (by decide)]
  by_cases hselect : Begins text (chars "SELECT")
  · exact ⟨2, by decide, by simp [hselect], hfound rfl (by decide) hselect⟩
  by_cases hupdate : Begins text (chars "UPDATE")
  · exact ⟨3, by decide, by simp [hselect, hupdate], hfound rfl (by decide) hupdate⟩
  by_cases hinsert : Begins text (chars "INSERT")
  · exact ⟨1, by decide, by simp [hselect, hupdate, hinsert], hfound rfl (by decide) hinsert⟩
  by_cases hdelete : Begins text (chars "DELETE")
  · exact ⟨4, by decide, by simp [hselect, hupdate, hinsert, hdelete],
      hfound rfl (by decide) hdelete⟩
  refine ⟨0, by decide, by simp [hselect, hupdate, hinsert, hdelete], fun name hname => ?_⟩
  have hother : ∀ name ∈ methodsName.tail, methodsName[0]? ≠ some name := by decide
  refine iff_of_false (hother name hname) ?_
  simp only [methodsName, List.map_cons, List.map_nil, List.tail_cons, List.mem_cons,
    List.not_mem_nil, or_false] at hname
  rcases hname with rfl | rfl | rfl | rfl
  · exact hinsert
  · exact hselect
  · exact hupdate
  · exact hdelete

/-! ## The length -/

/-- A byte with its top bit set is extended with ones. -/
theorem toNat_unsignedInt (c : UInt8) :
    (unsignedInt c).toNat = if c < 128 then c.toNat else c.toNat + (2 ^ 32 - 2 ^ 8) := by
  have hall : ∀ n : Fin 256, (unsignedInt (.ofFin n)).toNat =
      if UInt8.ofFin n < 128 then n.val else n.val + (2 ^ 32 - 2 ^ 8) := by
    decide +kernel
  exact hall c.toFin

/-- The length is read as it was written unless a byte of it has its top bit set. -/
theorem readSize_eq (a b c : UInt8) (rest : List UInt8) :
    ∃ size, readSize (a :: b :: c :: rest) = some size ∧
      (size.toNat = Nat.ofDigits 256 [a.toNat, b.toNat, c.toNat] ↔
        a < 128 ∧ b < 128 ∧ c < 128) := by
  refine ⟨_, rfl, ?_⟩
  have ha := a.toNat_lt
  have hb := b.toNat_lt
  have hc := c.toNat_lt
  simp only [UInt32.toNat_add, UInt32.toNat_shiftLeft, toNat_unsignedInt, Nat.shiftLeft_eq,
    Nat.ofDigits_cons, Nat.ofDigits_nil]
  by_cases ha' : a < 128 <;> by_cases hb' : b < 128 <;> by_cases hc' : c < 128 <;>
    simp only [ha', hb', hc', if_true, if_false] <;> simp <;> omega

/-! ## The request -/

theorem Request.new_eq (a b c d e : UInt8) (text : List UInt8) (seq nxtSeq : UInt32) :
    ∃ size code, Request.new (a :: b :: c :: d :: e :: text ++ [0]) seq nxtSeq =
        some ⟨seq, nxtSeq, e.toInt8, size, code, code⟩ ∧
      (size.toNat = Nat.ofDigits 256 [a.toNat, b.toNat, c.toNat] ↔
        a < 128 ∧ b < 128 ∧ c < 128) ∧
      code < methodsName.length ∧
      ∀ name ∈ methodsName.tail, methodsName[code]? = some name ↔ Begins text name := by
  obtain ⟨size, hsize, hiff⟩ := readSize_eq a b c (d :: e :: text ++ [0])
  obtain ⟨code, hlt, hcode, hname⟩ := parseMethod_eq text size.toInt32
  refine ⟨size, code, ?_, hiff, hlt, hname⟩
  simp only [List.cons_append] at hsize ⊢
  simp [Request.new, hsize, hcode]

theorem Request.new_eq_none {payload : List UInt8} (h : payload.length < 5)
    (seq nxtSeq : UInt32) : Request.new (payload ++ [0]) seq nxtSeq = none := by
  match payload with
  | [] => rfl
  | [a] => rfl
  | [a, b] => rfl
  | [a, b, c] => rfl
  | [a, b, c, d] => rfl
  | a :: b :: c :: d :: e :: text =>
      simp only [List.length_cons] at h
      omega

/-- A payload with a byte for the command. -/
theorem payload_eq {payload : List UInt8} (h : 5 ≤ payload.length) :
    ∃ a b c d e text, payload = a :: b :: c :: d :: e :: text := by
  match payload, h with
  | a :: b :: c :: d :: e :: text, _ => exact ⟨a, b, c, d, e, text, rfl⟩

theorem getMethodName_method {Literal : Type*} {names : List Literal} {req : Request}
    (h : req.methodCode < names.length) :
    (req.method names).getMethodName req.methodCode = names[req.methodCode]? := by
  rw [RequestMethod.getMethodName, Request.method, if_neg (by dsimp only; omega),
    Int.toNat_natCast]

/-- **A request names the statement that its text begins with.**  The request stays inside the
copy of its payload if and only if there is a byte for the command.  It then has a name, which is
that of a statement exactly when the text behind the command begins with it, in capitals or in
small letters; and its size is the length in the header exactly when no byte of that length has
its top bit set. -/
theorem mysql_request_iff (payload : List UInt8) (seq nxtSeq : UInt32) :
    if 5 ≤ payload.length then
      ∃ req, Request.new (payload ++ [0]) seq nxtSeq = some req ∧
        ((req.method methodsName).getMethodName req.methodCode).isSome ∧
        (∀ name ∈ methodsName.tail,
          (req.method methodsName).getMethodName req.methodCode = some name ↔
            Begins (payload.drop 5) name) ∧
        (req.size.toNat = Nat.ofDigits 256 ((payload.take 3).map (·.toNat)) ↔
          ∀ c ∈ payload.take 3, c < 128)
    else Request.new (payload ++ [0]) seq nxtSeq = none := by
  split_ifs with hlength
  · obtain ⟨a, b, c, d, e, text, rfl⟩ := payload_eq hlength
    obtain ⟨size, code, hnew, hsize, hlt, hname⟩ := Request.new_eq a b c d e text seq nxtSeq
    have hkey := @getMethodName_method _ methodsName ⟨seq, nxtSeq, e.toInt8, size, code, code⟩ hlt
    refine ⟨_, hnew, ?_, fun name hmem => ?_, ?_⟩
    · rw [hkey, List.getElem?_eq_getElem hlt, Option.isSome_some]
    · rw [hkey]
      exact hname name hmem
    · simpa using hsize
  · exact Request.new_eq_none (Nat.lt_of_not_le hlength) seq nxtSeq

/-! ## The distribution of the types of requests -/

section Distribution

variable {Literal : Type*}

/-- A request with the payload has been received; the literals of its table are `names`. -/
def ReceivedWith (names : List Literal) (payload : List UInt8)
    (received : ReceivedRequest Literal) : Prop :=
  ∃ seq nxtSeq req, Request.new (payload ++ [0]) seq nxtSeq = some req ∧
    received.method = req.method names

/-- How many payloads have a text that begins with the name. -/
def statements (payloads : List (List UInt8)) (name : List UInt8) : ℕ :=
  payloads.countP fun payload => Begins (payload.drop 5) name

variable {text : Literal → List UInt8} {names : List Literal}

theorem key_of_receivedWith (hnames : names.map text = methodsName) {payload : List UInt8}
    {received : ReceivedRequest Literal} (h : ReceivedWith names payload received) :
    ∃ code : ℕ, ReqType.key received = names[code]? ∧
      ∀ name ∈ methodsName.tail, methodsName[code]? = some name ↔
        Begins (payload.drop 5) name := by
  obtain ⟨seq, nxtSeq, req, hnew, hmethod⟩ := h
  by_cases hlength : 5 ≤ payload.length
  · obtain ⟨a, b, c, d, e, text', rfl⟩ := payload_eq hlength
    obtain ⟨size, code, hnew', -, hlt, hname⟩ := Request.new_eq a b c d e text' seq nxtSeq
    obtain rfl := Option.some.inj (hnew.symm.trans hnew')
    rw [← hnames, List.length_map] at hlt
    refine ⟨code, ?_, hname⟩
    rw [ReqType.key, hmethod]
    exact getMethodName_method hlt
  · rw [Request.new_eq_none (Nat.lt_of_not_le hlength)] at hnew
    exact absurd hnew (by simp)

/-- A literal of the table is the key of the requests that begin with its text. -/
theorem key_iff (hnames : names.map text = methodsName) {payload : List UInt8}
    {received : ReceivedRequest Literal} (h : ReceivedWith names payload received) {k : Literal}
    (hk : k ∈ names) (hname : text k ∈ methodsName.tail) :
    ReqType.key received = some k ↔ Begins (payload.drop 5) (text k) := by
  obtain ⟨code, hkey, hbegins⟩ := key_of_receivedWith hnames h
  rw [hkey, ← hbegins _ hname, ← hnames, List.getElem?_map, Option.map_eq_some_iff]
  constructor
  · intro hcode
    exact ⟨k, hcode, rfl⟩
  · rintro ⟨k', hcode, htext⟩
    have hnodup : (names.map text).Nodup := by
      rw [hnames]
      decide
    rw [hcode, List.inj_on_of_nodup_map hnodup (List.mem_of_getElem? hcode) hk htext]

variable [LinearOrder Literal]

theorem count_key (hnames : names.map text = methodsName) {payloads : List (List UInt8)}
    {requests : List (ReceivedRequest Literal)}
    (h : List.Forall₂ (ReceivedWith names) payloads requests) {k : Literal} (hk : k ∈ names)
    (hname : text k ∈ methodsName.tail) :
    (requests.map ReqType.key).count (some k) = statements payloads (text k) := by
  induction h with
  | nil => rfl
  | cons hreceived _ ih =>
      rw [List.map_cons, List.count_cons, ih]
      simp only [statements, List.countP_cons, beq_iff_eq, key_iff hnames hreceived hk hname,
        decide_eq_true_eq]

/-- A key that is frequent is that of some request, so a literal of its table. -/
theorem mem_names_of_frequent (hnames : names.map text = methodsName)
    {payloads : List (List UInt8)} {requests : List (ReceivedRequest Literal)}
    (h : List.Forall₂ (ReceivedWith names) payloads requests) {k : Literal}
    (hk : Frequent (requests.map ReqType.key) k) : k ∈ names := by
  have hpos := (frequent_iff _ _).mp hk
  have hcount : 0 < (requests.map ReqType.key).count (some k) := by
    rw [CFL_SIZE] at hpos
    omega
  obtain ⟨received, hreceived, hkey⟩ := List.mem_map.mp (List.count_pos_iff.mp hcount)
  obtain ⟨i, hi, rfl⟩ := List.getElem_of_mem hreceived
  obtain ⟨code, hcode, -⟩ := key_of_receivedWith hnames (h.get (h.length_eq ▸ hi) hi)
  exact List.mem_of_getElem? (hcode.symm.trans hkey)

/-- **Statements are reported by their share.**  After every run of fewer than 2^31
notifications, whatever the payloads of its requests are, the distribution of the types of
requests builds a list as soon as there was a request.  The list has an entry for a statement
exactly when more than one hundredth of the payloads begin with it behind the command, and the
frequency of the entry is their share. -/
theorem statement_frequencies (hnames : names.map text = methodsName)
    (notices : List (DistrNotice Literal)) (hlt : notices.length < 2 ^ 31)
    (payloads : List (List UInt8))
    (h : List.Forall₂ (ReceivedWith names) payloads (DistrNotice.requests notices)) :
    if payloads = [] then
      ((Distributions.after text notices).reqType.onIntervalExpired text).1 = none
    else ∃ cfl, ((Distributions.after text notices).reqType.onIntervalExpired text).1 = some cfl ∧
      ∀ name ∈ methodsName.tail, ∀ item, item ∈ cfl.list ∧ item.name = name ↔
        payloads.length < CFL_SIZE * statements payloads name ∧
          item =
            { name := name, cFreq := (statements payloads name : ℚ) / payloads.length } := by
  generalize hrequests : DistrNotice.requests notices = requests at h
  have hlength : (requests.map ReqType.key).length = payloads.length := by
    rw [List.length_map, h.length_eq]
  have hle : (requests.map ReqType.key).length < 2 ^ 31 := by
    rw [List.length_map, ← hrequests]
    exact (List.length_filterMap_le _ _).trans_lt hlt
  have hinv := (Distributions.inv_after text notices).reqType
  rw [hrequests] at hinv
  have hempty : requests.map ReqType.key = [] ↔ payloads = [] := by
    rw [← List.length_eq_zero_iff, hlength, List.length_eq_zero_iff]
  have hcomplete := hinv.complete text hle
  simp only [hempty] at hcomplete
  split_ifs at hcomplete ⊢ with hnone
  · exact hcomplete
  obtain ⟨cfl, hcfl, hfull⟩ := hcomplete
  obtain ⟨keys, -, hkeys, hlist⟩ := hfull.entries
  refine ⟨cfl, hcfl, ?_⟩
  have hitem {k : Literal} (hk : k ∈ names) (hname : text k ∈ methodsName.tail) :
      itemOf text (requests.map ReqType.key) k =
        { name := text k, cFreq := (statements payloads (text k) : ℚ) / payloads.length } := by
    rw [itemOf, count_key hnames h hk hname, hlength]
  have hfrequent {k : Literal} (hk : k ∈ names) (hname : text k ∈ methodsName.tail) :
      k ∈ keys ↔ payloads.length < CFL_SIZE * statements payloads (text k) := by
    rw [hkeys, frequent_iff, count_key hnames h hk hname, hlength]
  intro name hname item
  rw [hlist, List.mem_map]
  constructor
  · rintro ⟨⟨k, hk, rfl⟩, rfl⟩
    have hmem : k ∈ names := mem_names_of_frequent hnames h ((hkeys k).mp hk)
    exact ⟨(hfrequent hmem hname).mp hk, hitem hmem hname⟩
  · rintro ⟨hshare, rfl⟩
    obtain ⟨k, hk, rfl⟩ : ∃ k ∈ names, text k = name := by
      rw [← List.mem_map, hnames]
      exact List.mem_of_mem_tail hname
    exact ⟨⟨k, (hfrequent hk hname).mpr hshare, hitem hk hname⟩, rfl⟩

end Distribution

/-- A query in small letters, and after an interval a packet that pings the server. -/
theorem statement_frequencies_select :
    let received (code : ℤ) : ReceivedRequest ℕ :=
      { saddr := 0x0a000001, uri := none
        method := { methodsName := [0, 1, 2, 3, 4], methodCode := code } }
    let text (i : ℕ) := methodsName.getD i []
    let notices := [.requestReceived (received 2), .intervalExpired, .requestReceived (received 0)]
    ∃ cfl, ((Distributions.after text notices).reqType.onIntervalExpired text).1 = some cfl ∧
      ∀ item, item ∈ cfl.list ∧ item.name = chars "SELECT" ↔
        item = { name := chars "SELECT", cFreq := 1 / 2 } := by
  intro received text notices
  let payloads := [[9, 0, 0, 0, 3] ++ chars "select 1", [1, 0, 0, 0, 14]]
  have hwith : List.Forall₂ (ReceivedWith [0, 1, 2, 3, 4]) payloads [received 2, received 0] :=
    .cons ⟨0, 0, ⟨0, 0, 3, 9, 2, 2⟩, by decide, rfl⟩
      (.cons ⟨0, 0, ⟨0, 0, 14, 1, 0, 0⟩, by decide, rfl⟩ .nil)
  have hshare : payloads.length < CFL_SIZE * statements payloads (chars "SELECT") := by decide
  have hcount : statements payloads (chars "SELECT") = 1 := by decide
  have hlength : payloads.length = 2 := rfl
  have hall := @statement_frequencies _ text _ _ (by decide) notices (by decide) payloads hwith
  rw [if_neg (by decide)] at hall
  obtain ⟨cfl, hcfl, hitems⟩ := hall
  refine ⟨cfl, hcfl, fun item => ?_⟩
  rw [hitems (chars "SELECT") (by decide) item, and_iff_right hshare, hcount, hlength]
  norm_num

end MonitoringTool.Sniffer.MySQL
