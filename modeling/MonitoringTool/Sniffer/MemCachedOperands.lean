import MonitoringTool.Sniffer.HttpRequestLine
import MonitoringTool.Sniffer.IpAddress

/-!
# memcached's operands

The constructors of memcached's `Request` and `Response` take the keys and the numbers of the
first line.  Their cursor starts at the command word, not behind it, so that the command is
taken for the first key and each operand for the one before it; they use `val` where `sscanf`
did not convert anything; and the keys are copied without the zero byte that ends them.

`memcached_operands_iff` says for which lines the operands are read all the same.
-/

namespace MonitoringTool.Sniffer

namespace MemCached

/-! ## The constructors -/

/-- What the memory holds that is read before it is written: the blocks that `malloc` hands
out, by number and offset, and the local variables `val` and `Flgs`. -/
structure Garbage where
  block : ℕ → ℕ → UInt8
  val : UInt32
  flgs : UInt8

/-- `key = MALLOC(char, tokenlen+1)`, the copy of the token and `keys.push_back(key)`: the
last byte of the key is not written. -/
def pushKey (garbage : Garbage) (keys : List (List UInt8)) (linesp : List UInt8) (tokenlen : ℕ) :
    Option (List (List UInt8)) := do
  return keys ++ [(← memcpy linesp tokenlen) ++ [garbage.block keys.length tokenlen]]

/-- The token at the cursor, unless it is empty or neither a blank nor a CR stands behind
it. -/
def endedToken (linesp : List UInt8) (room : ℕ) : Option (Option Token) := do
  let token ← Protocol.getTokenLen linesp room
  if token.len = 0 then return none
  else
    let d ← linesp[token.len]?
    if d = SP ∨ d = CR then return some token else return none

/-- Leading white space, as `sscanf` skips it. -/
def skipSpace : List UInt8 → Option (List UInt8)
  | [] => none
  | c :: cp => if isspace c then skipSpace cp else some (c :: cp)

/-- `sscanf(linesp, "%u", ..) == 1`, or `"%hhu"`: a number stands there, perhaps with a
sign. -/
def sscanfConverts (linesp : List UInt8) : Option Bool := do
  let cp ← skipSpace linesp
  let c ← cp.head?
  if c = 43 ∨ c = 45 then return isdigit (← cp[1]?) else return isdigit c

/-- What `if (sscanf(linesp, .., &val) != 1) field = val` leaves in the field. -/
def scanField {α : Type} (linesp : List UInt8) (field val : α) : Option α := do
  if ← sscanfConverts linesp then return field else return val

/-- The loop over the keys of a `get`; `fuel` bounds the number of times its condition is
tested. -/
def getLoop (garbage : Garbage) : (fuel : ℕ) → (linesp : List UInt8) → (room : ℕ) →
    (keys : List (List UInt8)) → Option (List (List UInt8))
  | 0, _, _, _ => none
  | fuel + 1, linesp, room, keys => do
      match ← Protocol.blankedToken linesp room with
      | none => return keys
      | some token =>
          let keys ← pushKey garbage keys linesp token.len
          getLoop garbage fuel (linesp.drop token.next) (room - token.next) keys

/-- The loop over the keys of a `gat`, which goes on to the next token first. -/
def gatLoop (garbage : Garbage) : (fuel : ℕ) → (linesp : List UInt8) → (room : ℕ) →
    (keys : List (List UInt8)) → Option (List (List UInt8))
  | 0, _, _, _ => none
  | fuel + 1, linesp, room, keys => do
      match ← Protocol.blankedToken linesp room with
      | none => return keys
      | some token =>
          let linesp := linesp.drop token.next
          let room := room - token.next
          let token ← Protocol.getTokenLen linesp room
          let keys ← pushKey garbage keys linesp token.len
          gatLoop garbage fuel linesp room keys

/-- `_memcached::Request`, without the table of names and the time, which is not stored. -/
structure Request where
  seq : UInt32
  nxtSeq : UInt32
  hdlen : ℕ
  methodCode : ℕ
  keys : List (List UInt8)
  expiration : UInt32
  flags : UInt8
  deriving DecidableEq, Inhabited

/-- `methodsName[methodCode] == name`. -/
def Request.hasMethod (req : Request) (name : String) : Bool :=
  methodsName[req.methodCode]? = some (chars name)

/-- The operands of the line from `data` to `eoh`. -/
def Request.readOperands (req : Request) (garbage : Garbage) (data : List UInt8) (eoh : ℕ) :
    Option Request := do
  if req.hasMethod "get" then
    return { req with keys := ← getLoop garbage (eoh + 1) data eoh [] }
  else if req.hasMethod "delete" || req.hasMethod "incr" || req.hasMethod "decr" ||
      req.hasMethod "touch" then
    match ← endedToken data eoh with
    | none => return req
    | some token =>
        let req := { req with keys := ← pushKey garbage [] data token.len }
        if req.hasMethod "touch" then
          let linesp := data.drop token.next
          match ← endedToken linesp (eoh - token.next) with
          | none => return req
          | some _ =>
              return { req with expiration := ← scanField linesp req.expiration garbage.val }
        else return req
  else if req.hasMethod "gat" || req.hasMethod "gats" then
    match ← endedToken data eoh with
    | none => return req
    | some _ =>
        let expiration ← scanField data req.expiration garbage.val
        return { req with
          expiration := expiration, keys := ← gatLoop garbage (eoh + 1) data eoh [] }
  else return req

/-- `_memcached::Request::Request`; `mem` is what the memory of the object holds before. -/
def Request.new (garbage : Garbage) (mem : Request) (data : List UInt8) (dataend : ℕ)
    (seq nxtSeq : UInt32) : Option Request := do
  let eoh ← Protocol.findLineEnd data dataend
  let hdl := eoh + 1
  let methodCode ← parseMethod data hdl
  let req :=
    { mem with
      seq := seq, nxtSeq := nxtSeq, hdlen := hdl, methodCode := methodCode, keys := [] }
  if methodCode = 0 then return req else req.readOperands garbage data eoh

/-- `_memcached::Response`, without the table of names. -/
structure Response where
  acknowledgement : Int
  hdlen : ℕ
  statusCode : ℕ
  keys : List (List UInt8)
  flags : UInt8
  bodylen : UInt32
  deriving DecidableEq, Inhabited

/-- The operands of a `VALUE`. -/
def Response.readValue (rsp : Response) (garbage : Garbage) (data : List UInt8) (eoh : ℕ) :
    Option Response := do
  let token ← Protocol.getTokenLen data eoh
  let keys ←
    match ← Protocol.blankedToken data eoh with
    | some token => pushKey garbage [] data token.len
    | none => some []
  let linesp := data.drop token.next
  let room := eoh - token.next
  let token ← Protocol.getTokenLen linesp room
  let flags ←
    match ← Protocol.blankedToken linesp room with
    | some _ => scanField linesp rsp.flags garbage.flgs
    | none => some rsp.flags
  let linesp := linesp.drop token.next
  let room := room - token.next
  let bodylen ←
    match ← endedToken linesp room with
    | some _ => scanField linesp rsp.bodylen garbage.val
    | none => some rsp.bodylen
  return { rsp with keys := keys, flags := flags, bodylen := bodylen }

/-- `_memcached::Response::Response`. -/
def Response.new (garbage : Garbage) (mem : Response) (data : List UInt8) (dataend : ℕ)
    (ack : Int) : Option Response := do
  let eoh ← Protocol.findLineEnd data dataend
  let hdl := eoh + 1
  let statusCode ← parseStatus data hdl
  let rsp :=
    { mem with acknowledgement := ack, hdlen := hdl, statusCode := statusCode, keys := [] }
  if status[statusCode]? = some (chars "NONE") then return rsp
  else if status[statusCode]? = some (chars "VALUE") then rsp.readValue garbage data eoh
  else return rsp

/-! ## Lines of words -/

/-- Words with blanks between them, and a CR. -/
def lineText : List (List UInt8) → List UInt8
  | [] => [CR]
  | [w] => w ++ [CR]
  | w :: v :: ws => w ++ SP :: lineText (v :: ws)

section Words

variable {w v : List UInt8} {ws : List (List UInt8)}

theorem lineText_head (h : ∀ x ∈ w :: ws, IsToken x) (rest : List UInt8) :
    ∃ c more, lineText (w :: ws) ++ LF :: rest = c :: more ∧ c ≠ SP := by
  obtain ⟨c, w', rfl, hc⟩ := (h w (by simp)).head
  cases ws with
  | nil => exact ⟨c, _, rfl, hc⟩
  | cons v ws => exact ⟨c, _, rfl, hc⟩

theorem lineText_no_lf (h : ∀ x ∈ ws, IsToken x) : LF ∉ lineText ws := by
  have hblank : LF ≠ SP := by decide
  have hcr : LF ≠ CR := by decide
  induction ws with
  | nil => simp [lineText, hcr]
  | cons w ws ih =>
      have hw := (h w (by simp)).not_lf
      cases ws with
      | nil => simp [lineText, hw, hcr]
      | cons v ws =>
          have hrest := ih fun x hx => h x (by simp [hx])
          simp [lineText, hw, hblank, hrest]

theorem lineText_getLast (ws : List (List UInt8)) : (lineText ws).getLast? = some CR := by
  induction ws with
  | nil => rfl
  | cons w ws ih =>
      cases ws with
      | nil => exact List.getLast?_concat
      | cons v ws => rw [lineText, List.getLast?_append, List.getLast?_cons, ih]; rfl

theorem length_le_lineText (ws : List (List UInt8)) : ws.length ≤ (lineText ws).length := by
  induction ws with
  | nil => simp [lineText]
  | cons w ws ih =>
      cases ws with
      | nil => simp [lineText]
      | cons v ws =>
          simp only [lineText, List.length_append, List.length_cons] at ih ⊢
          omega

/-- The cursor at a word that is not the last. -/
theorem cursor_next (hw : IsToken w) (h : ∀ x ∈ v :: ws, IsToken x) (rest : List UInt8) :
    Protocol.getTokenLen (lineText (w :: v :: ws) ++ LF :: rest)
        (lineText (w :: v :: ws)).length = some ⟨w.length, w.length + 1⟩ ∧
      Protocol.blankedToken (lineText (w :: v :: ws) ++ LF :: rest)
        (lineText (w :: v :: ws)).length = some (some ⟨w.length, w.length + 1⟩) ∧
      endedToken (lineText (w :: v :: ws) ++ LF :: rest)
        (lineText (w :: v :: ws)).length = some (some ⟨w.length, w.length + 1⟩) := by
  obtain ⟨c, more, hsplit, hc⟩ := lineText_head h rest
  have hline : lineText (w :: v :: ws) ++ LF :: rest = w ++ SP :: c :: more := by
    rw [← hsplit, lineText]
    simp
  have hroom : w.length + 1 < (lineText (w :: v :: ws)).length := by
    have hpos : 0 < (lineText (v :: ws)).length :=
      Nat.lt_of_lt_of_le (by simp) (length_le_lineText (v :: ws))
    rw [lineText, List.length_append, List.length_cons]
    omega
  have htoken := Protocol.getTokenLen_token hw hc more hroom
  have hne : w.length ≠ 0 := fun hzero => hw.1 (List.length_eq_zero_iff.mp hzero)
  refine ⟨hline ▸ htoken, hline ▸ Protocol.blankedToken_token hw hc more hroom, ?_⟩
  unfold endedToken
  rw [hline, htoken]
  simp [hne]

/-- The cursor behind it. -/
theorem cursor_drop (w v : List UInt8) (ws : List (List UInt8)) (rest : List UInt8) :
    (lineText (w :: v :: ws) ++ LF :: rest).drop (w.length + 1) =
        lineText (v :: ws) ++ LF :: rest ∧
      (lineText (w :: v :: ws)).length - (w.length + 1) = (lineText (v :: ws)).length := by
  constructor
  · rw [lineText, List.append_assoc, List.drop_append]
    simp
  · rw [lineText, List.length_append, List.length_cons]
    omega

/-- The cursor at the last word. -/
theorem cursor_last (hw : IsToken w) (rest : List UInt8) :
    Protocol.getTokenLen (lineText [w] ++ LF :: rest) (lineText [w]).length =
        some ⟨w.length, w.length⟩ ∧
      Protocol.blankedToken (lineText [w] ++ LF :: rest) (lineText [w]).length = some none ∧
      endedToken (lineText [w] ++ LF :: rest) (lineText [w]).length =
        some (some ⟨w.length, w.length⟩) := by
  have hline : lineText [w] ++ LF :: rest = w ++ CR :: LF :: rest := by
    simp [lineText]
  have hroom : (lineText [w]).length = w.length + 1 := by
    simp [lineText]
  have hne : w.length ≠ 0 := fun hzero => hw.1 (List.length_eq_zero_iff.mp hzero)
  have hCR : CR ≠ SP := by decide
  have hlen : tokenIndex Protocol.endsToken (w ++ CR :: LF :: rest) (w.length + 1) =
      some w.length := tokenIndex_stop hw.2 (by decide) _ (Nat.lt_succ_self _)
  have htoken : Protocol.getTokenLen (w ++ CR :: LF :: rest) (w.length + 1) =
      some ⟨w.length, w.length⟩ := by
    unfold Protocol.getTokenLen
    simp [hlen, tokenIndex, hCR]
  rw [hline, hroom]
  refine ⟨htoken, ?_, ?_⟩
  · unfold Protocol.blankedToken
    rw [htoken]
    simp [hne, hCR]
  · unfold endedToken
    rw [htoken]
    simp [hne, hCR]

/-- The copies of words, from block number `n` on. -/
def copies (garbage : Garbage) : (n : ℕ) → List (List UInt8) → List (List UInt8)
  | _, [] => []
  | n, w :: ws => (w ++ [garbage.block n w.length]) :: copies garbage (n + 1) ws

theorem pushKey_word (garbage : Garbage) (keys : List (List UInt8)) (w : List UInt8)
    (ws : List (List UInt8)) (rest : List UInt8) :
    pushKey garbage keys (lineText (w :: ws) ++ LF :: rest) w.length =
      some (keys ++ copies garbage keys.length [w]) := by
  have hcopy : memcpy (lineText (w :: ws) ++ LF :: rest) w.length = some w := by
    cases ws <;> simp [memcpy, lineText]
  simp [pushKey, hcopy, copies]

theorem copies_append (garbage : Garbage) (n : ℕ) (ws vs : List (List UInt8)) :
    copies garbage n (ws ++ vs) = copies garbage n ws ++ copies garbage (n + ws.length) vs := by
  induction ws generalizing n with
  | nil => rfl
  | cons w ws ih =>
      rw [List.cons_append, copies, copies, ih, List.length_cons, List.cons_append,
        Nat.add_right_comm, Nat.add_assoc]

theorem length_copies (garbage : Garbage) (n : ℕ) (ws : List (List UInt8)) :
    (copies garbage n ws).length = ws.length := by
  induction ws generalizing n with
  | nil => rfl
  | cons w ws ih => rw [copies, List.length_cons, ih, List.length_cons]

/-- A `get` copies every word of the line but the last. -/
theorem getLoop_words (garbage : Garbage) (h : ∀ x ∈ w :: ws, IsToken x) (rest : List UInt8)
    {fuel : ℕ} (hfuel : ws.length < fuel) (keys : List (List UInt8)) :
    getLoop garbage fuel (lineText (w :: ws) ++ LF :: rest) (lineText (w :: ws)).length keys =
      some (keys ++ copies garbage keys.length (w :: ws).dropLast) := by
  induction ws generalizing w fuel keys with
  | nil =>
      obtain ⟨fuel, rfl⟩ : ∃ k, fuel = k + 1 := ⟨fuel - 1, by omega⟩
      obtain ⟨-, hblanked, -⟩ := cursor_last (h w (by simp)) rest
      simp [getLoop, hblanked, copies]
  | cons v ws ih =>
      obtain ⟨fuel, rfl⟩ : ∃ k, fuel = k + 1 := ⟨fuel - 1, by omega⟩
      have hrest : ∀ x ∈ v :: ws, IsToken x := fun x hx => h x (List.mem_cons_of_mem w hx)
      obtain ⟨-, hblanked, -⟩ := cursor_next (h w (by simp)) hrest rest
      obtain ⟨hdrop, hroom⟩ := cursor_drop w v ws rest
      rw [getLoop]
      simp only [hblanked, pushKey_word, hdrop, hroom, Option.bind_eq_bind, Option.bind_some]
      rw [ih hrest (by simpa using hfuel), List.dropLast_cons_cons, List.append_assoc,
        List.length_append, length_copies, ← copies_append]
      rfl

/-- A `gat` copies every word but the first. -/
theorem gatLoop_words (garbage : Garbage) (h : ∀ x ∈ w :: ws, IsToken x) (rest : List UInt8)
    {fuel : ℕ} (hfuel : ws.length < fuel) (keys : List (List UInt8)) :
    gatLoop garbage fuel (lineText (w :: ws) ++ LF :: rest) (lineText (w :: ws)).length keys =
      some (keys ++ copies garbage keys.length ws) := by
  induction ws generalizing w fuel keys with
  | nil =>
      obtain ⟨fuel, rfl⟩ : ∃ k, fuel = k + 1 := ⟨fuel - 1, by omega⟩
      obtain ⟨-, hblanked, -⟩ := cursor_last (h w (by simp)) rest
      simp [gatLoop, hblanked, copies]
  | cons v ws ih =>
      obtain ⟨fuel, rfl⟩ : ∃ k, fuel = k + 1 := ⟨fuel - 1, by omega⟩
      have hrest : ∀ x ∈ v :: ws, IsToken x := fun x hx => h x (List.mem_cons_of_mem w hx)
      obtain ⟨-, hblanked, -⟩ := cursor_next (h w (by simp)) hrest rest
      obtain ⟨hdrop, hroom⟩ := cursor_drop w v ws rest
      obtain ⟨token, htoken, hlen⟩ : ∃ token : Token, Protocol.getTokenLen
          (lineText (v :: ws) ++ LF :: rest) (lineText (v :: ws)).length = some token ∧
            token.len = v.length := by
        cases ws with
        | nil => exact ⟨_, (cursor_last (hrest v (by simp)) rest).1, rfl⟩
        | cons u ws =>
            have hmore : ∀ x ∈ u :: ws, IsToken x := fun x hx =>
              hrest x (List.mem_cons_of_mem v hx)
            exact ⟨_, (cursor_next (hrest v (by simp)) hmore rest).1, rfl⟩
      rw [gatLoop]
      simp only [hblanked, hdrop, hroom, htoken, hlen, pushKey_word, Option.bind_eq_bind,
        Option.bind_some]
      rw [ih hrest (by simpa using hfuel), List.append_assoc, List.length_append, length_copies,
        ← copies_append]
      rfl

/-- The copies are the words, each with the zero byte that ends it, exactly if they are the
words that were copied and the memory behind them was zero. -/
theorem copies_dropLast_iff (garbage : Garbage) (n : ℕ) :
    copies garbage n (w :: ws).dropLast = ws.map (· ++ [0]) ↔
      (∀ x ∈ ws, x = w) ∧ ∀ i < ws.length, garbage.block (n + i) w.length = 0 := by
  induction ws generalizing w n with
  | nil => simp [copies]
  | cons v ws ih =>
      have hfirst : w ++ [garbage.block n w.length] = v ++ [0] ↔
          w = v ∧ garbage.block n w.length = 0 := by
        constructor
        · intro heq
          obtain ⟨hwv, hbyte⟩ := List.append_inj' heq rfl
          exact ⟨hwv, by simpa using hbyte⟩
        · rintro ⟨rfl, hbyte⟩
          rw [hbyte]
      rw [List.dropLast_cons_cons, copies, List.map_cons, List.cons_eq_cons, hfirst, ih]
      constructor
      · rintro ⟨⟨rfl, hbyte⟩, hall, hzero⟩
        refine ⟨by simpa using hall, fun i hi => ?_⟩
        cases i with
        | zero => exact hbyte
        | succ i =>
            have hnext := hzero i (by simpa using hi)
            rwa [Nat.add_right_comm, Nat.add_assoc] at hnext
      · rintro ⟨hall, hzero⟩
        obtain rfl : v = w := hall v (by simp)
        refine ⟨⟨rfl, hzero 0 (by simp)⟩, fun x hx => hall x (by simp [hx]), fun i hi => ?_⟩
        have hnext := hzero (i + 1) (by simpa using hi)
        rwa [Nat.add_right_comm, Nat.add_assoc]

end Words

/-! ## `sscanf` on a word -/

/-- A word without white space in it: printable bytes only. -/
def IsWord (w : List UInt8) : Prop := w ≠ [] ∧ ∀ d ∈ w, 32 < d ∧ d ≠ 127

instance (w : List UInt8) : Decidable (IsWord w) :=
  @instDecidableAnd _ _ inferInstance (List.decidableBAll _ w)

theorem IsWord.token {w : List UInt8} (h : IsWord w) : IsToken w := by
  refine ⟨h.1, fun d hd => Protocol.endsToken_eq_false.mpr ?_⟩
  have hlt : 32 < d := (h.2 d hd).1
  refine ⟨?_, ?_, ?_⟩ <;> rintro rfl <;> exact absurd hlt (by decide)

/-- A command word is no number. -/
theorem scanField_letter {α : Type} {c : UInt8} (hc : isspace c = false)
    (hsign : c ≠ 43 ∧ c ≠ 45) (hdigit : isdigit c = false) (rest : List UInt8) (field val : α) :
    scanField (c :: rest) field val = some val := by
  simp [scanField, sscanfConverts, skipSpace, hc, hsign, hdigit]

theorem isdigit_decimal (n : UInt32) : ∀ d ∈ decimal n, isdigit d = true := by
  intro d hd
  obtain ⟨c, hc, rfl⟩ := List.mem_map.mp hd
  have hdigit : c.isDigit := Nat.isDigit_of_mem_toDigits (by decide) (by decide) hc
  exact (Bool.and_eq_true_iff.mp (digit_byte hdigit).1).2

theorem decimal_ne_nil (n : UInt32) : decimal n ≠ [] := by
  simp [decimal, Nat.toDigits_ne_nil]

theorem not_space_of_digit {d : UInt8} (h : isdigit d = true) :
    isspace d = false ∧ d ≠ 43 ∧ d ≠ 45 ∧ 32 < d ∧ d ≠ 127 := by
  have hrange : 48 ≤ d.toNat ∧ d.toNat ≤ 57 := by
    simpa [isdigit, UInt8.le_iff_toNat_le] using h
  have hne : ∀ c : UInt8, (c.toNat < 48 ∨ 57 < c.toNat) → d ≠ c := by
    rintro c hc rfl
    omega
  have hgt : ¬ d ≤ 13 := by
    rw [UInt8.le_iff_toNat_le]
    exact fun hle => absurd (hrange.1.trans hle) (by decide)
  refine ⟨?_, hne 43 (by decide), hne 45 (by decide), ?_, hne 127 (by decide)⟩
  · simp [isspace, hne SP (by decide), hgt]
  · rw [UInt8.lt_iff_toNat_lt]
    exact Nat.lt_of_lt_of_le (by decide) hrange.1

/-- A number is one. -/
theorem scanField_decimal {α : Type} (n : UInt32) (rest : List UInt8) (field val : α) :
    scanField (decimal n ++ rest) field val = some field := by
  have hdigits := isdigit_decimal n
  cases hdec : decimal n with
  | nil => exact absurd hdec (decimal_ne_nil n)
  | cons c digits =>
      rw [hdec] at hdigits
      have hc := hdigits c (by simp)
      obtain ⟨hspace, hplus, hminus, -⟩ := not_space_of_digit hc
      simp [scanField, sscanfConverts, skipSpace, hspace, hplus, hminus, hc]

theorem isWord_decimal (n : UInt32) : IsWord (decimal n) :=
  ⟨decimal_ne_nil n, fun d hd => (not_space_of_digit (isdigit_decimal n d hd)).2.2.2⟩

/-! ## Commands -/

/-- A command with keys. -/
inductive Command where
  | get (keys : List (List UInt8)) : Command
  | delete (key : List UInt8) : Command
  | incr (key value : List UInt8) : Command
  | decr (key value : List UInt8) : Command
  | touch (key : List UInt8) (exptime : UInt32) : Command
  | gat (exptime : UInt32) (keys : List (List UInt8)) : Command

namespace Command

/-- The word for it. -/
def name : Command → List UInt8
  | .get _ => chars "get"
  | .delete _ => chars "delete"
  | .incr _ _ => chars "incr"
  | .decr _ _ => chars "decr"
  | .touch _ _ => chars "touch"
  | .gat _ _ => chars "gat"

def keys : Command → List (List UInt8)
  | .get keys => keys
  | .delete key => [key]
  | .incr key _ => [key]
  | .decr key _ => [key]
  | .touch key _ => [key]
  | .gat _ keys => keys

def exptime : Command → Option UInt32
  | .touch _ exptime => some exptime
  | .gat exptime _ => some exptime
  | _ => none

/-- The words behind the name. -/
def operands : Command → List (List UInt8)
  | .get keys => keys
  | .delete key => [key]
  | .incr key value => [key, value]
  | .decr key value => [key, value]
  | .touch key exptime => [key, decimal exptime]
  | .gat exptime keys => decimal exptime :: keys

/-- Its line, up to the LF. -/
def text (c : Command) : List UInt8 := lineText (c.name :: c.operands)

/-- It has a key, and its operands are words. -/
structure WellFormed (c : Command) : Prop where
  keys : c.keys ≠ []
  operands : ∀ w ∈ c.operands, IsWord w

/-- The request has the keys, each ended by a zero byte, and the expiration time. -/
structure IsReadBy (c : Command) (req : Request) : Prop where
  keys : req.keys = c.keys.map (· ++ [0])
  exptime : ∀ e, c.exptime = some e → req.expiration = e

/-- The command names itself as each of its keys, the memory behind the copies of its name
is zero, and `val` holds the expiration time. -/
structure ReadsAsWritten (c : Command) (garbage : Garbage) : Prop where
  no_gat : c.name ≠ chars "gat"
  keys : ∀ k ∈ c.keys, k = c.name
  block : ∀ i < c.keys.length, garbage.block i c.name.length = 0
  exptime : ∀ e, c.exptime = some e → garbage.val = e

/-- Where the table has it. -/
def code : Command → ℕ
  | .get _ => 1
  | .delete _ => 7
  | .incr _ _ => 10
  | .decr _ _ => 11
  | .touch _ _ => 12
  | .gat _ _ => 13

theorem methodsName_code (c : Command) : methodsName[c.code]? = some c.name := by
  cases c <;> rfl

theorem isWord_name (c : Command) : IsWord c.name := by
  have hall : ∀ name ∈ methodsName, IsWord name := by decide
  exact hall c.name (List.mem_of_getElem? c.methodsName_code)

end Command

/-- The request as the constructor has it before the operands. -/
def Request.start (mem : Request) (seq nxtSeq : UInt32) (hdlen methodCode : ℕ) : Request :=
  { mem with
    seq := seq, nxtSeq := nxtSeq, hdlen := hdlen, methodCode := methodCode, keys := [] }

section Constructor

variable (garbage : Garbage) {c : Command} (hc : c.WellFormed) (rest : List UInt8)

include hc in
theorem Command.WellFormed.tokens : ∀ w ∈ c.name :: c.operands, IsToken w := by
  intro w hw
  rcases List.mem_cons.mp hw with rfl | hw
  · exact c.isWord_name.token
  · exact (hc.operands w hw).token

include hc in
/-- The constructor comes to the operands of the line. -/
theorem new_line (mem : Request) {dataend : ℕ} (hend : c.text.length ≤ dataend)
    (seq nxtSeq : UInt32) :
    Request.new garbage mem (c.text ++ LF :: rest) dataend seq nxtSeq =
      (mem.start seq nxtSeq (c.text.length + 1) c.code).readOperands garbage (c.text ++ LF :: rest)
        c.text.length := by
  have hLF : LF ∉ c.text := lineText_no_lf hc.tokens
  have hline := Protocol.findLineEnd_crlf c.text rest hLF (lineText_getLast _) hend
  have hmethod : parseMethod (c.text ++ LF :: rest) (c.text.length + 1) = some c.code := by
    have htoken : methodToken (c.text ++ [LF]) = c.name := by
      have hgo : ∀ d ∈ c.name, (d = SP || d = CR) = false := by
        intro d hd
        have hplain := Protocol.endsToken_eq_false.mp (c.isWord_name.token.2 d hd)
        simp [hplain]
      unfold methodToken Command.text
      cases c.operands with
      | nil =>
          rw [lineText, List.append_assoc]
          exact tokenOf_stop hgo (by decide) _
      | cons v ws =>
          rw [lineText, List.append_assoc]
          exact tokenOf_stop hgo (by decide) _
    have hparse := parseMethod_line (c.text ++ [LF]) rest
    rw [htoken, methodsName_table.codeOf_name c.methodsName_code] at hparse
    simpa using hparse
  have hcode : c.code ≠ 0 := by
    cases c <;> simp [Command.code]
  unfold Request.new
  rw [hline]
  simp only [hmethod, hcode, Option.bind_eq_bind, Option.bind_some, if_false]
  rfl

/-- What `sscanf` makes of a word. -/
theorem scanField_word {α : Type} {w : List UInt8} (h : IsWord w) (d : UInt8) (more : List UInt8)
    (field val : α) : ∃ x, scanField (w ++ d :: more) field val = some x := by
  obtain ⟨hne, hword⟩ := h
  cases w with
  | nil => exact absurd rfl hne
  | cons c w =>
      have hc : 32 < c := (hword c (by simp)).1
      have hspace : isspace c = false := by
        have hSP : c ≠ SP := by
          rintro rfl
          exact absurd hc (by decide)
        have hgt : ¬ c ≤ 13 := by
          rw [UInt8.le_iff_toNat_le]
          rw [UInt8.lt_iff_toNat_lt] at hc
          exact fun hle => absurd (hc.trans_le hle) (by decide)
        simp [isspace, hSP, hgt]
      have hnext : ∃ e, (c :: (w ++ d :: more))[1]? = some e := by
        cases w with
        | nil => exact ⟨d, rfl⟩
        | cons e w => exact ⟨e, rfl⟩
      obtain ⟨e, he⟩ := hnext
      have hconverts : ∃ b, sscanfConverts (c :: (w ++ d :: more)) = some b := by
        unfold sscanfConverts
        simp only [skipSpace, hspace, Bool.false_eq_true, if_false, Option.bind_eq_bind,
          Option.bind_some, List.head?_cons, he]
        split <;> exact ⟨_, rfl⟩
      obtain ⟨b, hb⟩ := hconverts
      unfold scanField
      rw [List.cons_append, hb]
      cases b <;> exact ⟨_, rfl⟩

variable (req : Request) (hreq : req.methodCode = c.code)

include hreq in
theorem hasMethod_code (name : String) : req.hasMethod name = decide (c.name = chars name) := by
  simp [Request.hasMethod, hreq, c.methodsName_code]

end Constructor

section Operands

variable (garbage : Garbage) (rest : List UInt8) (req : Request)

/-- The operands of the command are read, and are right exactly if they read as written. -/
def OperandsRead (c : Command) : Prop :=
  ∃ req', req.readOperands garbage (c.text ++ LF :: rest) c.text.length = some req' ∧
    (c.IsReadBy req' ↔ c.ReadsAsWritten garbage)

theorem operandsRead_get {keys : List (List UInt8)} (hc : (Command.get keys).WellFormed)
    (hreq : req.methodCode = 1) : OperandsRead garbage rest req (.get keys) := by
  have hm : ∀ name, req.hasMethod name = decide (chars "get" = chars name) :=
    @hasMethod_code (.get keys) req hreq
  have hfuel : keys.length < (Command.get keys).text.length + 1 := by
    have hle := length_le_lineText (chars "get" :: keys)
    rw [List.length_cons] at hle
    exact Nat.lt_succ_of_lt hle
  have hloop : getLoop garbage ((Command.get keys).text.length + 1)
      ((Command.get keys).text ++ LF :: rest) (Command.get keys).text.length [] =
        some (copies garbage 0 (chars "get" :: keys).dropLast) :=
    getLoop_words garbage hc.tokens rest hfuel []
  refine ⟨{ req with keys := copies garbage 0 (chars "get" :: keys).dropLast }, ?_, ?_⟩
  · unfold Request.readOperands
    rw [hm, if_pos (by decide), hloop]
    rfl
  · have hiff := @copies_dropLast_iff (chars "get") keys garbage 0
    simp only [Nat.zero_add] at hiff
    constructor
    · intro h
      obtain ⟨hkeys, hblock⟩ := hiff.mp h.keys
      have hgat : chars "get" ≠ chars "gat" := by decide
      exact ⟨hgat, hkeys, hblock, fun e he => by cases he⟩
    · intro h
      exact ⟨hiff.mpr ⟨h.keys, h.block⟩, fun e he => by cases he⟩

/-- The copy of the command's name is the key exactly if the command names itself. -/
theorem copies_name_iff (name key : List UInt8) :
    copies garbage 0 [name] = [key].map (· ++ [0]) ↔
      (∀ k ∈ [key], k = name) ∧ ∀ i < [key].length, garbage.block i name.length = 0 := by
  have hiff := @copies_dropLast_iff name [key] garbage 0
  simpa using hiff

/-- `delete`, `incr` and `decr` copy the first word. -/
theorem operandsRead_key {c : Command} (hc : c.WellFormed) (hreq : req.methodCode = c.code)
    {key : List UInt8} {ws : List (List UInt8)} (hkeys : c.keys = [key])
    (hoperands : c.operands = key :: ws) (hexptime : c.exptime = none)
    (hname : c.name = chars "delete" ∨ c.name = chars "incr" ∨ c.name = chars "decr") :
    OperandsRead garbage rest req c := by
  have hm := hasMethod_code req hreq
  have htokens := hc.tokens
  have htext : c.text = lineText (c.name :: key :: ws) := by
    rw [Command.text, hoperands]
  rw [hoperands] at htokens
  obtain ⟨-, -, hended⟩ := cursor_next (htokens c.name (by simp))
    (fun x hx => htokens x (List.mem_cons_of_mem _ hx)) rest
  refine ⟨{ req with keys := copies garbage 0 [c.name] }, ?_, ?_⟩
  · have hbranch : (req.hasMethod "get" = false ∧ req.hasMethod "touch" = false) ∧
        (req.hasMethod "delete" || req.hasMethod "incr" || req.hasMethod "decr" ||
          req.hasMethod "touch") = true := by
      simp only [hm]
      rcases hname with h | h | h <;> rw [h] <;> decide
    obtain ⟨⟨hget, htouch⟩, hkey⟩ := hbranch
    have hpush : pushKey garbage [] (c.text ++ LF :: rest) c.name.length =
        some (copies garbage 0 [c.name]) := by
      rw [htext]
      exact pushKey_word garbage [] c.name (key :: ws) rest
    have htouch' : ∀ keys, ({ req with keys := keys } : Request).hasMethod "touch" = false :=
      fun _ => htouch
    rw [← htext] at hended
    unfold Request.readOperands
    rw [hget, hkey]
    simp only [hended, hpush, htouch', Bool.false_eq_true, if_false, if_true, Option.bind_eq_bind,
      Option.bind_some]
    rfl
  · have hiff := copies_name_iff garbage c.name key
    rw [← hkeys] at hiff
    have hgat : c.name ≠ chars "gat" := by
      rcases hname with h | h | h <;> rw [h] <;> decide
    constructor
    · intro h
      obtain ⟨hkey, hblock⟩ := hiff.mp h.keys
      exact ⟨hgat, hkey, hblock, fun e he => by simp [hexptime] at he⟩
    · intro h
      exact ⟨hiff.mpr ⟨h.keys, h.block⟩, fun e he => by simp [hexptime] at he⟩

/-- `touch` besides scans the word that it takes for the time: the key. -/
theorem operandsRead_touch {key : List UInt8} {e : UInt32} (hc : (Command.touch key e).WellFormed)
    (hreq : req.methodCode = 12) : OperandsRead garbage rest req (.touch key e) := by
  have hm : ∀ name, req.hasMethod name = decide (chars "touch" = chars name) :=
    @hasMethod_code (.touch key e) req hreq
  have hkey : IsWord key := hc.operands key (by simp [Command.operands])
  have hrest : ∀ x ∈ [key, decimal e], IsToken x := fun x hx =>
    hc.tokens x (List.mem_cons_of_mem _ hx)
  have htext : (Command.touch key e).text = lineText [chars "touch", key, decimal e] := rfl
  obtain ⟨-, -, hended⟩ := cursor_next (Command.isWord_name (.touch key e)).token hrest rest
  obtain ⟨hdrop, hroom⟩ := cursor_drop (chars "touch") key [decimal e] rest
  obtain ⟨-, -, hended'⟩ := cursor_next hkey.token
    (fun x hx => hrest x (List.mem_cons_of_mem _ hx)) rest
  have hpush := pushKey_word garbage [] (chars "touch") [key, decimal e] rest
  have hline : lineText [key, decimal e] ++ LF :: rest =
      key ++ SP :: (lineText [decimal e] ++ LF :: rest) := by simp [lineText]
  obtain ⟨x, hx⟩ := scanField_word hkey SP (lineText [decimal e] ++ LF :: rest) req.expiration
    garbage.val
  rw [← hline] at hx
  refine ⟨{ req with keys := copies garbage 0 [chars "touch"], expiration := x }, ?_, ?_⟩
  · unfold Request.readOperands
    have htouch : ∀ keys, ({ req with keys := keys } : Request).hasMethod "touch" = true := by
      intro keys
      exact (hm "touch").trans (by decide)
    rw [hm, if_neg (by decide), if_pos (by simp [hm]), htext]
    have hname : Command.name (.touch key e) = chars "touch" := rfl
    rw [hname] at hended
    simp only [hended, hended', hpush, hdrop, hroom, htouch, hx, if_true, Option.bind_eq_bind,
      Option.bind_some]
    rfl
  · have hiff := copies_name_iff garbage (chars "touch") key
    have hscan : key = chars "touch" → x = garbage.val := by
      rintro rfl
      have hval : scanField (lineText [chars "touch", decimal e] ++ LF :: rest) req.expiration
          garbage.val = some garbage.val :=
        scanField_letter (by decide) (by decide) (by decide) _ _ _
      exact Option.some.inj (hx.symm.trans hval)
    have hgat : chars "touch" ≠ chars "gat" := by decide
    constructor
    · intro h
      obtain ⟨hkeys, hblock⟩ := hiff.mp h.keys
      refine ⟨hgat, hkeys, hblock, fun t ht => ?_⟩
      rw [← hscan (hkeys key (by simp))]
      exact h.exptime t ht
    · intro h
      refine ⟨hiff.mpr ⟨h.keys, h.block⟩, fun t ht => ?_⟩
      rw [← h.exptime t ht]
      exact hscan (h.keys key (List.mem_singleton_self key))

/-- `gat` copies one word too many. -/
theorem operandsRead_gat {keys : List (List UInt8)} {e : UInt32}
    (hc : (Command.gat e keys).WellFormed) (hreq : req.methodCode = 13) :
    OperandsRead garbage rest req (.gat e keys) := by
  have hm : ∀ name, req.hasMethod name = decide (chars "gat" = chars name) :=
    @hasMethod_code (.gat e keys) req hreq
  have hrest : ∀ x ∈ decimal e :: keys, IsToken x := fun x hx =>
    hc.tokens x (List.mem_cons_of_mem _ hx)
  obtain ⟨-, -, hended⟩ := cursor_next (Command.isWord_name (.gat e keys)).token hrest rest
  have hfuel : (decimal e :: keys).length < (Command.gat e keys).text.length + 1 := by
    have hle := length_le_lineText (chars "gat" :: decimal e :: keys)
    rw [List.length_cons] at hle
    exact Nat.lt_succ_of_lt hle
  have hloop : gatLoop garbage ((Command.gat e keys).text.length + 1)
      ((Command.gat e keys).text ++ LF :: rest) (Command.gat e keys).text.length [] =
        some (copies garbage 0 (decimal e :: keys)) :=
    gatLoop_words garbage hc.tokens rest hfuel []
  have hscan : scanField ((Command.gat e keys).text ++ LF :: rest) req.expiration garbage.val =
      some garbage.val := scanField_letter (by decide) (by decide) (by decide) _ _ _
  refine ⟨{ req with keys := copies garbage 0 (decimal e :: keys), expiration := garbage.val },
    ?_, ?_⟩
  · unfold Request.readOperands
    have hended' : endedToken ((Command.gat e keys).text ++ LF :: rest)
        (Command.gat e keys).text.length = some (some ⟨_, _⟩) := hended
    rw [hm, if_neg (by decide), if_neg (by simp only [hm]; decide), if_pos (by simp [hm])]
    simp only [hended', hscan, hloop, Option.bind_eq_bind, Option.bind_some]
    rfl
  · refine iff_of_false (fun h => ?_) fun h => h.no_gat rfl
    have hlen : (copies garbage 0 (decimal e :: keys)).length = (keys.map (· ++ [0])).length :=
      congrArg List.length h.keys
    rw [length_copies, List.length_map, List.length_cons] at hlen
    omega

/-- Every command. -/
theorem operandsRead {c : Command} (hc : c.WellFormed) (hreq : req.methodCode = c.code) :
    OperandsRead garbage rest req c := by
  cases c with
  | get keys => exact operandsRead_get garbage rest req hc hreq
  | delete key => exact operandsRead_key garbage rest req hc hreq rfl rfl rfl (.inl rfl)
  | incr key value =>
      exact operandsRead_key garbage rest req hc hreq rfl rfl rfl (.inr (.inl rfl))
  | decr key value =>
      exact operandsRead_key garbage rest req hc hreq rfl rfl rfl (.inr (.inr rfl))
  | touch key e => exact operandsRead_touch garbage rest req hc hreq
  | gat e keys => exact operandsRead_gat garbage rest req hc hreq

end Operands

/-! ## Responses -/

/-- The line of a `VALUE`, up to the LF. -/
def valueLine (key : List UInt8) (flags : UInt8) (bytes : UInt32) : List UInt8 :=
  lineText [chars "VALUE", key, decimal flags.toUInt32, decimal bytes]

theorem parseStatus_value (key : List UInt8) (flags : UInt8) (bytes : UInt32)
    (rest : List UInt8) :
    parseStatus (valueLine key flags bytes ++ LF :: rest)
      ((valueLine key flags bytes).length + 1) = some 0 := by
  have htoken : lookedUp (valueLine key flags bytes ++ [LF]) = chars "VALUE" := by
    have hsplit : valueLine key flags bytes ++ [LF] = chars "VALUE" ++
        SP :: (lineText [key, decimal flags.toUInt32, decimal bytes] ++ [LF]) := by
      rw [valueLine, lineText, List.append_assoc]
      rfl
    have hname : IsToken (chars "VALUE") := by decide
    rw [hsplit]
    exact tokenOf_stop hname.no_blank (by decide) _
  have hparse := parseStatus_line (valueLine key flags bytes ++ [LF]) rest
  have hplace : (status.findIdx? fun name => decide (Abbreviates (chars "VALUE") name)) = some 0 :=
    by decide
  rw [htoken, hplace] at hparse
  simpa using hparse

section Value

variable (garbage : Garbage) (rest : List UInt8) (rsp : Response) {key : List UInt8}
  (flags : UInt8) (bytes : UInt32)

/-- The response has the key, ended by a zero byte, the flags and the length of the body. -/
structure Response.HasValue (key : List UInt8) : Prop where
  keys : rsp.keys = [key ++ [0]]
  flags : rsp.flags = flags
  bodylen : rsp.bodylen = bytes

/-- The key is `VALUE`, the memory behind the copy of that word is zero, and `Flgs` and the
length in memory are those of the line. -/
structure ValueReadsAsWritten (key : List UInt8) : Prop where
  key : key = chars "VALUE"
  block : garbage.block 0 5 = 0
  flgs : garbage.flgs = flags
  bodylen : rsp.bodylen = bytes

/-- The operands of a `VALUE` are read, and are right exactly if they read as written. -/
theorem readValue_line (hkey : IsWord key) :
    ∃ rsp', rsp.readValue garbage (valueLine key flags bytes ++ LF :: rest)
        (valueLine key flags bytes).length = some rsp' ∧
      (rsp'.HasValue flags bytes key ↔ ValueReadsAsWritten garbage rsp flags bytes key) := by
  have hname : IsToken (chars "VALUE") := by decide
  have hflags := (isWord_decimal flags.toUInt32).token
  have hbytes := (isWord_decimal bytes).token
  have hwords₁ : ∀ x ∈ [decimal bytes], IsToken x := by simpa using hbytes
  have hwords₂ : ∀ x ∈ [decimal flags.toUInt32, decimal bytes], IsToken x := by
    simpa using ⟨hflags, hbytes⟩
  have hwords₃ : ∀ x ∈ [key, decimal flags.toUInt32, decimal bytes], IsToken x := by
    simpa using ⟨hkey.token, hflags, hbytes⟩
  -- the cursor stands at the command, then at the key, then at the flags
  obtain ⟨htoken, hblanked, -⟩ := cursor_next hname hwords₃ rest
  obtain ⟨htoken', hblanked', -⟩ := cursor_next hkey.token hwords₂ rest
  obtain ⟨htoken'', -, hended⟩ := cursor_next hflags hwords₁ rest
  obtain ⟨hdrop, hroom⟩ := cursor_drop (chars "VALUE") key
    [decimal flags.toUInt32, decimal bytes] rest
  obtain ⟨hdrop', hroom'⟩ := cursor_drop key (decimal flags.toUInt32) [decimal bytes] rest
  have hpush := pushKey_word garbage [] (chars "VALUE")
    [key, decimal flags.toUInt32, decimal bytes] rest
  have hline : lineText [key, decimal flags.toUInt32, decimal bytes] ++ LF :: rest =
      key ++ SP :: (lineText [decimal flags.toUInt32, decimal bytes] ++ LF :: rest) := by
    simp [lineText]
  obtain ⟨x, hx⟩ := scanField_word hkey SP
    (lineText [decimal flags.toUInt32, decimal bytes] ++ LF :: rest) rsp.flags garbage.flgs
  rw [← hline] at hx
  have hlength : scanField (lineText [decimal flags.toUInt32, decimal bytes] ++ LF :: rest)
      rsp.bodylen garbage.val = some rsp.bodylen := by
    rw [lineText, List.append_assoc]
    exact scanField_decimal _ _ _ _
  refine ⟨{ rsp with keys := copies garbage 0 [chars "VALUE"], flags := x }, ?_, ?_⟩
  · unfold Response.readValue valueLine
    simp only [htoken, hblanked, hpush, hdrop, hroom, htoken', hblanked', hx, hdrop', hroom',
      hended, hlength, Option.bind_eq_bind, Option.bind_some]
    rfl
  · have hiff := copies_name_iff garbage (chars "VALUE") key
    have hscan : key = chars "VALUE" → x = garbage.flgs := by
      rintro rfl
      have hflgs : scanField (lineText [chars "VALUE", decimal flags.toUInt32, decimal bytes] ++
          LF :: rest) rsp.flags garbage.flgs = some garbage.flgs :=
        scanField_letter (by decide) (by decide) (by decide) _ _ _
      exact Option.some.inj (hx.symm.trans hflgs)
    constructor
    · intro h
      obtain ⟨hkeys, hblock⟩ := hiff.mp h.keys
      have hself := hkeys key (List.mem_singleton_self key)
      exact ⟨hself, hblock 0 Nat.one_pos, (hscan hself).symm.trans h.flags, h.bodylen⟩
    · intro h
      have hblock : ∀ i < [key].length, garbage.block i (chars "VALUE").length = 0 := by
        intro i hi
        obtain rfl : i = 0 := by simpa using hi
        exact h.block
      exact ⟨hiff.mpr ⟨by simpa using h.key, hblock⟩, (hscan h.key).trans h.flgs, h.bodylen⟩

end Value

end MemCached

/-- **memcached's operands.**  For every command with keys, and every `VALUE` line, whatever
follows them and whatever the memory holds: the constructors read the line, and what they
store are the operands of the line if and only if it is a command other than `gat` that names
itself as each of its keys, the memory behind the copied names is zero, and the numbers stand
in the memory already. -/
theorem memcached_operands_iff (garbage : MemCached.Garbage) (mem : MemCached.Request)
    (mem' : MemCached.Response) {c : MemCached.Command} (hc : c.WellFormed) {key : List UInt8}
    (hkey : MemCached.IsWord key) (flags : UInt8) (bytes : UInt32) (body more : List UInt8)
    (seq nxtSeq : UInt32) (ack : Int) :
    (∃ req, MemCached.Request.new garbage mem (c.text ++ LF :: (body ++ more))
        (c.text ++ LF :: body).length seq nxtSeq = some req ∧
      (c.IsReadBy req ↔ c.ReadsAsWritten garbage)) ∧
    ∃ rsp, MemCached.Response.new garbage mem'
        (MemCached.valueLine key flags bytes ++ LF :: (body ++ more))
        (MemCached.valueLine key flags bytes ++ LF :: body).length ack = some rsp ∧
      (rsp.HasValue flags bytes key ↔
        MemCached.ValueReadsAsWritten garbage mem' flags bytes key) := by
  constructor
  · rw [MemCached.new_line garbage hc (body ++ more) mem (by simp) seq nxtSeq]
    exact MemCached.operandsRead garbage (body ++ more) _ hc rfl
  · have hLF : LF ∉ MemCached.valueLine key flags bytes := by
      refine MemCached.lineText_no_lf ?_
      have hname : IsToken (chars "VALUE") := by decide
      simpa using ⟨hname, hkey.token, (MemCached.isWord_decimal flags.toUInt32).token,
        (MemCached.isWord_decimal bytes).token⟩
    have hend : (MemCached.valueLine key flags bytes).length ≤
        (MemCached.valueLine key flags bytes ++ LF :: body).length := by simp
    have hline := Protocol.findLineEnd_crlf _ (body ++ more) hLF
      (MemCached.lineText_getLast _) hend
    have hstatus := MemCached.parseStatus_value key flags bytes (body ++ more)
    have hvalue : MemCached.status[0]? = some (chars "VALUE") := by decide
    obtain ⟨rsp, hrsp, hiff⟩ := MemCached.readValue_line garbage (body ++ more)
      { mem' with
        acknowledgement := ack, hdlen := (MemCached.valueLine key flags bytes).length + 1,
        statusCode := 0, keys := [] } flags bytes hkey
    refine ⟨rsp, ?_, hiff.trans ⟨fun h => ⟨h.key, h.block, h.flgs, h.bodylen⟩, fun h =>
      ⟨h.key, h.block, h.flgs, h.bodylen⟩⟩⟩
    unfold MemCached.Response.new
    rw [hline]
    simp only [hstatus, hvalue, Option.bind_eq_bind, Option.bind_some, if_true]
    exact hrsp

theorem memcached_operands_iff_delete :
    (MemCached.Command.delete (chars "k")).WellFormed ∧ MemCached.IsWord (chars "k") ∧
      ∃ req, MemCached.Request.new ⟨fun _ _ => 0, 0, 0⟩ default
          ((MemCached.Command.delete (chars "k")).text ++ LF :: ([] ++ []))
          ((MemCached.Command.delete (chars "k")).text ++ [LF]).length 0 0 = some req ∧
        ((MemCached.Command.delete (chars "k")).IsReadBy req ↔
          (MemCached.Command.delete (chars "k")).ReadsAsWritten ⟨fun _ _ => 0, 0, 0⟩) :=
  have hc : (MemCached.Command.delete (chars "k")).WellFormed := ⟨by decide, by decide⟩
  ⟨hc, by decide, (memcached_operands_iff ⟨fun _ _ => 0, 0, 0⟩ default default hc
    (by decide : MemCached.IsWord (chars "k")) 0 0 [] [] 0 0 0).1⟩

/-- `delete k` has the key `delete`. -/
theorem memcached_key_is_command :
    ¬ ∀ (garbage : MemCached.Garbage) (mem : MemCached.Request) (c : MemCached.Command),
      c.WellFormed → ∃ req, MemCached.Request.new garbage mem (c.text ++ [LF])
        (c.text ++ [LF]).length 0 0 = some req ∧ c.IsReadBy req := by
  intro h
  obtain ⟨req, hreq, hread⟩ := h ⟨fun _ _ => 0, 0, 0⟩ default (.delete (chars "k"))
    ⟨by decide, by decide⟩
  have hkeys : (MemCached.Request.new ⟨fun _ _ => 0, 0, 0⟩ default
      ((MemCached.Command.delete (chars "k")).text ++ [LF])
      ((MemCached.Command.delete (chars "k")).text ++ [LF]).length 0 0).map (·.keys) =
        some [chars "delete" ++ [0]] := by decide
  rw [hreq, Option.map_some, hread.keys] at hkeys
  exact absurd hkeys (by decide)

end MonitoringTool.Sniffer
