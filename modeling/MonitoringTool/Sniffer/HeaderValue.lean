import MonitoringTool.Sniffer.HeaderParam

/-!
# The value of a header parameter

A header block is a list of lines, each ended by CR LF, and an empty one.  `header_param`
returns the bytes behind the parameter and the blanks of the first line that begins with
it.  If there are none, its trimming stops at `c`, which is the CR, and the CR is returned
for the empty value.
-/

namespace MonitoringTool.Sniffer

/-- The header block with the lines. -/
def headerBlock (lines : List (List UInt8)) : List UInt8 :=
  lines.flatMap (· ++ [CR, LF]) ++ [CR, LF]

/-- The value in a line that begins with the parameter: what follows, without the leading
blanks. -/
def headerValue (param line : List UInt8) : List UInt8 :=
  (line.drop param.length).dropWhile (· = SP)

/-- What `header_param` makes of the line. -/
def copiedValue (param line : List UInt8) : List UInt8 :=
  if headerValue param line = [] then [CR] else headerValue param line

/-- A line has no line end in it. -/
def PlainLine (line : List UInt8) : Prop := CR ∉ line ∧ LF ∉ line

instance (line : List UInt8) : Decidable (PlainLine line) := by
  unfold PlainLine
  infer_instance

/-! ## One line -/

/-- A parameter without CR begins a line or what follows it exactly if it begins the line. -/
theorem startsWith_append_iff {param text rest : List UInt8} (hCR : CR ∉ param) :
    StartsWith param (text ++ CR :: rest) ↔ StartsWith param text := by
  unfold StartsWith
  induction param generalizing text with
  | nil => simp
  | cons c param ih =>
      have hc : c ≠ CR := fun h => hCR (by simp [h])
      have hrest : CR ∉ param := fun h => hCR (by simp [h])
      cases text with
      | nil =>
          have hne : ¬ tolower c = tolower CR := fun h => hc ((tolower_eq_iff (.inl rfl)).mp h)
          simp [List.cons_prefix_cons, hne]
      | cons d text =>
          simp only [List.cons_append, List.map_cons, List.cons_prefix_cons, ih hrest]

namespace Protocol

/-- `find_line_end` on a line that CR LF ends. -/
theorem findLine_crlf {text rest : List UInt8} {dataend : ℕ} (hLF : LF ∉ text)
    (hend : text.length + 1 ≤ dataend) :
    findLine (text ++ CR :: LF :: rest) dataend =
      some { lineend := text.length + 1, eol := text.length } := by
  have hfound : memchr LF (text ++ CR :: LF :: rest) (dataend + 1) =
      some (some (text.length + 1)) :=
    memchr_eq_some_iff.mpr ⟨text ++ [CR], rest, by simp, by simpa using ⟨hLF, by decide⟩,
      by simp, by omega⟩
  unfold findLine
  rw [hfound]
  simp

/-- The blanks are skipped, up to a byte that is none. -/
theorem skipBlanks_eq (before : List UInt8) {blanks : List UInt8} {d : UInt8} (rest : List UInt8)
    (hblanks : ∀ b ∈ blanks, b = SP) (hd : d ≠ SP) {room : ℕ} (hroom : blanks.length ≤ room) :
    skipBlanks (before ++ (blanks ++ d :: rest)) room before.length =
      some (before.length + blanks.length) := by
  induction blanks generalizing before room with
  | nil =>
      cases room with
      | zero => simp [skipBlanks]
      | succ room => simp [skipBlanks, hd]
  | cons b blanks ih =>
      obtain rfl : b = SP := hblanks b (by simp)
      cases room with
      | zero => simp at hroom
      | succ room =>
          have hroom' : blanks.length ≤ room := by simpa using hroom
          have hrest := ih (before ++ [SP]) (fun b hb => hblanks b (by simp [hb])) hroom'
          have hlist : before ++ (SP :: blanks ++ d :: rest) =
              before ++ [SP] ++ (blanks ++ d :: rest) := by simp
          have hread : (before ++ [SP] ++ (blanks ++ d :: rest))[before.length]? = some SP := by
            simp
          have hlen : (before ++ [SP]).length = before.length + 1 := by simp
          rw [hlen] at hrest
          rw [hlist, skipBlanks, hread, Option.bind_eq_bind, Option.bind_some, if_pos rfl, hrest,
            List.length_cons]
          congr 1
          omega

/-- Trimming stops at a byte that is no EOL character. -/
theorem trimEol_stop {header : List UInt8} {room eol : ℕ} {d : UInt8} (hd : header[eol]? = some d)
    (hplain : ¬ (d = CR ∨ d = LF)) : trimEol header room eol = some eol := by
  cases room with
  | zero => rw [trimEol, hd]; rfl
  | succ room =>
      rw [trimEol, hd, Option.bind_eq_bind, Option.bind_some, if_neg hplain]
      rfl

end Protocol

/-- A line that begins with the parameter is the parameter, blanks and the value. -/
theorem StartsWith.split {param text : List UInt8} (h : StartsWith param text) :
    ∃ name blanks, text = name ++ blanks ++ headerValue param text ∧
      name.length = param.length ∧ ∀ b ∈ blanks, b = SP := by
  have hlen : param.length ≤ text.length := by simpa using List.IsPrefix.length_le h
  refine ⟨text.take param.length, (text.drop param.length).takeWhile (· = SP), ?_, ?_, ?_⟩
  · rw [headerValue, List.append_assoc, List.takeWhile_append_dropWhile, List.take_append_drop]
  · exact List.length_take_of_le hlen
  · intro b hb
    simpa using List.mem_takeWhile_imp hb

/-- A value does not begin with a blank. -/
theorem headerValue_head {param text w : List UInt8} {d : UInt8}
    (h : headerValue param text = d :: w) : d ≠ SP := by
  unfold headerValue at h
  have hhead := List.head_dropWhile_not (fun b : UInt8 => decide (b = SP))
    (show (text.drop param.length).dropWhile (fun b => decide (b = SP)) ≠ [] by simp [h])
  simpa [h] using hhead

/-- The copy of a stretch of the header. -/
theorem ParamCopy.ret_stretch (copy : ParamCopy) (front value back : List UInt8)
    (hc : copy.c = front.length)
    (heol : copy.eol + 1 = front.length + value.length) :
    copy.ret (front ++ (value ++ back)) = some value := by
  have hlen : copy.hostLen = (value.length : Int) := by
    unfold ParamCopy.hostLen
    omega
  unfold ParamCopy.ret memcpy
  rw [hlen, if_neg (by omega), Int.toNat_natCast, hc, List.drop_left, List.take_left,
    if_pos (by simp)]

/-- The end goes back to the last byte of the value, if there is one; otherwise it stays
on the CR. -/
theorem Protocol.trimEol_value (front rest : List UInt8) {value : List UInt8}
    (hplain : PlainLine value) :
    ∃ eol, trimEol (front ++ (value ++ CR :: LF :: rest)) value.length
        (front.length + value.length) = some eol ∧
      ∀ copy : ParamCopy, copy.c = front.length → copy.eol = eol →
        copy.ret (front ++ (value ++ CR :: LF :: rest)) =
          some (if value = [] then [CR] else value) := by
  rcases List.eq_nil_or_concat value with rfl | ⟨init, last, rfl⟩
  · refine ⟨front.length, by simp [trimEol], fun copy hc heol => ?_⟩
    have hret := copy.ret_stretch front [CR] (LF :: rest) hc (by simp [heol])
    simpa using hret
  · rw [List.concat_eq_append] at hplain ⊢
    have hCR : (front ++ (init ++ [last] ++ CR :: LF :: rest))[front.length +
        (init.length + 1)]? = some CR := by simp
    have hlast : (front ++ (init ++ [last] ++ CR :: LF :: rest))[front.length + init.length]? =
        some last := by simp
    have hstop : ¬ (last = CR ∨ last = LF) := by
      rintro (rfl | rfl)
      · exact hplain.1 (by simp)
      · exact hplain.2 (by simp)
    refine ⟨front.length + init.length, ?_, fun copy hc heol => ?_⟩
    · rw [List.length_append, List.length_singleton, trimEol, hCR, Option.bind_eq_bind,
        Option.bind_some, if_pos (.inl rfl)]
      exact trimEol_stop hlast hstop
    · rw [if_neg (by simp)]
      exact copy.ret_stretch front _ (CR :: LF :: rest) hc (by simp [heol, Nat.add_assoc])

namespace Protocol

section Line

variable {param text : List UInt8}

/-- `c` comes to stand on the value, or on the CR. -/
theorem skipBlanks_value (before rest : List UInt8) {name blanks : List UInt8}
    (hsplit : text = name ++ blanks ++ headerValue param text) (hblanks : ∀ b ∈ blanks, b = SP)
    {room : ℕ} (hroom : blanks.length ≤ room) :
    skipBlanks (before ++ (text ++ CR :: LF :: rest)) room (before.length + name.length) =
      some (before ++ name ++ blanks).length := by
  obtain ⟨d, tail, htail, hd⟩ : ∃ d tail,
      headerValue param text ++ CR :: LF :: rest = d :: tail ∧ d ≠ SP := by
    cases hvalue : headerValue param text with
    | nil => exact ⟨CR, LF :: rest, rfl, by decide⟩
    | cons d w => exact ⟨d, w ++ CR :: LF :: rest, rfl, headerValue_head hvalue⟩
  have hheader : before ++ (text ++ CR :: LF :: rest) =
      before ++ name ++ (blanks ++ d :: tail) := by
    rw [← htail]
    nth_rewrite 1 [hsplit]
    simp only [List.append_assoc]
  have hskip := skipBlanks_eq (before ++ name) tail hblanks hd hroom
  rw [hheader]
  simpa [Nat.add_assoc] using hskip

variable (hCR : CR ∉ param)

include hCR

/-- A line that does not begin with the parameter does not match. -/
theorem matchLine_other (hLF : LF ∉ param) (before rest : List UInt8)
    (h : ¬ StartsWith param text) :
    matchLine (before ++ (text ++ CR :: LF :: rest)) param before.length
      { lineend := before.length + (text.length + 1), eol := before.length + text.length } =
        some none := by
  have hread : (before ++ (text ++ CR :: LF :: rest))[before.length + text.length]? = some CR := by
    simp
  have hno : ¬ strncasecmpEq (text ++ CR :: LF :: rest) param param.length = some true := by
    rw [strncasecmpEq_eq_true_iff, startsWith_append_iff hCR]
    exact h
  obtain ⟨same, hsame⟩ := Option.isSome_iff_exists.mp (strncasecmpEq_isSome hCR hLF
    (show CR ∈ text ++ CR :: LF :: rest by simp) (.inl rfl))
  cases same with
  | true => exact absurd hsame hno
  | false =>
      unfold matchLine
      simp only [hread, Option.bind_eq_bind, Option.bind_some, List.drop_left, hsame]
      rfl

/-- Of a line that begins with the parameter the value is copied, or the CR. -/
theorem matchLine_value (htext : PlainLine text) (before rest : List UInt8)
    (h : StartsWith param text) :
    ∃ copy, matchLine (before ++ (text ++ CR :: LF :: rest)) param before.length
        { lineend := before.length + (text.length + 1), eol := before.length + text.length } =
          some (some copy) ∧
      copy.ret (before ++ (text ++ CR :: LF :: rest)) = some (copiedValue param text) := by
  obtain ⟨name, blanks, hsplit, hname, hblanks⟩ := h.split
  have hread : (before ++ (text ++ CR :: LF :: rest))[before.length + text.length]? = some CR := by
    simp
  have hsame : strncasecmpEq (text ++ CR :: LF :: rest) param param.length = some true := by
    rw [strncasecmpEq_eq_true_iff, startsWith_append_iff hCR]
    exact h
  have hlen : text.length = param.length + blanks.length + (headerValue param text).length := by
    rw [← hname, ← List.length_append, ← List.length_append, ← hsplit]
  have hskip := skipBlanks_value before rest hsplit hblanks
    (show blanks.length ≤ before.length + (text.length + 1) - (before.length + param.length) by
      omega)
  rw [hname] at hskip
  have hvalue : PlainLine (headerValue param text) := by
    rw [hsplit] at htext
    exact ⟨fun h => htext.1 (by simp [h]), fun h => htext.2 (by simp [h])⟩
  have hheader : before ++ (text ++ CR :: LF :: rest) =
      before ++ name ++ blanks ++ (headerValue param text ++ CR :: LF :: rest) := by
    nth_rewrite 1 [hsplit]
    simp only [List.append_assoc]
  have heol : before.length + text.length =
      (before ++ name ++ blanks).length + (headerValue param text).length := by
    simp only [List.length_append]
    omega
  obtain ⟨eol, htrim, hret⟩ := trimEol_value (before ++ name ++ blanks) rest hvalue
  rw [← hheader, ← heol] at htrim
  rw [← hheader] at hret
  refine ⟨⟨before.length, before.length + (text.length + 1), _, eol⟩, ?_, hret _ rfl rfl⟩
  have hroom : before.length + text.length - (before ++ name ++ blanks).length =
      (headerValue param text).length := by omega
  unfold matchLine
  simp only [hread, Option.bind_eq_bind, Option.bind_some, List.drop_left, hsame, hskip, hroom,
    htrim]
  rfl

end Line

/-! ## All lines -/

/-- The loop from the first of the lines on finds the first that begins with the
parameter. -/
theorem headerParamLoop_block {param : List UInt8} (hCR : CR ∉ param) (hLF : LF ∉ param)
    {lines : List (List UInt8)} (hlines : ∀ line ∈ lines, PlainLine line)
    (before : List UInt8) (hend : ℕ) (lineend : Option ℕ) (fuel : ℕ)
    (hhend : hend + 1 = before.length + (headerBlock lines).length)
    (hgoes : lineend.all (· < hend) = true) :
    ∃ result, headerParamLoop (before ++ headerBlock lines) param hend (fuel + lines.length + 2)
        before.length (headerBlock lines).length lineend = some result ∧
      (result.map fun copy => copy.ret (before ++ headerBlock lines)) =
        (lines.find? (StartsWith param ·)).map fun line => some (copiedValue param line) := by
  induction lines generalizing before lineend with
  | nil =>
      have hfound : findLine ((before ++ headerBlock []).drop before.length)
          ((headerBlock []).length - 1) = some { lineend := 1, eol := 0 } := by
        rw [List.drop_left]
        exact findLine_crlf List.not_mem_nil (by decide)
      refine ⟨none, headerParamLoop_last hgoes hfound ?_ fuel, rfl⟩
      simp [headerBlock] at hhend
      exact hhend.symm
  | cons text lines ih =>
      obtain ⟨htext, hlines⟩ := List.forall_mem_cons.mp hlines
      have hblock : headerBlock (text :: lines) = text ++ CR :: LF :: headerBlock lines := by
        simp [headerBlock]
      have hlen : (headerBlock (text :: lines)).length =
          text.length + 2 + (headerBlock lines).length := by
        rw [hblock]
        simp
        omega
      have hpos : 2 ≤ (headerBlock lines).length := by simp [headerBlock]
      have hfound : findLine ((before ++ headerBlock (text :: lines)).drop before.length)
          ((headerBlock (text :: lines)).length - 1) =
            some { lineend := text.length + 1, eol := text.length } := by
        rw [List.drop_left, hlen, hblock]
        exact findLine_crlf htext.2 (by omega)
      have hlast : before.length + (text.length + 1) ≠ hend := by omega
      by_cases hstarts : StartsWith param text
      · obtain ⟨copy, hmatch, hret⟩ := matchLine_value hCR htext before (headerBlock lines) hstarts
        rw [← hblock] at hmatch hret
        refine ⟨some copy, headerParamLoop_found hgoes hfound hlast hmatch _, ?_⟩
        simp [hstarts, hret]
      · have hmatch := matchLine_other hCR hLF before (headerBlock lines) hstarts
        rw [← hblock] at hmatch
        have hbefore : before ++ headerBlock (text :: lines) =
            before ++ text ++ [CR, LF] ++ headerBlock lines := by
          rw [hblock]
          simp
        have hstart : (before ++ text ++ [CR, LF]).length =
            before.length + (text.length + 1) + 1 := by
          simp
          omega
        have hrest : hend - (before.length + (text.length + 1)) = (headerBlock lines).length := by
          omega
        obtain ⟨result, hloop, hresult⟩ := ih hlines (before ++ text ++ [CR, LF])
          (some (before.length + (text.length + 1))) (by omega) (by simp; omega)
        rw [← hbefore, hstart] at hloop
        rw [← hbefore] at hresult
        refine ⟨result, ?_, ?_⟩
        · have hnext := headerParamLoop_next hgoes hfound hlast hmatch (fuel + lines.length + 2)
          rw [hrest] at hnext
          exact hnext.trans hloop
        · rw [hresult]
          simp [hstarts]

end Protocol

/-- Every line has its CR LF in the block. -/
theorem length_headerBlock_le (lines : List (List UInt8)) :
    2 * lines.length + 2 ≤ (headerBlock lines).length := by
  induction lines with
  | nil => simp [headerBlock]
  | cons line lines ih =>
      simp only [headerBlock, List.flatMap_cons, List.length_append, List.length_cons] at ih ⊢
      omega

/-- `header_param` on a header block. -/
theorem headerParam_block {param : List UInt8} (hCR : CR ∉ param) (hLF : LF ∉ param)
    {lines : List (List UInt8)} (hlines : ∀ line ∈ lines, PlainLine line) :
    Protocol.headerParam (headerBlock lines) param =
      some ((lines.find? (StartsWith param ·)).map (copiedValue param)) := by
  have hlong := length_headerBlock_le lines
  obtain ⟨result, hloop, hresult⟩ := Protocol.headerParamLoop_block hCR hLF hlines []
    ((headerBlock lines).length - 1) none ((headerBlock lines).length - (lines.length + 1))
    (by simp; omega) rfl
  have hfuel : (headerBlock lines).length - (lines.length + 1) + lines.length + 2 =
      (headerBlock lines).length + 1 := by omega
  rw [List.nil_append, hfuel] at hloop
  rw [List.nil_append] at hresult
  unfold Protocol.headerParam
  rw [List.length_nil] at hloop
  simp only [hloop, Option.bind_eq_bind, Option.bind_some]
  cases hfind : lines.find? (StartsWith param ·) with
  | none =>
      obtain rfl : result = none := by simpa [hfind] using hresult
      rfl
  | some line =>
      obtain ⟨copy, rfl, hret⟩ : ∃ copy, result = some copy ∧
          copy.ret (headerBlock lines) = some (copiedValue param line) := by
        simpa [hfind, Option.map_eq_some_iff] using hresult
      simp only [hret, Option.bind_some, Option.map_some]
      rfl

/-- **When `header_param` returns the value.**  For a block of lines without line ends,
and a parameter without, it returns the value of the first line that begins with the
parameter, ignoring case, exactly if that value is not empty; and `NULL` exactly if no
line begins with it. -/
theorem header_param_value_iff {param : List UInt8} (hCR : CR ∉ param) (hLF : LF ∉ param)
    {lines : List (List UInt8)} (hlines : ∀ line ∈ lines, PlainLine line) :
    (Protocol.headerParam (headerBlock lines) param =
        some ((lines.find? (StartsWith param ·)).map (headerValue param)) ↔
      ∀ line, lines.find? (StartsWith param ·) = some line → headerValue param line ≠ []) ∧
      (Protocol.headerParam (headerBlock lines) param = some none ↔
        ∀ line ∈ lines, ¬ StartsWith param line) := by
  rw [headerParam_block hCR hLF hlines]
  constructor
  · cases hfind : lines.find? (StartsWith param ·) with
    | none => simp
    | some line => by_cases hvalue : headerValue param line = [] <;> simp [copiedValue, hvalue]
  · simp

/-- The host of a request. -/
theorem header_param_value_host :
    Protocol.headerParam (headerBlock [chars "GET / HTTP/1.1", chars "host:   a.b"])
      (chars "Host:") = some (some (chars "a.b")) := by
  have hvalue := (header_param_value_iff (show CR ∉ chars "Host:" by decide)
    (show LF ∉ chars "Host:" by decide)
    (show ∀ line ∈ [chars "GET / HTTP/1.1", chars "host:   a.b"], PlainLine line by
      decide)).1.mpr (by decide)
  exact hvalue.trans (by decide)

/-- A host that is not given is a CR. -/
theorem header_param_returns_cr :
    ¬ ∀ (lines : List (List UInt8)) (param : List UInt8), CR ∉ param → LF ∉ param →
      (∀ line ∈ lines, PlainLine line) →
      Protocol.headerParam (headerBlock lines) param =
        some ((lines.find? (StartsWith param ·)).map (headerValue param)) := by
  intro hall
  have hcr := hall [chars "GET / HTTP/1.1", chars "Host:"] (chars "Host:") (by decide) (by decide)
    (by decide)
  exact absurd hcr (by decide)

end MonitoringTool.Sniffer
