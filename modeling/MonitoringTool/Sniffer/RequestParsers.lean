import MonitoringTool.Sniffer.Recognition

/-!
# Classifier and parser of a request

`isRequest` decides on the captured bytes whether a payload is a request; later the
constructor of `Request` parses the copy of the payload, which a zero byte ends.  Both find
the method and the end of the header, each in its own way.

* For HTTP the classifier looks for the method in the whole payload and the constructor in
  its first line.  They part where the payload begins with an empty line, which the
  classifier passes over and the constructor takes for the first line.
* For memcached the classifier hands `find_line_end` a length for a pointer, so that it
  looks for an LF behind the payload as well, and never sees that a CR follows the LF; the
  constructor sees it.

`request_parsers_agree_iff` says for each protocol exactly for which payloads they agree.
-/

namespace MonitoringTool.Sniffer

/-! ## The constructors -/

/-- `Protocol::find_line_end`, with `dataend` the offset of the last byte to look at. -/
def Protocol.findLineEnd (data : List UInt8) (dataend : ℕ) : Option ℕ := do
  match ← memchr LF data (dataend + 1) with
  | none => return dataend
  | some lineend =>
      if 0 < lineend ∧ data[lineend - 1]? ≠ some CR ∧ lineend + 1 < dataend then
        -- <non-CR><LF><CR>: say it ends with the CR
        if (← data[lineend + 1]?) = CR then return lineend + 1 else return lineend
      else return lineend

/-- What the constructors of `Request` store of the first line. -/
structure RequestHead where
  hdlen : ℕ
  methodCode : ℕ
  deriving DecidableEq

/-- `_http::Request::Request`, up to the method.  Nothing can be computed from a header end
that is `NULL`. -/
def Http.newRequest (data : List UInt8) (dataend : ℕ) : Option RequestHead := do
  match ← findHeaderEnd data (dataend + 1) with
  | none => none
  | some eoh =>
      let lineep ← Protocol.findLineEnd data eoh
      let methodCode ← parseMethod data (lineep + 1)
      return { hdlen := eoh + 1, methodCode := methodCode }

/-- `_memcached::Request::Request`, up to the method. -/
def MemCached.newRequest (data : List UInt8) (dataend : ℕ) : Option RequestHead := do
  let eoh ← Protocol.findLineEnd data dataend
  let methodCode ← parseMethod data (eoh + 1)
  return { hdlen := eoh + 1, methodCode := methodCode }

/-! ## Lines -/

/-- `memchr` finds the first of the bytes sought. -/
theorem memchr_eq_some_iff {c : UInt8} {data : List UInt8} {n k : ℕ} :
    memchr c data n = some (some k) ↔
      ∃ text rest, data = text ++ c :: rest ∧ c ∉ text ∧ text.length = k ∧ k < n := by
  induction data generalizing n k with
  | nil => cases n <;> simp [memchr]
  | cons d data ih =>
      cases n with
      | zero => simp [memchr]
      | succ n =>
          rw [memchr]
          by_cases hd : d = c
          · subst hd
            rw [if_pos rfl]
            constructor
            · intro h
              obtain rfl : 0 = k := by simpa using h
              exact ⟨[], data, rfl, by simp, rfl, by omega⟩
            · rintro ⟨text, rest, heq, hnot, rfl, -⟩
              cases text with
              | nil => rfl
              | cons t text =>
                  obtain ⟨rfl, -⟩ := List.cons_eq_cons.mp heq
                  simp at hnot
          · rw [if_neg hd]
            constructor
            · intro h
              obtain ⟨found, hfound, hk⟩ := Option.map_eq_some_iff.mp h
              obtain ⟨j, rfl, rfl⟩ := Option.map_eq_some_iff.mp hk
              obtain ⟨text, rest, rfl, hnot, hlen, hlt⟩ := ih.mp hfound
              have hcd : c ≠ d := fun h => hd h.symm
              exact ⟨d :: text, rest, rfl, by simp [hcd, hnot], by simp [hlen], by omega⟩
            · rintro ⟨text, rest, heq, hnot, rfl, hlt⟩
              cases text with
              | nil => exact absurd (List.cons_eq_cons.mp heq).1 hd
              | cons t text =>
                  obtain ⟨rfl, hdata⟩ := List.cons_eq_cons.mp heq
                  have hrest : memchr c data n = some (some text.length) :=
                    ih.mpr ⟨text, rest, hdata, fun h => hnot (by simp [h]), rfl, by
                      simpa using hlt⟩
                  rw [hrest]
                  rfl

/-- What a search over the data finds does not depend on what follows them. -/
theorem memchr_append {c : UInt8} {data : List UInt8} (rest : List UInt8) {n : ℕ}
    (hn : n ≤ data.length) : memchr c (data ++ rest) n = memchr c data n := by
  induction data generalizing n with
  | nil =>
      obtain rfl : n = 0 := by simpa using hn
      cases rest <;> rfl
  | cons d data ih =>
      cases n with
      | zero => rfl
      | succ n => rw [List.cons_append, memchr, memchr, ih (by simpa using hn)]

namespace Http

theorem headerEnd_append {data : List UInt8} (rest : List UInt8) {n : ℕ} (pos len : ℕ)
    (hn : n ≤ data.length) : headerEnd (data ++ rest) n pos len = headerEnd data n pos len := by
  induction data generalizing n pos len with
  | nil =>
      obtain rfl : n = 0 := by simpa using hn
      cases rest <;> rfl
  | cons d data ih =>
      cases n with
      | zero => rfl
      | succ n =>
          have hn' : n ≤ data.length := by simpa using hn
          rw [List.cons_append, headerEnd, headerEnd, ih _ _ hn', ih _ _ hn']

/-- A header end that is found is found in longer data as well, at or behind the start. -/
theorem headerEnd_found {data : List UInt8} (rest : List UInt8) {n m pos len k : ℕ} (hm : n ≤ m)
    (h : headerEnd data n pos len = some (some k)) :
    headerEnd (data ++ rest) m pos len = some (some k) ∧ pos ≤ k ∧ k < pos + n := by
  induction data generalizing n m pos len with
  | nil => cases n <;> simp [headerEnd] at h
  | cons d data ih =>
      cases n with
      | zero => simp [headerEnd] at h
      | succ n =>
          obtain ⟨m, rfl⟩ : ∃ j, m = j + 1 := ⟨m - 1, by omega⟩
          rw [headerEnd] at h
          rw [List.cons_append, headerEnd]
          split at h
          · next hd =>
            rw [if_pos hd]
            split at h
            · next hlen =>
              obtain rfl : pos = k := by simpa using h
              exact ⟨if_pos hlen, le_rfl, by omega⟩
            · next hlen =>
              obtain ⟨hfound, hlo, hhi⟩ := ih (m := m) (by omega) h
              exact ⟨by rw [if_neg hlen]; exact hfound, by omega, by omega⟩
          · next hd =>
            obtain ⟨hfound, hlo, hhi⟩ := ih (m := m) (by omega) h
            exact ⟨by rw [if_neg hd]; exact hfound, by omega, by omega⟩

theorem findHeaderEnd_append (data rest : List UInt8) :
    findHeaderEnd (data ++ rest) data.length = findHeaderEnd data data.length := by
  unfold findHeaderEnd
  rw [memchr_append rest (le_refl data.length)]
  cases hfound : memchr LF data data.length with
  | none => rfl
  | some found =>
      cases found with
      | none => rfl
      | some lf =>
          obtain ⟨-, hlt⟩ := memchr_lt hfound
          simp only [Option.bind_eq_bind, Option.bind_some]
          rw [List.drop_append_of_le_length (by omega)]
          exact headerEnd_append rest _ _ (by simp)

/-- The end of the header is sought behind the first line. -/
theorem findHeaderEnd_behind {data : List UInt8} {n lf : ℕ}
    (hlf : memchr LF data n = some (some lf)) :
    findHeaderEnd data n = headerEnd (data.drop (lf + 1)) (n - (lf + 1)) (lf + 1) 0 := by
  unfold findHeaderEnd
  rw [hlf]
  rfl

theorem findHeaderEnd_firstLine {data : List UInt8} {n k : ℕ}
    (h : findHeaderEnd data n = some (some k)) :
    ∃ lf, memchr LF data n = some (some lf) ∧
      headerEnd (data.drop (lf + 1)) (n - (lf + 1)) (lf + 1) 0 = some (some k) := by
  cases hfound : memchr LF data n with
  | none => simp [findHeaderEnd, hfound] at h
  | some found =>
      cases found with
      | none => simp [findHeaderEnd, hfound] at h
      | some lf => exact ⟨lf, rfl, (findHeaderEnd_behind hfound).symm.trans h⟩

/-- The header end of the data with a zero byte behind them, and where the first line ends. -/
theorem findHeaderEnd_found {data : List UInt8} {k : ℕ}
    (h : findHeaderEnd data data.length = some (some k)) :
    findHeaderEnd (data ++ [0]) (data.length + 1) = some (some k) ∧
      ∃ text rest, data = text ++ LF :: rest ∧ LF ∉ text ∧ text.length < k ∧ k < data.length := by
  obtain ⟨lf, hfound, hend⟩ := findHeaderEnd_firstLine h
  obtain ⟨text, rest, hdata, hnot, hlen, hlt⟩ := memchr_eq_some_iff.mp hfound
  obtain ⟨hlonger, hlo, hhi⟩ := headerEnd_found [0]
    (show data.length - (lf + 1) ≤ data.length + 1 - (lf + 1) by omega) hend
  refine ⟨?_, text, rest, hdata, hnot, by omega, by omega⟩
  have hlonger' : memchr LF (data ++ [0]) (data.length + 1) = some (some lf) :=
    memchr_eq_some_iff.mpr ⟨text, rest ++ [0], by rw [hdata]; simp, hnot, hlen, by omega⟩
  rw [findHeaderEnd_behind hlonger', List.drop_append_of_le_length (by omega)]
  exact hlonger

end Http

/-- `find_line_end` on a line: it ends at its LF, or at a CR behind that unless one stands
before it. -/
theorem Protocol.findLineEnd_line (text rest : List UInt8) {dataend : ℕ} (hLF : LF ∉ text)
    (hend : text.length ≤ dataend) (hlen : dataend ≤ text.length + rest.length) :
    findLineEnd (text ++ LF :: rest) dataend =
      some (if (text ≠ [] ∧ text.getLast? ≠ some CR) ∧ text.length + 1 < dataend ∧
          rest.head? = some CR then text.length + 1 else text.length) := by
  have hfound : memchr LF (text ++ LF :: rest) (dataend + 1) = some (some text.length) :=
    memchr_eq_some_iff.mpr ⟨text, rest, rfl, hLF, rfl, by omega⟩
  unfold findLineEnd
  rw [hfound]
  simp only [Option.bind_eq_bind, Option.bind_some]
  have hempty : 0 < text.length ↔ text ≠ [] := List.length_pos_iff
  by_cases htext : text = []
  · simp [htext]
  · have hprev : (text ++ LF :: rest)[text.length - 1]? = text.getLast? := by
      have hlt : text.length - 1 < text.length := by
        have hpos := hempty.mpr htext
        omega
      rw [List.getElem?_append_left hlt, List.getLast?_eq_getElem?]
    have hnext : (text ++ LF :: rest)[text.length + 1]? = rest.head? := by
      rw [List.getElem?_append_right (by omega), Nat.add_sub_cancel_left, List.getElem?_cons_succ,
        List.head?_eq_getElem?]
    rw [hprev, hnext]
    by_cases hguard : text.getLast? ≠ some CR ∧ text.length + 1 < dataend
    · rw [if_pos ⟨hempty.mpr htext, hguard⟩]
      obtain ⟨c, hc⟩ : ∃ c, rest.head? = some c := by
        cases rest with
        | nil => simp at hlen; omega
        | cons c rest => exact ⟨c, rfl⟩
      rw [hc]
      by_cases hcr : c = CR <;> simp [hcr, htext, hguard.1, hguard.2]
    · rw [if_neg fun h => hguard h.2, if_neg fun h => hguard ⟨h.1.2, h.2.1⟩]
      rfl

/-- A line that ends in CR LF ends at the LF, whatever follows. -/
theorem Protocol.findLineEnd_crlf (text rest : List UInt8) {dataend : ℕ} (hLF : LF ∉ text)
    (hCR : text.getLast? = some CR) (hend : text.length ≤ dataend) :
    findLineEnd (text ++ LF :: rest) dataend = some text.length := by
  have hfound : memchr LF (text ++ LF :: rest) (dataend + 1) = some (some text.length) :=
    memchr_eq_some_iff.mpr ⟨text, rest, rfl, hLF, rfl, by omega⟩
  have hprev : 0 < text.length → (text ++ LF :: rest)[text.length - 1]? = some CR := by
    intro hpos
    rw [List.getElem?_append_left (by omega), ← List.getLast?_eq_getElem?, hCR]
  unfold findLineEnd
  rw [hfound]
  simp only [Option.bind_eq_bind, Option.bind_some]
  rw [if_neg fun h => h.2.1 (hprev h.1)]
  rfl

/-- A token abbreviates a name without line ends on the strength of what stands before the
first LF alone. -/
theorem abbreviates_before_lf {stop : UInt8 → Bool} (hstop : stop LF = false)
    (text r r' : List UInt8) {name : List UInt8} (hname : LF ∉ name) :
    Abbreviates (tokenOf stop (text ++ LF :: r)) name ↔
      Abbreviates (tokenOf stop (text ++ LF :: r')) name := by
  by_cases hin : ∃ d ∈ text, stop d = true
  · have hsame : ∀ r, tokenOf stop (text ++ LF :: r) = tokenOf stop text := by
      intro r
      unfold tokenOf
      rw [List.takeWhile_append, if_neg]
      intro hlen
      obtain ⟨d, hd, hsd⟩ := hin
      have hall := List.takeWhile_eq_self_iff.mp
        (List.IsPrefix.eq_of_length (List.takeWhile_prefix _) hlen) d hd
      simp [hsd] at hall
    rw [hsame r, hsame r']
  · -- the token goes on over the LF, so that only a zero byte before it can end the comparison
    have hgo : ∀ r, ∃ more, tokenOf stop (text ++ LF :: r) = text ++ LF :: more := by
      intro r
      have hall : text.takeWhile (fun d => !stop d) = text := by
        rw [List.takeWhile_eq_self_iff]
        intro d hd
        simpa using fun hs => hin ⟨d, hd, hs⟩
      refine ⟨tokenOf stop r, ?_⟩
      unfold tokenOf
      rw [List.takeWhile_append, if_pos (by rw [hall]), List.takeWhile_cons, hstop]
      rfl
    have hiff : ∀ r, Abbreviates (tokenOf stop (text ++ LF :: r)) name ↔ name ++ [0] <+: text := by
      intro r
      obtain ⟨more, hmore⟩ := hgo r
      rw [hmore]
      constructor
      · rintro (hpre | hzero)
        · exact absurd (hpre.subset (by simp)) hname
        · have hline : text ++ [LF] <+: text ++ LF :: more := ⟨more, by simp⟩
          rcases List.prefix_or_prefix_of_prefix hzero hline with h | h
          · rcases List.prefix_concat_iff.mp h with heq | h
            · have hlast := congrArg List.getLast? heq
              simp [LF] at hlast
            · exact h
          · have hmem : LF ∈ name ++ [0] := h.subset (by simp)
            rcases List.mem_append.mp hmem with hmem | hmem
            · exact absurd hmem hname
            · exact absurd (List.mem_singleton.mp hmem) (by decide)
      · intro h
        exact .inr (h.trans (List.prefix_append _ _))
    rw [hiff r, hiff r']

/-! ## The code of a line -/

theorem codeOf_congr {names : List (List UInt8)} {token token' : List UInt8}
    (h : ∀ name ∈ names, Abbreviates token name ↔ Abbreviates token' name) :
    codeOf names token = codeOf names token' := by
  have hfind : names.findIdx? (fun name => decide (Abbreviates token name)) =
      names.findIdx? fun name => decide (Abbreviates token' name) := by
    induction names with
    | nil => rfl
    | cons name names ih =>
        rw [List.findIdx?_cons, List.findIdx?_cons, ih fun x hx => h x (by simp [hx]),
          decide_eq_decide.mpr (h name (by simp))]
  rw [codeOf, codeOf, hfind]

theorem codeOf_ne_zero_iff (names : List (List UInt8)) (token : List UInt8) :
    codeOf names token ≠ 0 ↔ ∃ i, 0 < i ∧ FirstAbbreviated names token i := by
  unfold codeOf
  rcases getD_findIdx?_cases names token 0 with ⟨k, hk, hcode⟩ | ⟨hnone, hcode⟩ <;> rw [hcode]
  · constructor
    · exact fun hne => ⟨k, Nat.pos_of_ne_zero hne, hk⟩
    · rintro ⟨i, hi, hfirst⟩
      exact hk.unique hfirst ▸ hi.ne'
  · exact iff_of_false (fun h => h rfl) fun ⟨i, _, hi⟩ => hnone i hi

theorem Http.methodsName_no_lf : ∀ name ∈ methodsName, LF ∉ name := by
  decide

theorem MemCached.methodsName_no_lf : ∀ name ∈ methodsName, LF ∉ name := by
  decide

/-- Unless the first line is empty, HTTP's method stands on it. -/
theorem Http.codeOf_first_line {text : List UInt8} (h : text ≠ [CR]) (r r' : List UInt8) :
    codeOf methodsName (methodToken (text ++ LF :: r)) =
      codeOf methodsName (methodToken (text ++ LF :: r')) := by
  have hsame : ∀ text r r', codeOf methodsName (tokenOf (· = SP) (text ++ LF :: r)) =
      codeOf methodsName (tokenOf (· = SP) (text ++ LF :: r')) := fun text r r' =>
    codeOf_congr fun name hname =>
      abbreviates_before_lf (by decide) text r r' (methodsName_no_lf name hname)
  match text with
  | [] =>
      have hno : ∀ r, mandatory (LF :: r) = false := by
        intro r
        cases r <;> simp [mandatory, chars, LF, CR]
      simp only [methodToken, List.nil_append, hno, Bool.false_eq_true, if_false]
      exact hsame [] r r'
  | [a] =>
      have ha : a ≠ CR := fun heq => h (by rw [heq])
      have hno : ∀ r, mandatory (a :: LF :: r) = false := by
        intro r
        simp [mandatory, chars, ha, LF]
      simp only [methodToken, List.cons_append, List.nil_append, hno, Bool.false_eq_true, if_false]
      exact hsame [a] r r'
  | a :: b :: text =>
      have hm : ∀ r, mandatory (a :: b :: (text ++ LF :: r)) = mandatory (a :: b :: text) :=
        fun _ => rfl
      simp only [methodToken, List.cons_append, hm]
      cases mandatory (a :: b :: text) with
      | true => exact hsame text r r'
      | false => exact hsame (a :: b :: text) r r'

theorem MemCached.codeOf_first_line (text r r' : List UInt8) :
    codeOf methodsName (methodToken (text ++ LF :: r)) =
      codeOf methodsName (methodToken (text ++ LF :: r')) :=
  codeOf_congr fun name hname =>
    abbreviates_before_lf (by decide) text r r' (methodsName_no_lf name hname)

/-! ## Agreement -/

/-- What the classifier answers for the payload depends on its bytes alone, and the parser
finds a method and the same header end in every payload that it accepts.  `rest` is what
stands behind the payload when it is classified. -/
structure ParserAgrees (isRequest : List UInt8 → ℕ → Option (Option ℕ))
    (newRequest : List UInt8 → ℕ → Option RequestHead) (payload : List UInt8) : Prop where
  inside : ∀ rest rest', isRequest (payload ++ rest) payload.length =
    isRequest (payload ++ rest') payload.length
  parsed : ∀ rest k, isRequest (payload ++ rest) payload.length = some (some k) →
    ∃ req, newRequest (payload ++ [0]) payload.length = some req ∧ req.methodCode ≠ 0 ∧
      req.hdlen = k + 1

namespace Http

theorem isRequest_append (payload rest : List UInt8) :
    isRequest (payload ++ rest) payload.length =
      if codeOf methodsName (methodToken payload) = 0 then some none
      else findHeaderEnd payload payload.length := by
  unfold isRequest
  rw [parseMethod_line, findHeaderEnd_append]
  rfl

/-- The constructor parses the method of the first line. -/
theorem newRequest_eq (text : List UInt8) {rest : List UInt8} {k : ℕ} (hLF : LF ∉ text)
    (hend : findHeaderEnd (text ++ LF :: rest ++ [0]) ((text ++ LF :: rest).length + 1) =
      some (some k)) (hlo : text.length < k) (hhi : k < (text ++ LF :: rest).length) :
    ∃ r, newRequest (text ++ LF :: rest ++ [0]) (text ++ LF :: rest).length =
      some ⟨k + 1, codeOf methodsName (methodToken (text ++ LF :: r))⟩ ∧
      (text = [CR] → r = []) := by
  have hdata : text ++ LF :: rest ++ [0] = text ++ LF :: (rest ++ [0]) := by simp
  have hlen : k ≤ text.length + (rest ++ [0]).length := by
    simp only [List.length_append, List.length_cons, List.length_nil] at hhi ⊢
    omega
  have hline := Protocol.findLineEnd_line text (rest ++ [0]) hLF hlo.le hlen
  unfold newRequest
  rw [hend, hdata]
  simp only [Option.bind_eq_bind, Option.bind_some, hline]
  split
  · next hcr =>
    obtain ⟨r, hr⟩ : ∃ r, rest ++ [0] = CR :: r := by
      cases hrest : rest ++ [0] with
      | nil => simp at hrest
      | cons c r =>
          have hc : c = CR := by simpa [hrest] using hcr.2.2
          exact ⟨r, by rw [hc]⟩
    refine ⟨[CR], ?_, fun htext => absurd (by rw [htext]; rfl) hcr.1.2⟩
    have hparse := parseMethod_line (text ++ [LF, CR]) r
    have hsplit : text ++ LF :: (rest ++ [0]) = (text ++ [LF, CR]) ++ r := by
      rw [hr]
      simp
    have hsize : (text ++ [LF, CR]).length = text.length + 1 + 1 := by simp
    rw [hsplit, ← hsize, hparse]
    rfl
  · refine ⟨[], ?_, fun _ => rfl⟩
    have hparse := parseMethod_line (text ++ [LF]) (rest ++ [0])
    have hsplit : text ++ LF :: (rest ++ [0]) = (text ++ [LF]) ++ (rest ++ [0]) := by simp
    have hsize : (text ++ [LF]).length = text.length + 1 := by simp
    rw [hsplit, ← hsize, hparse]
    rfl

/-- The payload is a request that an empty line precedes: the classifier passes over the
line, finds a method and the end of the header. -/
def BehindEmptyLine (payload : List UInt8) : Prop :=
  [CR, LF] <+: payload ∧ (∃ i, 0 < i ∧ FirstAbbreviated methodsName (methodToken payload) i) ∧
    ∃ k, findHeaderEnd payload payload.length = some (some k)

/-- HTTP's classifier and parser agree on every other payload. -/
theorem parserAgrees_iff (payload : List UInt8) :
    ParserAgrees isRequest newRequest payload ↔ ¬ BehindEmptyLine payload := by
  constructor
  · rintro hagree ⟨⟨rest, rfl⟩, hcode, k, hend⟩
    have hnonzero := (codeOf_ne_zero_iff methodsName _).mpr hcode
    have hreq : isRequest ([CR, LF] ++ rest ++ []) ([CR, LF] ++ rest).length = some (some k) := by
      rw [isRequest_append, if_neg hnonzero]
      exact hend
    obtain ⟨req, hparsed, hmethod, -⟩ := hagree.parsed [] k hreq
    obtain ⟨hlonger, text, rest', hdata, hLF, hlo, hhi⟩ := findHeaderEnd_found hend
    -- the first line is the empty one
    obtain ⟨rfl, rfl⟩ : text = [CR] ∧ rest' = rest := by
      match text with
      | [] => exact absurd (List.cons_eq_cons.mp hdata).1 (by decide)
      | [a] => simpa [eq_comm] using hdata
      | a :: b :: text =>
          obtain rfl : LF = b := (List.cons_eq_cons.mp (List.cons_eq_cons.mp hdata).2).1
          simp at hLF
    obtain ⟨r, hline, hr⟩ := newRequest_eq [CR] hLF hlonger hlo hhi
    obtain rfl := hr rfl
    have hreq' : newRequest ([CR, LF] ++ rest' ++ [0]) ([CR, LF] ++ rest').length = _ := hline
    obtain rfl := Option.some.inj (hparsed.symm.trans hreq')
    have hnone : codeOf methodsName (methodToken ([CR] ++ [LF])) = 0 := by decide
    exact hmethod hnone
  · intro hline
    refine ⟨fun rest rest' => by rw [isRequest_append, isRequest_append], fun rest k hreq => ?_⟩
    rw [isRequest_append] at hreq
    split at hreq
    · simp at hreq
    · next hnonzero =>
      obtain ⟨hlonger, text, rest', rfl, hLF, hlo, hhi⟩ := findHeaderEnd_found hreq
      obtain ⟨r, hparsed, -⟩ := newRequest_eq text hLF hlonger hlo hhi
      refine ⟨_, hparsed, ?_, rfl⟩
      have hCR : text ≠ [CR] := by
        rintro rfl
        exact hline ⟨⟨rest', rfl⟩, (codeOf_ne_zero_iff methodsName _).mp hnonzero, k, hreq⟩
      rw [codeOf_first_line hCR r rest']
      exact hnonzero

end Http

namespace MemCached

/-- The line ends in an LF with a CR behind it and none before it. -/
def EndsInLfCr (text rest : List UInt8) : Prop :=
  (text ≠ [] ∧ text.getLast? ≠ some CR) ∧ rest.head? = some CR

instance (text rest : List UInt8) : Decidable (EndsInLfCr text rest) :=
  inferInstanceAs (Decidable ((text ≠ [] ∧ text.getLast? ≠ some CR) ∧ rest.head? = some CR))

theorem isRequest_line {text : List UInt8} (hLF : LF ∉ text) (rest : List UInt8) (n : ℕ) :
    isRequest (text ++ LF :: rest) n =
      if codeOf methodsName (methodToken (text ++ [LF])) = 0 then some none
      else some (some text.length) := by
  have hparse := parseMethod_line (text ++ [LF]) rest
  have hsplit : text ++ LF :: rest = (text ++ [LF]) ++ rest := by simp
  have hsize : text.length + 1 = (text ++ [LF]).length := by simp
  unfold isRequest
  rw [findLineEnd_line rest hLF]
  simp only [Option.bind_eq_bind, Option.bind_some]
  rw [hsplit, hsize, hparse]
  rfl

theorem findLineEnd_eq_none {payload : List UInt8} (hLF : LF ∉ payload) :
    findLineEnd payload = none := by
  induction payload with
  | nil => rfl
  | cons d payload ih =>
      have hd : d ≠ LF := fun h => hLF (by simp [h])
      rw [findLineEnd, if_neg hd, ih fun h => hLF (by simp [h])]
      rfl

theorem newRequest_line {text : List UInt8} (hLF : LF ∉ text) (rest : List UInt8) :
    ∃ req, newRequest (text ++ LF :: rest ++ [0]) (text ++ LF :: rest).length = some req ∧
      req.methodCode = codeOf methodsName (methodToken (text ++ [LF])) ∧
      (req.hdlen = text.length + 1 ↔ ¬ EndsInLfCr text rest) := by
  have hdata : text ++ LF :: rest ++ [0] = text ++ LF :: (rest ++ [0]) := by simp
  have hline := Protocol.findLineEnd_line text (rest ++ [0]) hLF
    (show text.length ≤ (text ++ LF :: rest).length by simp) (by simp)
  -- the CR is not the zero byte that ends the payload
  have hguard : ((text ≠ [] ∧ text.getLast? ≠ some CR) ∧
      text.length + 1 < (text ++ LF :: rest).length ∧ (rest ++ [0]).head? = some CR) ↔
        EndsInLfCr text rest := by
    cases rest with
    | nil => simp [EndsInLfCr]
    | cons c rest => simp [EndsInLfCr]
  rw [if_congr hguard rfl rfl] at hline
  unfold newRequest
  rw [hdata, hline]
  simp only [Option.bind_eq_bind, Option.bind_some]
  by_cases hcr : EndsInLfCr text rest
  · obtain ⟨r, rfl⟩ : ∃ r, rest = CR :: r := by
      obtain ⟨-, hhead⟩ := hcr
      exact ⟨rest.tail, List.eq_cons_of_mem_head? hhead⟩
    have hparse := parseMethod_line (text ++ [LF, CR]) (r ++ [0])
    have hsplit : text ++ LF :: (CR :: r ++ [0]) = (text ++ [LF, CR]) ++ (r ++ [0]) := by simp
    have hsize : (text ++ [LF, CR]).length = text.length + 1 + 1 := by simp
    rw [if_pos hcr, hsplit, ← hsize, hparse]
    refine ⟨_, rfl, codeOf_first_line text [CR] [], iff_of_false ?_ (not_not.mpr hcr)⟩
    simp
  · have hparse := parseMethod_line (text ++ [LF]) (rest ++ [0])
    have hsplit : text ++ LF :: (rest ++ [0]) = (text ++ [LF]) ++ (rest ++ [0]) := by simp
    have hsize : (text ++ [LF]).length = text.length + 1 := by simp
    rw [if_neg hcr, hsplit, ← hsize, hparse]
    exact ⟨_, rfl, rfl, iff_of_true rfl hcr⟩

/-- The payload holds an LF, and unless the first one stands before a CR and not behind one,
or the line names no method, classifier and parser agree. -/
def LineOfItsOwn (payload : List UInt8) : Prop :=
  ∃ text rest, payload = text ++ LF :: rest ∧ LF ∉ text ∧
    ¬ (EndsInLfCr text rest ∧
      ∃ i, 0 < i ∧ FirstAbbreviated methodsName (methodToken (text ++ [LF])) i)

/-- memcached's classifier and parser agree on exactly these payloads. -/
theorem parserAgrees_iff (payload : List UInt8) :
    ParserAgrees isRequest newRequest payload ↔ LineOfItsOwn payload := by
  constructor
  · intro hagree
    by_cases hmem : LF ∈ payload
    · obtain ⟨text, rest, rfl, hLF⟩ := List.eq_append_cons_of_mem hmem
      refine ⟨text, rest, rfl, hLF, fun ⟨hcr, hcode⟩ => ?_⟩
      have hnonzero := (codeOf_ne_zero_iff methodsName _).mpr hcode
      have hreq : isRequest (text ++ LF :: rest ++ []) (text ++ LF :: rest).length =
          some (some text.length) := by
        rw [List.append_nil, isRequest_line hLF, if_neg hnonzero]
      obtain ⟨req, hparsed, -, hlen⟩ := hagree.parsed [] _ hreq
      obtain ⟨req', hparsed', -, hiff⟩ := newRequest_line hLF rest
      obtain rfl := Option.some.inj (hparsed.symm.trans hparsed')
      exact hiff.mp hlen hcr
    · -- the classifier reads on behind the payload
      have hbare : isRequest (payload ++ []) payload.length = none := by
        unfold isRequest
        rw [List.append_nil, findLineEnd_eq_none hmem]
        rfl
      have hended := isRequest_line hmem [] payload.length
      rw [← hagree.inside [] [LF], hbare] at hended
      split at hended <;> simp at hended
  · rintro ⟨text, rest, rfl, hLF, hends⟩
    have hclass : ∀ more, isRequest (text ++ LF :: rest ++ more) (text ++ LF :: rest).length =
        if codeOf methodsName (methodToken (text ++ [LF])) = 0 then some none
        else some (some text.length) := by
      intro more
      rw [List.append_assoc, List.cons_append]
      exact isRequest_line hLF (rest ++ more) _
    refine ⟨fun more more' => by rw [hclass, hclass], fun more k hreq => ?_⟩
    rw [hclass] at hreq
    split at hreq
    · simp at hreq
    · next hnonzero =>
      obtain rfl : text.length = k := by simpa using hreq
      obtain ⟨req, hparsed, hmethod, hlen⟩ := newRequest_line hLF rest
      have hcode := (codeOf_ne_zero_iff methodsName _).mp hnonzero
      exact ⟨req, hparsed, hmethod ▸ hnonzero, hlen.mpr fun hcr => hends ⟨hcr, hcode⟩⟩

end MemCached

/-- **Classifier and parser of a request.**  For every payload, whether it is a request
depends on its bytes alone and, if it is one, its parser finds a method and the same end of
the header: for HTTP, exactly unless the request stands behind an empty line; for memcached,
exactly if the payload holds an LF and its first line, if it names a method, does not end in
an LF before a CR. -/
theorem request_parsers_agree_iff (payload : List UInt8) :
    (ParserAgrees Http.isRequest Http.newRequest payload ↔ ¬ Http.BehindEmptyLine payload) ∧
      (ParserAgrees MemCached.isRequest MemCached.newRequest payload ↔
        MemCached.LineOfItsOwn payload) :=
  ⟨Http.parserAgrees_iff payload, MemCached.parserAgrees_iff payload⟩

/-- An HTTP request behind an empty line is accepted, and no method is found in it; whether
a memcached payload without a line end is a request depends on what stands behind it. -/
theorem request_parsers_part :
    (¬ ∀ payload, payload ≠ [] → ParserAgrees Http.isRequest Http.newRequest payload) ∧
      ¬ ∀ payload, payload ≠ [] →
        ParserAgrees MemCached.isRequest MemCached.newRequest payload := by
  constructor
  · intro h
    have hagree := h (chars "\r\nGET /\r\n\r\n") (by decide)
    obtain ⟨req, hparsed, hmethod, -⟩ := hagree.parsed [] 10 (by decide)
    have hreq : Http.newRequest (chars "\r\nGET /\r\n\r\n" ++ [0]) 11 = some ⟨11, 0⟩ := by
      decide
    obtain rfl := Option.some.inj (hparsed.symm.trans hreq)
    exact hmethod rfl
  · intro h
    have hagree := h (chars "get a") (by decide)
    exact absurd (hagree.inside [] [LF]) (by decide)

end MonitoringTool.Sniffer
