import MonitoringTool.Sniffer.Protocols

/-!
# What the classifiers read

`isRequest` and `isResponse` are handed a pointer and a length, and the pointer reaches
as far as the frame does.  Where the length is larger than what is left of the frame, they
read behind it unless something they look for comes early enough.

`Protocol.reads_inside_iff` says for each protocol exactly when neither of them reads
behind the data: four bytes for MySQL, an LF for memcached, and for HTTP a data length
that is true, or a space and, if the data begin like a message, the end of a header.
-/

namespace MonitoringTool.Sniffer

/-! ## Searches -/

/-- The search reads byte after byte, `n` of them at most, and stops at what it finds. -/
structure Sequential (search : List UInt8 → ℕ → Option (Option ℕ)) : Prop where
  inside : ∀ data n, n ≤ data.length → (search data n).isSome
  beyond : ∀ data n, data.length < n →
    search data n = (search data data.length).bind fun found => found.map some

/-- A search beyond the data has a result if there is something in the data to find. -/
theorem Sequential.isSome_iff {search : List UInt8 → ℕ → Option (Option ℕ)} (h : Sequential search)
    (data : List UInt8) (n : ℕ) : (search data n).isSome ↔
      n ≤ data.length ∨ ∃ k, search data data.length = some (some k) := by
  by_cases hn : n ≤ data.length
  · simp [hn, h.inside data n hn]
  · obtain ⟨found, hfound⟩ := Option.isSome_iff_exists.mp (h.inside data _ (Nat.le_refl _))
    rw [h.beyond data n (by omega), hfound]
    cases found <;> simp [hn]

theorem memchr_sequential (c : UInt8) : Sequential (memchr c) where
  inside data := by
    induction data with
    | nil =>
        intro n hn
        obtain rfl : n = 0 := by simpa using hn
        rfl
    | cons d data ih =>
        intro n hn
        cases n with
        | zero => rfl
        | succ n =>
            have hrest := ih n (by simpa using hn)
            unfold memchr
            split
            · rfl
            · simpa using hrest
  beyond data := by
    induction data with
    | nil =>
        intro n hn
        cases n with
        | zero => simp at hn
        | succ n => rfl
    | cons d data ih =>
        intro n hn
        cases n with
        | zero => simp at hn
        | succ n =>
            have hrest := ih n (by simpa using hn)
            rw [List.length_cons]
            unfold memchr
            split
            · rfl
            · rw [hrest]
              cases memchr c data data.length with
              | none => rfl
              | some found => cases found <;> rfl

theorem headerEnd_sequential (pos len : ℕ) :
    Sequential fun data n => Http.headerEnd data n pos len where
  inside data := by
    induction data generalizing pos len with
    | nil =>
        intro n hn
        obtain rfl : n = 0 := by simpa using hn
        rfl
    | cons d data ih =>
        intro n hn
        cases n with
        | zero => rfl
        | succ n =>
            have hrest : ∀ pos len, (Http.headerEnd data n pos len).isSome :=
              fun pos len => ih pos len n (by simpa using hn)
            unfold Http.headerEnd
            split
            · split
              · rfl
              · exact hrest _ _
            · exact hrest _ _
  beyond data := by
    induction data generalizing pos len with
    | nil =>
        intro n hn
        cases n with
        | zero => simp at hn
        | succ n => rfl
    | cons d data ih =>
        intro n hn
        cases n with
        | zero => simp at hn
        | succ n =>
            have hrest := fun pos len => ih pos len n (by simpa using hn)
            rw [List.length_cons]
            unfold Http.headerEnd
            split
            · split
              · rfl
              · exact hrest _ _
            · exact hrest _ _

/-- What `memchr` finds is in the data. -/
theorem memchr_lt {c : UInt8} {data : List UInt8} {n k : ℕ} (h : memchr c data n = some (some k)) :
    k < data.length ∧ k < n := by
  induction data generalizing n k with
  | nil => cases n <;> simp [memchr] at h
  | cons d data ih =>
      cases n with
      | zero => simp [memchr] at h
      | succ n =>
          unfold memchr at h
          split at h
          · obtain rfl : 0 = k := by simpa using h
            simp
          · obtain ⟨j, hj, rfl⟩ : ∃ j, memchr c data n = some (some j) ∧ j + 1 = k := by
              cases hm : memchr c data n with
              | none => simp [hm] at h
              | some found => cases found <;> simp_all
            have hlt := ih hj
            simp only [List.length_cons]
            omega

theorem findHeaderEnd_sequential : Sequential Http.findHeaderEnd where
  inside data n hn := by
    have hfirst := (memchr_sequential LF).inside data n hn
    obtain ⟨found, hfound⟩ := Option.isSome_iff_exists.mp hfirst
    unfold Http.findHeaderEnd
    cases found with
    | none => simp [hfound]
    | some lf =>
        have hrest := (headerEnd_sequential (lf + 1) 0).inside (data.drop (lf + 1)) (n - (lf + 1))
          (by rw [List.length_drop]; omega)
        simpa [hfound] using hrest
  beyond data n hn := by
    have hfirst := (memchr_sequential LF).inside data _ (Nat.le_refl _)
    have hbeyond := (memchr_sequential LF).beyond data n hn
    obtain ⟨found, hfound⟩ := Option.isSome_iff_exists.mp hfirst
    unfold Http.findHeaderEnd
    rw [hbeyond, hfound]
    cases found with
    | none => rfl
    | some lf =>
        have hlf := memchr_lt hfound
        have hrest := (headerEnd_sequential (lf + 1) 0).beyond (data.drop (lf + 1)) (n - (lf + 1))
          (by rw [List.length_drop]; omega)
        rw [List.length_drop] at hrest
        simpa using hrest

/-! ## Tokens and names -/

/-- A comparison of bytes that are there has a result. -/
theorem strncmpEq_isSome {data : List UInt8} (lit : List UInt8) {n : ℕ} (hn : n ≤ data.length) :
    (strncmpEq data lit n).isSome := by
  induction data generalizing lit n with
  | nil =>
      obtain rfl : n = 0 := by simpa using hn
      simp [strncmpEq]
  | cons d data ih =>
      cases n with
      | zero => simp [strncmpEq]
      | succ n =>
          cases lit with
          | nil => rfl
          | cons c lit =>
              unfold strncmpEq
              split
              · exact ih lit (by simpa using hn)
              · rfl

theorem firstName_isSome {data : List UInt8} {index : ℕ} (names : List (List UInt8))
    (hindex : index ≤ data.length) : (firstName data index names).isSome := by
  induction names with
  | nil => rfl
  | cons name names ih =>
      obtain ⟨same, hsame⟩ := Option.isSome_iff_exists.mp (strncmpEq_isSome name hindex)
      obtain ⟨found, hfound⟩ := Option.isSome_iff_exists.mp ih
      cases same <;> simp [firstName, hsame, hfound]

/-- The end of a token is in the data. -/
theorem tokenIndex_le {stop : UInt8 → Bool} {data : List UInt8} {n k : ℕ}
    (h : tokenIndex stop data n = some k) : k ≤ data.length := by
  induction data generalizing n k with
  | nil =>
      cases n with
      | zero =>
          obtain rfl : 0 = k := by simpa [tokenIndex] using h
          exact Nat.zero_le _
      | succ n => simp [tokenIndex] at h
  | cons d data ih =>
      cases n with
      | zero =>
          obtain rfl : 0 = k := by simpa [tokenIndex] using h
          exact Nat.zero_le _
      | succ n =>
          unfold tokenIndex at h
          split at h
          · obtain rfl : 0 = k := by simpa using h
            exact Nat.zero_le _
          · obtain ⟨j, hj, rfl⟩ := Option.map_eq_some_iff.mp h
            have hle := ih hj
            simpa using hle

/-- A token ends in the data if its length or a byte that stops it is there. -/
theorem tokenIndex_isSome_iff (stop : UInt8 → Bool) (data : List UInt8) (n : ℕ) :
    (tokenIndex stop data n).isSome ↔ n ≤ data.length ∨ ∃ d ∈ data, stop d = true := by
  induction data generalizing n with
  | nil => cases n <;> simp [tokenIndex]
  | cons d data ih =>
      cases n with
      | zero => simp [tokenIndex]
      | succ n =>
          unfold tokenIndex
          cases hd : stop d <;> simp [hd, ih]

/-- A byte that stops a token makes its length irrelevant. -/
theorem tokenIndex_of_stop {stop : UInt8 → Bool} {data : List UInt8} {n : ℕ}
    (hstop : ∃ d ∈ data, stop d = true) (hn : data.length ≤ n) :
    tokenIndex stop data n = tokenIndex stop data data.length := by
  induction data generalizing n with
  | nil => simp at hstop
  | cons d data ih =>
      cases n with
      | zero => simp at hn
      | succ n =>
          rw [List.length_cons]
          unfold tokenIndex
          cases hd : stop d with
          | true => rfl
          | false =>
              have hrest : ∃ d ∈ data, stop d = true := by simpa [hd] using hstop
              simp only [Bool.false_eq_true, if_false]
              rw [ih hrest (by simpa using hn)]

/-- The code of the name that the token at `data` is, or `code`. -/
def tokenCode (stop : UInt8 → Bool) (names : List (List UInt8)) (code : ℕ) (data : List UInt8)
    (n : ℕ) : Option ℕ := do
  let index ← tokenIndex stop data n
  return (← firstName data index names).getD code

theorem tokenCode_isSome_iff (stop : UInt8 → Bool) (names : List (List UInt8)) (code : ℕ)
    (data : List UInt8) (n : ℕ) : (tokenCode stop names code data n).isSome ↔
      n ≤ data.length ∨ ∃ d ∈ data, stop d = true := by
  rw [← tokenIndex_isSome_iff]
  unfold tokenCode
  cases hindex : tokenIndex stop data n with
  | none => simp
  | some index =>
      obtain ⟨found, hfound⟩ :=
        Option.isSome_iff_exists.mp (firstName_isSome names (tokenIndex_le hindex))
      simp [hfound]

/-! ## HTTP -/

namespace Http

/-- Before the method there may be `M-` or an empty line. -/
def mandatory (data : List UInt8) : Bool := data.take 2 = chars "M-" || data.take 2 = [CR, LF]

/-- With two bytes there, `parseMethod` reads them and then a token. -/
theorem parseMethod_two (a b : UInt8) (rest : List UInt8) {n : ℕ} (hn : 2 ≤ n) :
    parseMethod (a :: b :: rest) n =
      if mandatory (a :: b :: rest) then tokenCode (· = SP) methodsName 0 rest (n - 2)
      else tokenCode (· = SP) methodsName 0 (a :: b :: rest) n := by
  have hM : strncmpEq (a :: b :: rest) (chars "M-") 2 = some (decide ([a, b] = chars "M-")) := by
    have hchars : chars "M-" = [77, 45] := rfl
    by_cases ha : a = 77 <;> by_cases hb : b = 45 <;> simp [hchars, strncmpEq, ha, hb]
  have hCR : strncmpEq (a :: b :: rest) [CR, LF] 2 = some (decide ([a, b] = [CR, LF])) := by
    by_cases ha : a = CR <;> by_cases hb : b = LF <;> simp [strncmpEq, ha, hb]
  have htake : (a :: b :: rest).take 2 = [a, b] := rfl
  unfold parseMethod mandatory
  rw [htake]
  simp only [ge_iff_le, hn, if_true, hM, hCR]
  by_cases h₁ : [a, b] = chars "M-" <;> by_cases h₂ : [a, b] = [CR, LF] <;>
    simp [h₁, h₂, tokenCode]

/-- With less than two bytes to read, `parseMethod` reads a token. -/
theorem parseMethod_one (data : List UInt8) {n : ℕ} (hn : n < 2) :
    parseMethod data n = tokenCode (· = SP) methodsName 0 data n := by
  have hless : ¬ 2 ≤ n := by omega
  simp [parseMethod, hless, tokenCode]

/-- With one byte there and more to read, the comparisons may need a second one. -/
theorem parseMethod_single (a : UInt8) {n : ℕ} (hn : 2 ≤ n) :
    parseMethod [a] n =
      if a = 77 ∨ a = CR then none else tokenCode (· = SP) methodsName 0 [a] n := by
  have hchars : chars "M-" = [77, 45] := rfl
  by_cases hM : a = 77
  · subst hM
    simp [parseMethod, hn, hchars, strncmpEq]
  · by_cases hCR : a = CR
    · subst hCR
      simp [parseMethod, hn, hchars, strncmpEq, hM]
    · simp [parseMethod, hn, hchars, strncmpEq, hM, hCR, tokenCode]

/-- The two bytes that are passed over are no spaces. -/
theorem mem_sp_of_mandatory {a b : UInt8} {rest : List UInt8}
    (h : mandatory (a :: b :: rest) = true) : SP ∈ a :: b :: rest ↔ SP ∈ rest := by
  have hpair : [a, b] = chars "M-" ∨ [a, b] = [CR, LF] := by
    unfold mandatory at h
    rwa [Bool.or_eq_true, decide_eq_true_eq, decide_eq_true_eq] at h
  have hsp : SP ∉ [a, b] := by
    rcases hpair with h | h <;> rw [h] <;> decide
  simp only [List.mem_cons, List.not_mem_nil, or_false, not_or] at hsp
  simp [hsp.1, hsp.2]

theorem exists_mem_sp (data : List UInt8) :
    (∃ d ∈ data, decide (d = SP) = true) ↔ SP ∈ data := by
  simp

/-- `parseMethod` stays in the data if they are as long as it is told, or have a space. -/
theorem parseMethod_isSome_iff (data : List UInt8) (n : ℕ) :
    (parseMethod data n).isSome ↔ n ≤ data.length ∨ SP ∈ data := by
  by_cases hn : n < 2
  · rw [parseMethod_one data hn, tokenCode_isSome_iff, exists_mem_sp]
  · have htwo : 2 ≤ n := by omega
    match data with
    | [] =>
        have hpos : n ≠ 0 := by omega
        simp [parseMethod, htwo, strncmpEq, hpos]
    | [a] =>
        rw [parseMethod_single a htwo]
        split
        · next ha =>
            have hsp : SP ≠ a := by
              rcases ha with rfl | rfl <;> decide
            simp [hsp]
            omega
        · rw [tokenCode_isSome_iff, exists_mem_sp]
    | a :: b :: rest =>
        have hlen : n - 2 ≤ rest.length ↔ n ≤ (a :: b :: rest).length := by
          simp only [List.length_cons]
          omega
        rw [parseMethod_two a b rest htwo]
        split
        · next hm => rw [tokenCode_isSome_iff, exists_mem_sp, mem_sp_of_mandatory hm, hlen]
        · rw [tokenCode_isSome_iff, exists_mem_sp]

/-- With a space in the data, the length does not matter. -/
theorem parseMethod_of_sp {data : List UInt8} {n : ℕ} (hsp : SP ∈ data) (hn : data.length ≤ n) :
    parseMethod data n = parseMethod data data.length := by
  have htoken : ∀ (data : List UInt8) (n : ℕ), SP ∈ data → data.length ≤ n →
      tokenCode (· = SP) methodsName 0 data n =
        tokenCode (· = SP) methodsName 0 data data.length := by
    intro data n hsp hn
    unfold tokenCode
    rw [tokenIndex_of_stop ((exists_mem_sp data).mpr hsp) hn]
  match data with
  | [] => cases hsp
  | [a] =>
      obtain rfl : SP = a := by simpa using hsp
      have hone : parseMethod [SP] [SP].length = _ := parseMethod_one [SP] (by decide)
      rw [hone]
      by_cases htwo : 2 ≤ n
      · rw [parseMethod_single SP htwo, if_neg (by decide)]
        exact htoken _ _ hsp hn
      · rw [parseMethod_one [SP] (by omega)]
        exact htoken _ _ hsp hn
  | a :: b :: rest =>
      have htwo : 2 ≤ (a :: b :: rest).length := by simp
      rw [parseMethod_two a b rest (Nat.le_trans htwo hn), parseMethod_two a b rest htwo]
      split
      · next hm =>
          have hrest := (mem_sp_of_mandatory hm).mp hsp
          exact htoken rest (n - 2) hrest (by simp only [List.length_cons] at hn; omega)
      · exact htoken _ _ hsp hn

/-- A comparison with a literal without spaces ends at a space. -/
theorem strncmpEq_of_sp {data lit : List UInt8} (n : ℕ) (hsp : SP ∈ data) (hlit : SP ∉ lit) :
    (strncmpEq data lit n).isSome := by
  induction data generalizing lit n with
  | nil => cases hsp
  | cons d data ih =>
      cases n with
      | zero => simp [strncmpEq]
      | succ n =>
          cases lit with
          | nil => rfl
          | cons c lit =>
              unfold strncmpEq
              split
              · next hdc =>
                  subst hdc
                  have hne : SP ≠ d := fun heq => hlit (by simp [heq])
                  have hrest : SP ∈ data := by simpa [hne] using hsp
                  exact ih n hrest fun hmem => hlit (by simp [hmem])
              · rfl

/-- Data that agree with a literal on `n` bytes have them. -/
theorem length_of_strncmpEq {data lit : List UInt8} {n : ℕ} (hlit : n ≤ lit.length)
    (h : strncmpEq data lit n = some true) : n ≤ data.length := by
  induction data generalizing lit n with
  | nil =>
      cases n with
      | zero => exact Nat.zero_le _
      | succ n => simp [strncmpEq] at h
  | cons d data ih =>
      cases n with
      | zero => exact Nat.zero_le _
      | succ n =>
          cases lit with
          | nil => simp at hlit
          | cons c lit =>
              unfold strncmpEq at h
              split at h
              · have hle := ih (by simpa using hlit) h
                simpa using hle
              · simp at h

theorem parseVersion_isSome {line : List UInt8} (h : 8 ≤ line.length ∨ SP ∈ line) :
    (parseVersion line).isSome := by
  have hcmp : ∀ lit, SP ∉ lit → (strncmpEq line lit 8).isSome := by
    intro lit hlit
    rcases h with h | h
    · exact strncmpEq_isSome lit h
    · exact strncmpEq_of_sp 8 h hlit
  obtain ⟨first, hfirst⟩ := Option.isSome_iff_exists.mp (hcmp (chars "HTTP/1.0") (by decide))
  obtain ⟨second, hsecond⟩ := Option.isSome_iff_exists.mp (hcmp (chars "HTTP/1.1") (by decide))
  cases first <;> simp [parseVersion, hfirst, hsecond]

theorem length_of_parseVersion {line : List UInt8} (h : parseVersion line = some true) :
    8 ≤ line.length := by
  unfold parseVersion at h
  cases hfirst : strncmpEq line (chars "HTTP/1.0") 8 with
  | none => simp [hfirst] at h
  | some first =>
      cases first with
      | true => exact length_of_strncmpEq (by decide) hfirst
      | false =>
          simp only [hfirst, Option.bind_eq_bind, Option.bind_some, Bool.false_eq_true,
            if_false] at h
          exact length_of_strncmpEq (by decide) h

/-- The data begin like a message: with a method or a version. -/
def LooksLikeMessage (data : List UInt8) : Prop :=
  parseMethod data data.length ≠ some 0 ∨ parseVersion data = some true

/-- The data are as long as the classifiers are told, or a space ends the token at their
front, and the end of a header is there if they begin like a message. -/
def Fits (data : List UInt8) (n : ℕ) : Prop :=
  n ≤ data.length ∨
    SP ∈ data ∧ (LooksLikeMessage data → ∃ k, findHeaderEnd data data.length = some (some k))

theorem isRequest_isSome_iff (data : List UInt8) (n : ℕ) : (isRequest data n).isSome ↔
    (parseMethod data n).isSome ∧
      (parseMethod data n ≠ some 0 → (findHeaderEnd data n).isSome) := by
  unfold isRequest
  cases parseMethod data n with
  | none => simp
  | some code =>
      by_cases hcode : code = 0 <;> simp [hcode]

theorem isResponse_isSome_iff (data : List UInt8) (n : ℕ) : (isResponse data n).isSome ↔
    (8 ≤ n → (parseVersion data).isSome ∧
      (parseVersion data = some true → (findHeaderEnd data n).isSome)) := by
  unfold isResponse
  by_cases hn : n < 8
  · have hless : ¬ 8 ≤ n := by omega
    simp [hn, hless]
  · have hge : 8 ≤ n := by omega
    cases parseVersion data with
    | none => simp [hn, hge]
    | some version => cases version <;> simp [hn, hge]

theorem reads_inside_iff (data : List UInt8) (n : ℕ) :
    (isRequest data n).isSome ∧ (isResponse data n).isSome ↔ Fits data n := by
  rw [isRequest_isSome_iff, isResponse_isSome_iff, parseMethod_isSome_iff]
  unfold Fits
  by_cases hn : n ≤ data.length
  · have hend := findHeaderEnd_sequential.inside data n hn
    simp only [hn, hend, true_or, implies_true, and_true, true_and]
    exact iff_of_true (fun h8 => parseVersion_isSome (.inl (Nat.le_trans h8 hn))) trivial
  · simp only [hn, false_or, and_assoc]
    refine and_congr_right fun hsp => ?_
    have hend := findHeaderEnd_sequential.isSome_iff data n
    have hversion := parseVersion_isSome (.inr hsp)
    rw [parseMethod_of_sp hsp (by omega)]
    simp only [hend, hn, false_or, hversion, true_and]
    unfold LooksLikeMessage
    constructor
    · rintro ⟨hreq, hrsp⟩ (hmethod | hstatus)
      · exact hreq hmethod
      · have h8 := length_of_parseVersion hstatus
        exact hrsp (by omega) hstatus
    · exact fun h => ⟨fun hmethod => h (.inl hmethod), fun _ hstatus => h (.inr hstatus)⟩

end Http

/-! ## memcached -/

namespace MemCached

theorem findLineEnd_isSome_iff (data : List UInt8) : (findLineEnd data).isSome ↔ LF ∈ data := by
  induction data with
  | nil => simp [findLineEnd]
  | cons d data ih =>
      unfold findLineEnd
      by_cases hd : d = LF
      · simp [hd]
      · have hne : LF ≠ d := fun heq => hd heq.symm
        simp [hd, hne, ih]

theorem findLineEnd_lt {data : List UInt8} {k : ℕ} (h : findLineEnd data = some k) :
    k < data.length := by
  induction data generalizing k with
  | nil => cases h
  | cons d data ih =>
      unfold findLineEnd at h
      split at h
      · obtain rfl : 0 = k := by simpa using h
        simp
      · obtain ⟨j, hj, rfl⟩ := Option.map_eq_some_iff.mp h
        have hlt := ih hj
        simpa using hlt

/-- An LF is in the data. -/
theorem reads_inside_iff (data : List UInt8) (n : ℕ) :
    (isRequest data n).isSome ∧ (isResponse data n).isSome ↔ LF ∈ data := by
  rw [← findLineEnd_isSome_iff]
  unfold isRequest isResponse
  cases hend : findLineEnd data with
  | none => simp
  | some headEnd =>
      have hlt := findLineEnd_lt hend
      have hmethod : (parseMethod data (headEnd + 1)).isSome :=
        (tokenCode_isSome_iff _ methodsName 0 data _).mpr (.inl hlt)
      have hstatus : (parseStatus data (headEnd + 1)).isSome :=
        (tokenCode_isSome_iff _ status _ data _).mpr (.inl hlt)
      obtain ⟨method, hmethod⟩ := Option.isSome_iff_exists.mp hmethod
      obtain ⟨code, hcode⟩ := Option.isSome_iff_exists.mp hstatus
      by_cases hm : method = 0 <;> by_cases hc : code = status.length - 1 <;>
        simp [hmethod, hcode, hm, hc]

end MemCached

/-! ## The protocols -/

/-- The payload of `n` bytes, of which `data` are in the frame, is classified without a read
behind the frame. -/
def Protocol.Fits (p : Protocol) (data : List UInt8) (n : ℕ) : Prop :=
  match p.kind with
  | .http => Http.Fits data n
  | .memCached => LF ∈ data
  | .mySql => 4 ≤ data.length

/-- **The classifiers stay inside the data exactly when** the payload fits. -/
theorem Protocol.reads_inside_iff (p : Protocol) (data : List UInt8) (n : ℕ) :
    (p.isRequest data n).isSome ∧ (p.isResponse data n).isSome ↔ p.Fits data n := by
  unfold isRequest isResponse Fits
  cases p.kind with
  | http => exact Http.reads_inside_iff data n
  | memCached => exact MemCached.reads_inside_iff data n
  | mySql =>
      have hlen : data[3]?.isSome ↔ 4 ≤ data.length := by
        rw [Option.isSome_iff_ne_none, ne_eq, List.getElem?_eq_none_iff]
        omega
      simp only [MySQL.isRequest, MySQL.isResponse, Option.isSome_map, and_self]
      exact hlen

end MonitoringTool.Sniffer
