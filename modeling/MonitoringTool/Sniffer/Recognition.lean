import MonitoringTool.Sniffer.PayloadReads
import Mathlib.Data.List.TakeWhile

/-!
# Which names the parsers recognise

`parseMethod` and `parseStatus` take the first token of a line and compare it with the names
of a table, as many bytes as the token has.  So a name is recognised in every token that it
begins with: the token *abbreviates* the name.  A token that is longer than the name still
agrees with it where it has a zero byte behind the name.

`methods_recognised_iff` and `statuses_recognised_iff` say for which lines the parsers
nevertheless answer what the table says.  For memcached's status the token besides ends at a
space only, so that a bare status keeps its line end and is not recognised.
-/

namespace MonitoringTool.Sniffer

/-! ## Tokens and names -/

/-- The bytes of a line before the first that satisfies `stop`. -/
def tokenOf (stop : UInt8 → Bool) (line : List UInt8) : List UInt8 :=
  line.takeWhile fun d => !stop d

/-- The comparison over the length of the token finds no difference: the token begins the
name, or both end at a zero byte. -/
def Abbreviates (token name : List UInt8) : Prop := token <+: name ∨ name ++ [0] <+: token

instance (token name : List UInt8) : Decidable (Abbreviates token name) := by
  unfold Abbreviates
  infer_instance

theorem tokenIndex_line (stop : UInt8 → Bool) (line rest : List UInt8) :
    tokenIndex stop (line ++ rest) line.length = some (tokenOf stop line).length := by
  induction line with
  | nil => cases rest <;> rfl
  | cons d line ih =>
      unfold tokenOf at ih ⊢
      rw [List.cons_append, List.length_cons, tokenIndex, List.takeWhile_cons]
      cases hd : stop d with
      | true => simp
      | false => simp [ih]

theorem take_tokenOf (stop : UInt8 → Bool) (line rest : List UInt8) :
    (line ++ rest).take (tokenOf stop line).length = tokenOf stop line := by
  have hpre : tokenOf stop line <+: line ++ rest :=
    (List.takeWhile_prefix _).trans (List.prefix_append line rest)
  exact (List.prefix_iff_eq_take.mp hpre).symm

/-- `strncmp` over bytes that are there. -/
theorem strncmpEq_eq (data lit : List UInt8) {n : ℕ} (hn : n ≤ data.length) :
    strncmpEq data lit n = some (decide (Abbreviates (data.take n) lit)) := by
  induction data generalizing lit n with
  | nil =>
      obtain rfl : n = 0 := by simpa using hn
      simp [strncmpEq, Abbreviates]
  | cons d data ih =>
      cases n with
      | zero => simp [strncmpEq, Abbreviates]
      | succ n =>
          have hn' : n ≤ data.length := by simpa using hn
          cases lit with
          | nil =>
              rw [strncmpEq, Option.some_inj, decide_eq_decide]
              unfold Abbreviates
              simp only [List.take_succ_cons, List.nil_append, List.cons_prefix_cons,
                List.prefix_nil, reduceCtorEq, List.nil_prefix, and_true, false_or]
              exact eq_comm
          | cons c lit =>
              rw [strncmpEq]
              by_cases hdc : d = c
              · subst hdc
                rw [if_pos rfl, ih lit hn', Option.some_inj, decide_eq_decide]
                unfold Abbreviates
                simp only [List.take_succ_cons, List.cons_append, List.cons_prefix_cons, true_and]
              · have hcd : ¬ c = d := fun h => hdc h.symm
                rw [if_neg hdc, Option.some_inj, eq_comm, decide_eq_false_iff_not]
                unfold Abbreviates
                simp only [List.take_succ_cons, List.cons_append, List.cons_prefix_cons, hdc, hcd,
                  false_and, or_self, not_false_eq_true]

theorem firstName_eq (data : List UInt8) {index : ℕ} (names : List (List UInt8))
    (hindex : index ≤ data.length) :
    firstName data index names =
      some (names.findIdx? fun name => decide (Abbreviates (data.take index) name)) := by
  induction names with
  | nil => rfl
  | cons name names ih =>
      rw [firstName, strncmpEq_eq data name hindex, ih, List.findIdx?_cons]
      by_cases h : Abbreviates (data.take index) name <;> simp [h]

/-- What a token parser makes of a line, whatever follows it. -/
theorem tokenCode_line (stop : UInt8 → Bool) (names : List (List UInt8)) (code : ℕ)
    (line rest : List UInt8) :
    tokenCode stop names code (line ++ rest) line.length =
      some ((names.findIdx? fun name =>
        decide (Abbreviates (tokenOf stop line) name)).getD code) := by
  have hlen : (tokenOf stop line).length ≤ (line ++ rest).length :=
    ((List.takeWhile_prefix _).trans (List.prefix_append line rest)).length_le
  simp [tokenCode, tokenIndex_line, firstName_eq _ names hlen, take_tokenOf]

/-! ## Tables of names -/

/-- No name has a zero byte, and none begins a name before it. -/
structure NameTable (names : List (List UInt8)) : Prop where
  noZero : ∀ name ∈ names, 0 ∉ name
  order : names.Pairwise fun earlier later => ¬ later <+: earlier

instance (names : List (List UInt8)) : Decidable (NameTable names) :=
  decidable_of_iff ((∀ name ∈ names, (0 : UInt8) ∉ name) ∧
      names.Pairwise fun earlier later => ¬ later <+: earlier)
    ⟨fun h => ⟨h.1, h.2⟩, fun h => ⟨h.1, h.2⟩⟩

/-- The first name of the table that the token abbreviates is at `i`. -/
def FirstAbbreviated (names : List (List UInt8)) (token : List UInt8) (i : ℕ) : Prop :=
  (∃ name, names[i]? = some name ∧ Abbreviates token name) ∧
    ∀ j < i, ∀ name, names[j]? = some name → ¬ Abbreviates token name

/-- The answer is the position of the token in the table, and `none` for a token that is not
there. -/
def RecognisedExactly (names : List (List UInt8)) (none : ℕ) (token : List UInt8)
    (answer : Option ℕ) : Prop :=
  ∃ code, answer = some code ∧ ∀ i, i ≠ none → (code = i ↔ names[i]? = some token)

/-- Where the search for an abbreviated name ends. -/
theorem findIdx?_eq_some_iff_first {names : List (List UInt8)} {token : List UInt8} {i : ℕ} :
    (names.findIdx? fun name => decide (Abbreviates token name)) = some i ↔
      FirstAbbreviated names token i := by
  rw [List.findIdx?_eq_some_iff_getElem]
  unfold FirstAbbreviated
  constructor
  · rintro ⟨hi, hname, hbefore⟩
    refine ⟨⟨names[i], by simp [hi], by simpa using hname⟩, ?_⟩
    intro j hj name hnamej
    obtain ⟨hjlt, rfl⟩ := List.getElem?_eq_some_iff.mp hnamej
    simpa using hbefore j hj
  · rintro ⟨⟨name, hname, habbr⟩, hbefore⟩
    obtain ⟨hi, rfl⟩ := List.getElem?_eq_some_iff.mp hname
    refine ⟨hi, by simpa using habbr, ?_⟩
    intro j hj
    have hjlt : j < names.length := Nat.lt_trans hj hi
    simpa using hbefore j hj names[j] (by simp [hjlt])

theorem Abbreviates.refl (name : List UInt8) : Abbreviates name name :=
  .inl (List.prefix_refl name)

namespace NameTable

variable {names : List (List UInt8)} {token : List UInt8}

/-- Names abbreviate no other name before them, so each is found at its own place. -/
theorem firstAbbreviated_iff (h : NameTable names) (htoken : token ∈ names) (i : ℕ) :
    FirstAbbreviated names token i ↔ names[i]? = some token := by
  have hplace : ∀ j : ℕ, names[j]? = some token → ∀ k < j, ∀ name, names[k]? = some name →
      ¬ Abbreviates token name := by
    intro j hj k hk name hname habbr
    obtain ⟨hjlt, rfl⟩ := List.getElem?_eq_some_iff.mp hj
    obtain ⟨hklt, rfl⟩ := List.getElem?_eq_some_iff.mp hname
    rcases habbr with hpre | hzero
    · exact List.pairwise_iff_getElem.mp h.order k j hklt hjlt hk hpre
    · exact h.noZero _ htoken (hzero.subset (by simp))
  constructor
  · rintro ⟨⟨name, hname, habbr⟩, hbefore⟩
    obtain ⟨j, hj⟩ := List.mem_iff_getElem?.mp htoken
    rcases Nat.lt_trichotomy i j with hij | rfl | hij
    · exact absurd habbr (hplace j hj i hij name hname)
    · exact hj
    · exact absurd (Abbreviates.refl token) (hbefore j hij token hj)
  · intro hi
    exact ⟨⟨token, hi, .refl token⟩, hplace i hi⟩

/-- A name is at one place. -/
theorem place_unique (h : NameTable names) {i j : ℕ} (hi : names[i]? = some token)
    (hj : names[j]? = some token) : i = j := by
  have htoken : token ∈ names := List.mem_of_getElem? hi
  have hfirst := (h.firstAbbreviated_iff htoken i).mpr hi
  have hfirst' := (h.firstAbbreviated_iff htoken j).mpr hj
  have heq := (findIdx?_eq_some_iff_first.mpr hfirst).symm.trans
    (findIdx?_eq_some_iff_first.mpr hfirst')
  exact Option.some.inj heq

end NameTable

/-- The position of the first abbreviated name, or `none`. -/
theorem getD_findIdx?_cases (names : List (List UInt8)) (token : List UInt8) (none : ℕ) :
    (∃ i, FirstAbbreviated names token i ∧
        (names.findIdx? fun name => decide (Abbreviates token name)).getD none = i) ∨
      (∀ i, ¬ FirstAbbreviated names token i) ∧
        (names.findIdx? fun name => decide (Abbreviates token name)).getD none = none := by
  cases hfound : names.findIdx? fun name => decide (Abbreviates token name) with
  | none =>
      refine .inr ⟨fun i hi => ?_, rfl⟩
      simp [findIdx?_eq_some_iff_first.mpr hi] at hfound
  | some i => exact .inl ⟨i, findIdx?_eq_some_iff_first.mp hfound, rfl⟩

theorem FirstAbbreviated.unique {names : List (List UInt8)} {token : List UInt8} {i j : ℕ}
    (hi : FirstAbbreviated names token i) (hj : FirstAbbreviated names token j) : i = j :=
  Option.some.inj ((findIdx?_eq_some_iff_first.mpr hi).symm.trans
    (findIdx?_eq_some_iff_first.mpr hj))

/-- **Exact recognition.**  The position of the first abbreviated name is that of the token
exactly when the token is a name, or abbreviates no name, or first the one that stands for
none. -/
theorem recognisedExactly_iff {names : List (List UInt8)} (h : NameTable names)
    (token : List UInt8) (none : ℕ) :
    RecognisedExactly names none token
        (some ((names.findIdx? fun name => decide (Abbreviates token name)).getD none)) ↔
      token ∈ names ∨ ∀ i, FirstAbbreviated names token i → i = none := by
  rcases getD_findIdx?_cases names token none with ⟨k, hk, hcode⟩ | ⟨hnone, hcode⟩ <;> rw [hcode]
  · constructor
    · rintro ⟨code, heq, hexact⟩
      obtain rfl : k = code := Option.some.inj heq
      by_cases hkn : k = none
      · exact .inr fun i hi => hkn ▸ hi.unique hk
      · exact .inl (List.mem_of_getElem? ((hexact k hkn).mp rfl))
    · rintro (htoken | hall)
      · refine ⟨k, rfl, fun i _ => ?_⟩
        have hplace := (h.firstAbbreviated_iff htoken k).mp hk
        exact ⟨fun heq => heq ▸ hplace, fun hi => h.place_unique hplace hi⟩
      · obtain rfl := hall k hk
        refine ⟨k, rfl, fun i hi => iff_of_false (fun heq => hi heq.symm) fun hplace => ?_⟩
        have hfirst := (h.firstAbbreviated_iff (List.mem_of_getElem? hplace) i).mpr hplace
        exact hi (hall i hfirst)
  · refine iff_of_true ⟨none, rfl, fun i hi => ?_⟩ (.inr fun i hi => absurd hi (hnone i))
    refine iff_of_false (fun heq => hi heq.symm) fun hplace => ?_
    exact hnone i ((h.firstAbbreviated_iff (List.mem_of_getElem? hplace) i).mpr hplace)

/-! ## Methods -/

/-- The position of the first name that the token abbreviates, 0 if there is none. -/
def codeOf (names : List (List UInt8)) (token : List UInt8) : ℕ :=
  (names.findIdx? fun name => decide (Abbreviates token name)).getD 0

/-- A name of the table is found at its place. -/
theorem NameTable.codeOf_name {names : List (List UInt8)} (h : NameTable names) {i : ℕ}
    {name : List UInt8} (hi : names[i]? = some name) : codeOf names name = i := by
  have hfirst : FirstAbbreviated names name i :=
    (h.firstAbbreviated_iff (List.mem_of_getElem? hi) i).mpr hi
  unfold codeOf
  rw [findIdx?_eq_some_iff_first.mpr hfirst]
  rfl

/-- The token of a line that memcached's `parseMethod` looks up. -/
def MemCached.methodToken (line : List UInt8) : List UInt8 :=
  tokenOf (fun d => d = SP || d = CR) line

theorem MemCached.parseMethod_line (line rest : List UInt8) :
    parseMethod (line ++ rest) line.length = some (codeOf methodsName (methodToken line)) :=
  tokenCode_line (fun d => d = SP || d = CR) methodsName 0 line rest

theorem MemCached.methodsName_table : NameTable methodsName := by
  decide

/-- The token of a line that HTTP's `parseMethod` looks up: after `M-` or an empty line, if
there is one of them. -/
def Http.methodToken (line : List UInt8) : List UInt8 :=
  tokenOf (· = SP) (if mandatory line then line.drop 2 else line)

theorem Http.parseMethod_line (line rest : List UInt8) :
    parseMethod (line ++ rest) line.length = some (codeOf methodsName (methodToken line)) := by
  match line with
  | [] => exact (parseMethod_one _ (by decide)).trans (tokenCode_line _ _ _ [] rest)
  | [a] =>
      have hno : mandatory [a] = false := by
        simp [mandatory, chars]
      simp only [methodToken, hno, Bool.false_eq_true, if_false]
      exact (parseMethod_one _ (by simp)).trans (tokenCode_line _ _ _ [a] rest)
  | a :: b :: line =>
      have hsame : mandatory (a :: b :: (line ++ rest)) = mandatory (a :: b :: line) := rfl
      rw [List.cons_append, List.cons_append, parseMethod_two a b (line ++ rest) (by simp), hsame]
      unfold methodToken
      cases mandatory (a :: b :: line) with
      | true => exact tokenCode_line _ _ _ line rest
      | false => exact tokenCode_line _ _ _ (a :: b :: line) rest

theorem Http.methodsName_table : NameTable methodsName := by
  decide

/-- **Which methods are recognised.**  For every line, whatever follows it in memory, each
`parseMethod` answers the position of the line's token among the methods, and 0 for a token
that is none of them, exactly when the token is a name of the table, or the first name that
it abbreviates, if any, is the one at 0. -/
theorem methods_recognised_iff (line rest : List UInt8) :
    (RecognisedExactly MemCached.methodsName 0 (MemCached.methodToken line)
        (MemCached.parseMethod (line ++ rest) line.length) ↔
      MemCached.methodToken line ∈ MemCached.methodsName ∨
        ∀ i, FirstAbbreviated MemCached.methodsName (MemCached.methodToken line) i → i = 0) ∧
    (RecognisedExactly Http.methodsName 0 (Http.methodToken line)
        (Http.parseMethod (line ++ rest) line.length) ↔
      Http.methodToken line ∈ Http.methodsName ∨
        ∀ i, FirstAbbreviated Http.methodsName (Http.methodToken line) i → i = 0) := by
  rw [MemCached.parseMethod_line, Http.parseMethod_line]
  exact ⟨recognisedExactly_iff MemCached.methodsName_table _ 0,
    recognisedExactly_iff Http.methodsName_table _ 0⟩

/-- A line that begins with `GE` is taken for a `GET`, and one that begins with `i` for an
`incr`. -/
theorem methods_abbreviated :
    (¬ ∀ line rest, RecognisedExactly MemCached.methodsName 0 (MemCached.methodToken line)
        (MemCached.parseMethod (line ++ rest) line.length)) ∧
      ¬ ∀ line rest, RecognisedExactly Http.methodsName 0 (Http.methodToken line)
        (Http.parseMethod (line ++ rest) line.length) := by
  constructor
  · intro h
    obtain ⟨code, hcode, hexact⟩ := h (chars "i a\r\n") []
    obtain rfl : 10 = code := Option.some.inj (Eq.trans (by decide) hcode)
    exact absurd ((hexact 10 (by decide)).mp rfl) (by decide)
  · intro h
    obtain ⟨code, hcode, hexact⟩ := h (chars "GE / HTTP/1.1\r\n") []
    obtain rfl : 2 = code := Option.some.inj (Eq.trans (by decide) hcode)
    exact absurd ((hexact 2 (by decide)).mp rfl) (by decide)

/-! ## Statuses -/

namespace MemCached

/-- The first token of a response line, ended by a space, a CR or an LF. -/
def statusToken (line : List UInt8) : List UInt8 :=
  tokenOf (fun d => d = SP || d = CR || d = LF) line

/-- The token that `parseStatus` looks up, ended by a space only. -/
def lookedUp (line : List UInt8) : List UInt8 := tokenOf (· = SP) line

theorem parseStatus_line (line rest : List UInt8) :
    parseStatus (line ++ rest) line.length =
      some ((status.findIdx? fun name =>
        decide (Abbreviates (lookedUp line) name)).getD (status.length - 1)) :=
  tokenCode_line (· = SP) status (status.length - 1) line rest

theorem status_table : NameTable status := by
  decide

/-- The first token is what the looked up one has before its first CR or LF. -/
theorem statusToken_eq (line : List UInt8) :
    statusToken line = tokenOf (fun d => d = CR || d = LF) (lookedUp line) := by
  unfold statusToken lookedUp tokenOf
  rw [List.takeWhile_takeWhile]
  congr 1
  funext d
  by_cases hSP : d = SP <;> by_cases hCR : d = CR <;> by_cases hLF : d = LF <;>
    simp [hSP, hCR, hLF]

theorem status_no_lineEnd : ∀ name ∈ status, CR ∉ name ∧ LF ∉ name := by
  decide

/-- A name looked up is the first token. -/
theorem statusToken_of_lookedUp {line : List UInt8} (h : lookedUp line ∈ status) :
    statusToken line = lookedUp line := by
  obtain ⟨hCR, hLF⟩ := status_no_lineEnd _ h
  rw [statusToken_eq, tokenOf, List.takeWhile_eq_self_iff]
  intro d hd
  have hdCR : d ≠ CR := fun heq => hCR (heq ▸ hd)
  have hdLF : d ≠ LF := fun heq => hLF (heq ▸ hd)
  simp [hdCR, hdLF]

/-- A name with a line end behind it abbreviates nothing. -/
theorem not_abbreviates_of_bare {line : List UInt8} (hname : statusToken line ∈ status)
    (hne : lookedUp line ∉ status) : ∀ name ∈ status, ¬ Abbreviates (lookedUp line) name := by
  rw [statusToken_eq] at hname
  generalize lookedUp line = token at hname hne ⊢
  -- the token goes on with the CR or LF that ends the name
  obtain ⟨c, rest, htoken, hc⟩ : ∃ c rest,
      token = tokenOf (fun d => d = CR || d = LF) token ++ c :: rest ∧ (c = CR ∨ c = LF) := by
    have hsplit := List.takeWhile_append_dropWhile (p := fun d => !(d = CR || d = LF)) (l := token)
    cases hdrop : token.dropWhile fun d => !(d = CR || d = LF) with
    | nil =>
        rw [hdrop, List.append_nil] at hsplit
        exact absurd (hsplit ▸ hname : token ∈ status) hne
    | cons c rest =>
        refine ⟨c, rest, by rw [hdrop] at hsplit; exact hsplit.symm, ?_⟩
        have hhead := List.head?_dropWhile_not (fun d => !(d = CR || d = LF)) token
        rw [hdrop] at hhead
        have hor : ¬ c = CR → c = LF := by simpa using hhead
        exact or_iff_not_imp_left.mpr hor
  have hc0 : c ≠ 0 := by
    rcases hc with rfl | rfl <;> decide
  generalize tokenOf (fun d => d = CR || d = LF) token = word at *
  intro name hmem habbr
  obtain ⟨hCR, hLF⟩ := status_no_lineEnd name hmem
  have hcname : c ∉ name := by
    rcases hc with rfl | rfl
    · exact hCR
    · exact hLF
  have hword : word ++ [c] <+: token := ⟨rest, by rw [htoken]; simp⟩
  rcases habbr with hpre | hzero
  · exact hcname ((hword.trans hpre).subset (by simp))
  · rcases List.prefix_or_prefix_of_prefix hzero hword with h | h
    · have hmem0 : (0 : UInt8) ∈ word ++ [c] := h.subset (by simp)
      rcases List.mem_append.mp hmem0 with h0 | h0
      · exact status_table.noZero _ hname h0
      · exact hc0 (List.mem_singleton.mp h0).symm
    · have hmemc : c ∈ name ++ [0] := h.subset (by simp)
      rcases List.mem_append.mp hmemc with h0 | h0
      · exact hcname h0
      · exact hc0 (List.mem_singleton.mp h0)

/-- The code of `NONE`. -/
def noneCode : ℕ := status.length - 1

/-- What is looked up is a name; or it abbreviates no name, or first `NONE`, and the first
token is no name but `NONE`. -/
def LooksUpStatus (line : List UInt8) : Prop :=
  lookedUp line ∈ status ∨
    (∀ i, FirstAbbreviated status (lookedUp line) i → i = noneCode) ∧
      (statusToken line ∈ status → statusToken line = chars "NONE")

theorem parseStatus_exact_iff (line rest : List UInt8) :
    RecognisedExactly status noneCode (statusToken line) (parseStatus (line ++ rest) line.length) ↔
      LooksUpStatus line := by
  have hNONE : status[noneCode]? = some (chars "NONE") := by decide
  rw [parseStatus_line]
  by_cases hlooked : lookedUp line ∈ status
  · rw [statusToken_of_lookedUp hlooked]
    exact iff_of_true ((recognisedExactly_iff status_table _ _).mpr (.inl hlooked)) (.inl hlooked)
  · unfold LooksUpStatus
    simp only [hlooked, false_or]
    rcases getD_findIdx?_cases status (lookedUp line) noneCode with
      ⟨k, hk, hcode⟩ | ⟨hnone, hcode⟩ <;> rw [show status.length - 1 = noneCode from rfl, hcode]
    · have hbare : statusToken line ∉ status := by
        intro hname
        obtain ⟨⟨name, hk', habbr⟩, -⟩ := hk
        exact not_abbreviates_of_bare hname hlooked name (List.mem_of_getElem? hk') habbr
      constructor
      · rintro ⟨code, heq, hexact⟩
        obtain rfl : k = code := Option.some.inj heq
        refine ⟨fun i hi => ?_, fun hname => absurd hname hbare⟩
        by_contra hne
        obtain rfl := hi.unique hk
        exact hbare (List.mem_of_getElem? ((hexact i hne).mp rfl))
      · rintro ⟨hall, -⟩
        obtain rfl := hall k hk
        exact ⟨noneCode, rfl, fun i hi => iff_of_false (fun heq => hi heq.symm)
          fun hname => hbare (List.mem_of_getElem? hname)⟩
    · constructor
      · rintro ⟨code, heq, hexact⟩
        obtain rfl : noneCode = code := Option.some.inj heq
        refine ⟨fun i hi => absurd hi (hnone i), fun hname => ?_⟩
        obtain ⟨i, hi⟩ := List.mem_iff_getElem?.mp hname
        by_cases hin : i = noneCode
        · subst hin
          exact Option.some.inj (hi.symm.trans hNONE)
        · exact absurd ((hexact i hin).mpr hi).symm hin
      · rintro ⟨-, hname⟩
        refine ⟨noneCode, rfl, fun i hi => iff_of_false (fun heq => hi heq.symm) fun hplace => ?_⟩
        rw [hname (List.mem_of_getElem? hplace)] at hplace
        exact hi (status_table.place_unique hplace hNONE)

/-- The search for the line end finds the LF of the line. -/
theorem findLineEnd_line {text : List UInt8} (rest : List UInt8) (hLF : LF ∉ text) :
    findLineEnd (text ++ LF :: rest) = some text.length := by
  induction text with
  | nil => rfl
  | cons d text ih =>
      have hd : d ≠ LF := fun h => hLF (by simp [h])
      have hrest := ih fun h => hLF (by simp [h])
      rw [List.cons_append, findLineEnd, if_neg hd, hrest]
      rfl

/-- What `isResponse` makes of a line that `parseStatus` answers exactly. -/
theorem isResponse_of_exact {text rest : List UInt8} (n : ℕ) (hLF : LF ∉ text)
    (h : RecognisedExactly status noneCode (statusToken (text ++ [LF]))
      (parseStatus (text ++ LF :: rest) (text.length + 1))) :
    isResponse (text ++ LF :: rest) n =
      some (if statusToken (text ++ [LF]) ∈ status ∧ statusToken (text ++ [LF]) ≠ chars "NONE"
        then some text.length else none) := by
  have hNONE : status[noneCode]? = some (chars "NONE") := by decide
  obtain ⟨code, hcode, hexact⟩ := h
  simp only [isResponse, findLineEnd_line rest hLF, hcode, Option.bind_eq_bind, Option.bind_some,
    show status.length - 1 = noneCode from rfl]
  by_cases hname : statusToken (text ++ [LF]) ∈ status ∧ statusToken (text ++ [LF]) ≠ chars "NONE"
  · obtain ⟨i, hi⟩ := List.mem_iff_getElem?.mp hname.1
    have hin : i ≠ noneCode := by
      rintro rfl
      exact hname.2 (Option.some.inj (hi.symm.trans hNONE))
    obtain rfl := (hexact i hin).mpr hi
    rw [if_neg hin, if_pos hname]
    rfl
  · have hnone : code = noneCode := by
      by_contra hne
      have hplace := (hexact code hne).mp rfl
      refine hname ⟨List.mem_of_getElem? hplace, fun heq => hne ?_⟩
      rw [heq] at hplace
      exact status_table.place_unique hplace hNONE
    rw [if_pos hnone, if_neg hname]
    rfl

end MemCached

/-- **Which statuses are recognised.**  For every line, whatever follows it in memory,
`parseStatus` answers the position of the line's first token among the statuses, that of
`NONE` for a token that is none of them, and `isResponse` accepts the payload exactly for a
status other than `NONE`, if and only if the bytes before the first space are a name of the
table, or abbreviate no name but `NONE` while the first token is no name but `NONE`. -/
theorem statuses_recognised_iff (text rest : List UInt8) (n : ℕ) (hLF : LF ∉ text) :
    RecognisedExactly MemCached.status MemCached.noneCode (MemCached.statusToken (text ++ [LF]))
          (MemCached.parseStatus (text ++ LF :: rest) (text.length + 1)) ∧
        MemCached.isResponse (text ++ LF :: rest) n =
          some (if MemCached.statusToken (text ++ [LF]) ∈ MemCached.status ∧
              MemCached.statusToken (text ++ [LF]) ≠ chars "NONE"
            then some text.length else none) ↔
      MemCached.LooksUpStatus (text ++ [LF]) := by
  have hline := MemCached.parseStatus_exact_iff (text ++ [LF]) rest
  rw [List.append_assoc, List.singleton_append, List.length_append] at hline
  rw [← hline]
  exact ⟨fun h => h.1, fun h => ⟨h, MemCached.isResponse_of_exact n hLF h⟩⟩

/-- The first line of the answer to a `get`. -/
theorem statuses_recognised_value :
    RecognisedExactly MemCached.status MemCached.noneCode
        (MemCached.statusToken (chars "VALUE k 0 5\r" ++ [LF]))
        (MemCached.parseStatus (chars "VALUE k 0 5\r" ++ LF :: chars "hello\r\nEND\r\n") 13) ∧
      MemCached.isResponse (chars "VALUE k 0 5\r" ++ LF :: chars "hello\r\nEND\r\n") 25 =
        some (if MemCached.statusToken (chars "VALUE k 0 5\r" ++ [LF]) ∈ MemCached.status ∧
            MemCached.statusToken (chars "VALUE k 0 5\r" ++ [LF]) ≠ chars "NONE"
          then some 12 else none) :=
  (statuses_recognised_iff (chars "VALUE k 0 5\r") (chars "hello\r\nEND\r\n") 25 (by decide)).mpr
    (.inl (by decide))

/-- The answer to a successful `set` is a bare status, and is not recognised. -/
theorem statuses_bare :
    ¬ ∀ (text rest : List UInt8) (n : ℕ), LF ∉ text →
      RecognisedExactly MemCached.status MemCached.noneCode (MemCached.statusToken (text ++ [LF]))
          (MemCached.parseStatus (text ++ LF :: rest) (text.length + 1)) ∧
        MemCached.isResponse (text ++ LF :: rest) n =
          some (if MemCached.statusToken (text ++ [LF]) ∈ MemCached.status ∧
              MemCached.statusToken (text ++ [LF]) ≠ chars "NONE"
            then some text.length else none) := by
  intro h
  obtain ⟨-, hanswer⟩ := h (chars "STORED\r") [] 8 (by decide)
  revert hanswer
  decide

end MonitoringTool.Sniffer
