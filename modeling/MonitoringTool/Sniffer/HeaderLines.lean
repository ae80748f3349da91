import MonitoringTool.Sniffer.HeaderParam

/-!
# The lines of a header

`Protocol::find_header_end` looks for the empty line behind a header.  It calls `memchr` for one
LF after the other, each time on what is left of the buffer, and takes a line for empty if its LF
comes less than two bytes behind the one before.  The byte between the two is not looked at, so
that a line of one byte ends a header as well as a line with nothing but its CR.

`Protocol.findHeaderEnd` has the calls of `memchr` and the count of the lines; it finds what
`Http.findHeaderEnd` does.  `header_end_first_empty_iff` says when that is the first empty line.
-/

namespace MonitoringTool.Sniffer

namespace Protocol

/-! ## The search -/

/-- The loop of `find_header_end` on the `n` bytes of `data`, with `lf` at the start of a line and
`lineCnt` lines counted: the header end and `*line_cnt`. -/
def headerLines (data : List UInt8) (n lf lineCnt : ℕ) : Option (Option ℕ × ℕ) :=
  match h : memchr LF (data.drop lf) (n - lf) with
  | none => none
  | some none => some (none, lineCnt)
  | some (some len) =>
      if len < 2 then some (some (lf + len), lineCnt)
      else headerLines data n (lf + len + 1) (lineCnt + 1)
termination_by n - lf
decreasing_by
  have hlt := (memchr_lt h).2
  omega

/-- `Protocol::find_header_end(data, data + n - 1, line_cnt)`. -/
def findHeaderEnd (data : List UInt8) (n lineCnt : ℕ) : Option (Option ℕ × ℕ) := do
  match ← memchr LF data n with
  | none => return (none, lineCnt)
  | some lf => headerLines data n (lf + 1) (lineCnt + 1)

theorem headerLines_none {data : List UInt8} {n lf lineCnt : ℕ}
    (h : memchr LF (data.drop lf) (n - lf) = some none) :
    headerLines data n lf lineCnt = some (none, lineCnt) := by
  rw [headerLines]
  split <;> simp_all

theorem headerLines_some {data : List UInt8} {n lf lineCnt len : ℕ}
    (h : memchr LF (data.drop lf) (n - lf) = some (some len)) :
    headerLines data n lf lineCnt =
      if len < 2 then some (some (lf + len), lineCnt)
      else headerLines data n (lf + len + 1) (lineCnt + 1) := by
  rw [headerLines]
  split
  · next hnone => simp [h] at hnone
  · next hnone => simp [h] at hnone
  · next len' hsome =>
    obtain rfl : len = len' := by simpa [h] using hsome
    rfl

/-- The loop of `Http.headerEnd` goes on as `memchr` does. -/
theorem headerEnd_memchr (data : List UInt8) (n pos len : ℕ) :
    Http.headerEnd data n pos len =
      (memchr LF data n).bind fun found =>
        match found with
        | none => some none
        | some k =>
            if len + k < 2 then some (some (pos + k))
            else Http.headerEnd (data.drop (k + 1)) (n - (k + 1)) (pos + k + 1) 0 := by
  induction data generalizing n pos len with
  | nil => cases n <;> simp [Http.headerEnd, memchr]
  | cons d data ih =>
      cases n with
      | zero => simp [Http.headerEnd, memchr]
      | succ n =>
          rw [Http.headerEnd, memchr]
          by_cases hd : d = LF
          · simp [hd]
          · rw [if_neg hd, if_neg hd, ih]
            cases memchr LF data n with
            | none => rfl
            | some found =>
                cases found with
                | none => rfl
                | some k =>
                    have hlen : len + 1 + k = len + (k + 1) := by omega
                    have hpos : pos + 1 + k = pos + (k + 1) := by omega
                    simp [hlen, hpos]

theorem headerLines_eq (data : List UInt8) (n lf lineCnt : ℕ) :
    (headerLines data n lf lineCnt).map (·.1) =
      Http.headerEnd (data.drop lf) (n - lf) lf 0 := by
  rw [headerEnd_memchr]
  cases hfound : memchr LF (data.drop lf) (n - lf) with
  | none =>
      rw [headerLines]
      split <;> simp_all
  | some found =>
      cases found with
      | none => simp [headerLines_none hfound]
      | some len =>
          have hlt := (memchr_lt hfound).2
          rw [headerLines_some hfound, Option.bind_some]
          dsimp only
          rw [Nat.zero_add]
          by_cases hshort : len < 2
          · rw [if_pos hshort, if_pos hshort]
            rfl
          · have hrest := headerLines_eq data n (lf + len + 1) (lineCnt + 1)
            have hn : n - lf - (len + 1) = n - (lf + len + 1) := by omega
            rw [if_neg hshort, if_neg hshort, hrest, List.drop_drop, hn, Nat.add_assoc]
termination_by n - lf

/-- Both definitions find the same header end. -/
theorem findHeaderEnd_eq (data : List UInt8) (n lineCnt : ℕ) :
    (findHeaderEnd data n lineCnt).map (·.1) = Http.findHeaderEnd data n := by
  unfold findHeaderEnd Http.findHeaderEnd
  cases hfound : memchr LF data n with
  | none => rfl
  | some found =>
      cases found with
      | none => rfl
      | some lf => exact headerLines_eq data n (lf + 1) (lineCnt + 1)

/-! ## What it finds -/

/-- `data[k]` is an LF that ends a line behind the first one, of less than two bytes. -/
def EndsShortLine (data : List UInt8) (k : ℕ) : Prop :=
  data[k]? = some LF ∧ ∃ j < k, data[j]? = some LF ∧ k ≤ j + 2

/-- `data[k]` is an LF that ends an empty line behind the first one: between it and an LF before
is nothing, or only a CR. -/
def EndsEmptyLine (data : List UInt8) (k : ℕ) : Prop :=
  data[k]? = some LF ∧
    ∃ j, data[j]? = some LF ∧ (k = j + 1 ∨ k = j + 2 ∧ data[j + 1]? = some CR)

/-- `data[k]` is an LF that ends a line behind the first one, of one byte that is no CR. -/
def EndsOneByteLine (data : List UInt8) (k : ℕ) : Prop :=
  data[k]? = some LF ∧
    ∃ j, data[j]? = some LF ∧ k = j + 2 ∧ data[j + 1]? ≠ some CR ∧ data[j + 1]? ≠ some LF

/-- `r` is the first position with the property, if there is one. -/
def IsFirst (p : ℕ → Prop) : Option ℕ → Prop
  | none => ∀ k, ¬ p k
  | some k => p k ∧ ∀ j < k, ¬ p j

/-- A short line is empty, or its one byte is no CR. -/
theorem endsShortLine_iff {data : List UInt8} {k : ℕ} :
    EndsShortLine data k ↔ EndsEmptyLine data k ∨ EndsOneByteLine data k := by
  constructor
  · rintro ⟨hk, j, hlt, hj, hle⟩
    by_cases hnext : k = j + 1
    · exact .inl ⟨hk, j, hj, .inl hnext⟩
    · have hk2 : k = j + 2 := by omega
      by_cases hCR : data[j + 1]? = some CR
      · exact .inl ⟨hk, j, hj, .inr ⟨hk2, hCR⟩⟩
      · by_cases hLF : data[j + 1]? = some LF
        · exact .inl ⟨hk, j + 1, hLF, .inl (by omega)⟩
        · exact .inr ⟨hk, j, hj, hk2, hCR, hLF⟩
  · rintro (⟨hk, j, hj, hkj⟩ | ⟨hk, j, hj, hkj, -, -⟩)
    · exact ⟨hk, j, by omega, hj, by omega⟩
    · exact ⟨hk, j, by omega, hj, by omega⟩

/-- A line that is empty is not one of one byte. -/
theorem EndsOneByteLine.not_empty {data : List UInt8} {k : ℕ} (h : EndsOneByteLine data k) :
    ¬ EndsEmptyLine data k := by
  obtain ⟨hk, j, hj, rfl, hCR, hLF⟩ := h
  rintro ⟨-, i, hi, heq | ⟨heq, hi'⟩⟩
  · obtain rfl : i = j + 1 := by omega
    exact hLF hi
  · obtain rfl : i = j := by omega
    exact hCR hi'

/-- One call of `memchr`, on what is left of the buffer from `start` on. -/
theorem memchr_drop (data : List UInt8) {start : ℕ} (hstart : start ≤ data.length) :
    (memchr LF (data.drop start) (data.length - start) = some none ∧
      ∀ k, start ≤ k → data[k]? ≠ some LF) ∨
    ∃ len, memchr LF (data.drop start) (data.length - start) = some (some len) ∧
      data[start + len]? = some LF ∧ ∀ k, start ≤ k → k < start + len → data[k]? ≠ some LF := by
  have hlen : data.length - start ≤ (data.drop start).length := by rw [List.length_drop]
  obtain ⟨found, hfound⟩ :=
    Option.isSome_iff_exists.mp ((memchr_sequential LF).inside (data.drop start) _ hlen)
  cases found with
  | none =>
      refine .inl ⟨hfound, fun k hk => ?_⟩
      by_cases hin : k < data.length
      · have hnot := memchr_eq_none hlen hfound (k - start) (by omega)
        rwa [List.getElem?_drop, Nat.add_sub_cancel' hk] at hnot
      · rw [List.getElem?_eq_none (by omega)]
        exact Option.some_ne_none LF ∘ Eq.symm
  | some len =>
      obtain ⟨text, rest, hdrop, hnot, htext, -⟩ := memchr_eq_some_iff.mp hfound
      refine .inr ⟨len, hfound, ?_, fun k hk hlt => ?_⟩
      · rw [← List.getElem?_drop, hdrop, ← htext]
        simp
      · rw [← Nat.add_sub_cancel' hk, ← List.getElem?_drop, hdrop,
          List.getElem?_append_left (by omega)]
        exact fun h => hnot (List.mem_of_getElem? h)

/-- **The loop.**  It is entered behind the LF at `lf`, up to which no short line ends. -/
theorem headerLines_first {data : List UInt8} (lf lineCnt : ℕ) (hLF : data[lf]? = some LF)
    (hbefore : ∀ k ≤ lf, ¬ EndsShortLine data k) :
    ∃ r cnt, headerLines data data.length (lf + 1) lineCnt = some (r, cnt) ∧
      IsFirst (EndsShortLine data) r := by
  have hlf : lf < data.length := (List.getElem?_eq_some_iff.mp hLF).1
  rcases memchr_drop data hlf with ⟨hnone, hrest⟩ | ⟨len, hsome, hend, hline⟩
  · -- no line ends behind `lf`
    refine ⟨none, lineCnt, headerLines_none hnone, fun k hk => ?_⟩
    by_cases hkl : k ≤ lf
    · exact hbefore k hkl hk
    · exact hrest k (by omega) hk.1
  · have hbelow : ∀ k < lf + 1 + len, ¬ EndsShortLine data k := by
      intro k hk
      by_cases hkl : k ≤ lf
      · exact hbefore k hkl
      · exact fun hshort => hline k (by omega) hk hshort.1
    rw [headerLines_some hsome]
    by_cases hshort : len < 2
    · rw [if_pos hshort]
      exact ⟨_, _, rfl, ⟨hend, lf, by omega, hLF, by omega⟩, hbelow⟩
    · -- the line is longer, and the next one begins behind its LF
      have hlong : ¬ EndsShortLine data (lf + 1 + len) := by
        rintro ⟨-, j, hlt, hj, hle⟩
        exact hline j (by omega) hlt hj
      rw [if_neg hshort]
      apply headerLines_first (lf + 1 + len) (lineCnt + 1) hend
      intro k hk
      rcases Nat.lt_or_eq_of_le hk with hlt | rfl
      · exact hbelow k hlt
      · exact hlong
termination_by data.length - lf

/-- **What `find_header_end` finds**: the first short line, without a read behind the buffer. -/
theorem findHeaderEnd_first (data : List UInt8) (lineCnt : ℕ) :
    ∃ r cnt, findHeaderEnd data data.length lineCnt = some (r, cnt) ∧
      IsFirst (EndsShortLine data) r := by
  rcases memchr_drop data (Nat.zero_le data.length) with ⟨hnone, hrest⟩ | ⟨lf, hsome, hend, hline⟩
  · refine ⟨none, lineCnt, ?_, fun k hk => hrest k (Nat.zero_le k) hk.1⟩
    simp only [List.drop_zero, Nat.sub_zero] at hnone
    simp [findHeaderEnd, hnone]
  · simp only [List.drop_zero, Nat.sub_zero, Nat.zero_add] at hsome hend hline
    have hbefore : ∀ k ≤ lf, ¬ EndsShortLine data k := by
      rintro k hk ⟨-, j, hlt, hj, -⟩
      exact hline j (Nat.zero_le j) (by omega) hj
    obtain ⟨r, cnt, hres, hfirst⟩ := headerLines_first lf (lineCnt + 1) hend hbefore
    refine ⟨r, cnt, ?_, hfirst⟩
    simpa [findHeaderEnd, hsome] using hres

/-- What `find_header_end` should find. -/
def HeaderEndRight (data : List UInt8) (lineCnt : ℕ) : Prop :=
  ∃ r cnt, findHeaderEnd data data.length lineCnt = some (r, cnt) ∧ IsFirst (EndsEmptyLine data) r

/-- **When the header end is the first empty line.**  The search never reads behind the buffer.
Exactly if an empty line ends before every line of one byte that is no CR, it finds the LF of the
first empty line, and `NULL` if there is none. -/
theorem header_end_first_empty_iff (data : List UInt8) (lineCnt : ℕ) :
    (findHeaderEnd data data.length lineCnt).isSome ∧
      (HeaderEndRight data lineCnt ↔
        ∀ k, EndsOneByteLine data k → ∃ j < k, EndsEmptyLine data j) := by
  obtain ⟨r, cnt, hres, hfirst⟩ := findHeaderEnd_first data lineCnt
  have hempty : ∀ {k}, EndsEmptyLine data k → EndsShortLine data k :=
    fun h => endsShortLine_iff.mpr (.inl h)
  have hone : ∀ {k}, EndsOneByteLine data k → EndsShortLine data k :=
    fun h => endsShortLine_iff.mpr (.inr h)
  refine ⟨by rw [hres]; rfl, ?_, ?_⟩
  · rintro ⟨r', cnt', hres', hright⟩ k hk
    obtain ⟨rfl, -⟩ := Prod.mk.inj (Option.some.inj (hres.symm.trans hres'))
    cases r with
    | none => exact absurd (hone hk) (hfirst k)
    | some m =>
        have hle : ¬ k < m := fun hlt => hfirst.2 k hlt (hone hk)
        have hne : m ≠ k := fun heq => hk.not_empty (heq ▸ hright.1)
        exact ⟨m, by omega, hright.1⟩
  · intro hall
    refine ⟨r, cnt, hres, ?_⟩
    cases r with
    | none => exact fun k hk => hfirst k (hempty hk)
    | some m =>
        have hm : ¬ EndsOneByteLine data m := by
          intro hbad
          obtain ⟨j, hlt, hj⟩ := hall m hbad
          exact hfirst.2 j hlt (hempty hj)
        exact ⟨(endsShortLine_iff.mp hfirst.1).resolve_right hm,
          fun j hlt hj => hfirst.2 j hlt (hempty hj)⟩

/-- A response whose second line is an `X` without a CR. -/
def oneByteLine : List UInt8 := chars "HTTP/1.1 200 OK\r\nX\nServer: a\r\n\r\n"

/-- Its header is taken to end with the `X`, at 18 and not at 31. -/
theorem header_end_in_header :
    ¬ ∀ (data : List UInt8) (lineCnt : ℕ), HeaderEndRight data lineCnt := by
  intro h
  obtain ⟨r, cnt, hres, hright⟩ := h oneByteLine 0
  have hfound : Http.findHeaderEnd oneByteLine oneByteLine.length = some (some 18) := by decide
  have hr : r = some 18 := by
    rw [← findHeaderEnd_eq oneByteLine _ 0, hres] at hfound
    simpa using hfound
  subst hr
  obtain ⟨-, j, hj, heq | ⟨heq, hCR⟩⟩ := hright.1
  · obtain rfl : j = 17 := by omega
    revert hj
    decide
  · obtain rfl : j = 16 := by omega
    revert hCR
    decide

end Protocol

end MonitoringTool.Sniffer
