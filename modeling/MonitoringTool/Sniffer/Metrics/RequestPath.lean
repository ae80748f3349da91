import Mathlib.Data.List.DropRight
import MonitoringTool.Sniffer.Metrics.MetricCumDistr

/-!
# Paths and queries

`extractReqMethod` cuts a URI at its first question mark, `extractReqPath` behind its last
slash.  The second looks for the slash in the whole URI, the query included, so that a slash
in the query is taken for one of the path.  `request_paths_ignore_query_iff` says that this
is the only way in which the two disagree.
-/

namespace MonitoringTool.Sniffer

/-! ## Up to the last slash -/

/-- The text up to its last slash, nothing if it has none. -/
def upToLastSlash (text : List UInt8) : List UInt8 := text.rdropWhile (· ≠ SLASH)

theorem upToLastSlash_eq_nil_iff {text : List UInt8} : upToLastSlash text = [] ↔ SLASH ∉ text := by
  unfold upToLastSlash
  rw [List.rdropWhile_eq_nil_iff]
  constructor
  · intro h hmem
    simpa using h SLASH hmem
  · intro h c hc
    have hne : c ≠ SLASH := fun heq => h (heq ▸ hc)
    simpa using hne

theorem upToLastSlash_append_of_mem (front : List UInt8) {text : List UInt8} (h : SLASH ∈ text) :
    upToLastSlash (front ++ text) = front ++ upToLastSlash text := by
  have hslash : text.reverse.dropWhile (· ≠ SLASH) ≠ [] := by
    intro hnil
    exact upToLastSlash_eq_nil_iff.mp (by rw [upToLastSlash, List.rdropWhile, hnil]; rfl) h
  simp only [upToLastSlash, List.rdropWhile, List.reverse_append]
  rw [List.dropWhile_append, if_neg (by simpa using hslash), List.reverse_append,
    List.reverse_reverse]

theorem upToLastSlash_append_of_not_mem (front : List UInt8) {text : List UInt8}
    (h : SLASH ∉ text) : upToLastSlash (front ++ text) = upToLastSlash front := by
  have hnil : text.reverse.dropWhile (· ≠ SLASH) = [] := by
    simpa [upToLastSlash, List.rdropWhile] using upToLastSlash_eq_nil_iff.mpr h
  simp only [upToLastSlash, List.rdropWhile, List.reverse_append]
  rw [List.dropWhile_append, if_pos (by simpa using hnil)]

theorem upToLastSlash_concat (front : List UInt8) : upToLastSlash (front ++ [SLASH]) =
    front ++ [SLASH] :=
  List.rdropWhile_concat_neg _ _ _ (by simp)

/-! ## The two extractors -/

/-- The part of the URI before the first question mark. -/
def CString.beforeQuery (uri : CString) : List UInt8 := uri.chars.takeWhile (· ≠ QUESTION)

/-- The rest of it. -/
def CString.query (uri : CString) : List UInt8 := uri.chars.dropWhile (· ≠ QUESTION)

theorem CString.beforeQuery_append_query (uri : CString) :
    uri.beforeQuery ++ uri.query = uri.chars :=
  List.takeWhile_append_dropWhile

theorem CString.ext_chars {s t : CString} (h : s.chars = t.chars) : s = t := by
  cases s
  cases t
  simpa using h

theorem CString.find_none {s : CString} {c : UInt8} : s.find c = none ↔ c ∉ s.chars :=
  List.idxOf?_eq_none_iff

/-- What stands before the first `c`. -/
theorem CString.substr_find {s : CString} {c : UInt8} {i : ℕ} (h : s.find c = some i) :
    (s.substr i).chars = s.chars.takeWhile (· ≠ c) := by
  unfold CString.find at h
  show s.chars.take i = _
  generalize s.chars = chars at h
  induction chars generalizing i with
  | nil => simp at h
  | cons d chars ih =>
      rw [List.idxOf?_cons] at h
      by_cases hd : d = c
      · obtain rfl : 0 = i := by simpa [hd] using h
        simp [hd]
      · obtain ⟨j, hj, rfl⟩ : ∃ j, chars.idxOf? c = some j ∧ j + 1 = i := by
          simpa [hd] using h
        simp [hd, ih hj]

/-- Where the last `c` stands. -/
theorem CString.findLastOf_eq {s : CString} {c : UInt8} {front rest : List UInt8}
    (hs : s.chars = front ++ c :: rest) (hrest : c ∉ rest) :
    s.findLastOf c = some front.length := by
  have hfirst : s.chars.reverse.idxOf? c = some rest.length := by
    rw [hs, List.idxOf?_eq_some_iff]
    have hlt : rest.length < (front ++ c :: rest).reverse.length := by simp
    refine ⟨hlt, by simp, fun j hj => ?_⟩
    have hj_lt : j < (front ++ c :: rest).reverse.length := hj.trans hlt
    have hmem : (front ++ c :: rest).reverse[j] ∈ rest := by
      have hj' : j < rest.reverse.length := by simpa using hj
      have hat : (front ++ c :: rest).reverse[j] = rest.reverse[j] := by
        simp [List.getElem_append_left hj']
      rw [hat]
      exact List.mem_reverse.mp (List.getElem_mem hj')
    intro heq
    exact hrest (heq ▸ hmem)
  unfold CString.findLastOf
  rw [hfirst, hs]
  simp

namespace ReqPath

theorem extractReqPath_of_slash {uri : CString} (h : SLASH ∈ uri.chars) :
    (extractReqPath uri).chars = upToLastSlash uri.chars := by
  obtain ⟨back, front, hrev, hback⟩ := List.eq_append_cons_of_mem (List.mem_reverse.mpr h)
  have hchars : uri.chars = front.reverse ++ SLASH :: back.reverse := by
    simpa using congrArg List.reverse hrev
  have hrest : SLASH ∉ back.reverse := by simpa using hback
  unfold extractReqPath
  rw [CString.findLastOf_eq hchars hrest]
  have hcut : uri.chars = (front.reverse ++ [SLASH]) ++ back.reverse := by
    rw [hchars]
    simp
  have hlast : upToLastSlash uri.chars = front.reverse ++ [SLASH] := by
    rw [hcut, upToLastSlash_append_of_not_mem _ hrest, upToLastSlash_concat]
  rw [hlast]
  show uri.chars.take (front.reverse.length + 1) = _
  rw [hcut, List.take_append_of_le_length (by simp)]
  simp

theorem extractReqPath_of_no_slash {uri : CString} (h : SLASH ∉ uri.chars) :
    (extractReqPath uri).chars = uri.beforeQuery := by
  have hnone : uri.findLastOf SLASH = none := by
    unfold CString.findLastOf
    rw [List.idxOf?_eq_none_iff.mpr (by simpa using h)]
    rfl
  unfold extractReqPath
  rw [hnone]
  dsimp only
  cases hfind : uri.find QUESTION with
  | none =>
      have hall : uri.beforeQuery = uri.chars := by
        refine List.takeWhile_eq_self_iff.mpr fun c hc => ?_
        have hne : c ≠ QUESTION := fun heq => CString.find_none.mp hfind (heq ▸ hc)
        simpa using hne
      exact hall.symm
  | some i => exact CString.substr_find hfind

/-- **What is counted as a path**: with a slash in the query, the part before the query and
the query up to that slash; without one, what the part before the query gives. -/
theorem extractReqPath_eq (uri : CString) : (extractReqPath uri).chars =
    if SLASH ∈ uri.query then uri.beforeQuery ++ upToLastSlash uri.query
    else if SLASH ∈ uri.beforeQuery then upToLastSlash uri.beforeQuery
    else uri.beforeQuery := by
  have hmem : SLASH ∈ uri.chars ↔ SLASH ∈ uri.beforeQuery ∨ SLASH ∈ uri.query := by
    rw [← uri.beforeQuery_append_query, List.mem_append]
  by_cases hquery : SLASH ∈ uri.query
  · rw [if_pos hquery, extractReqPath_of_slash (hmem.mpr (.inr hquery)),
      ← uri.beforeQuery_append_query, upToLastSlash_append_of_mem _ hquery]
  · rw [if_neg hquery]
    by_cases hbefore : SLASH ∈ uri.beforeQuery
    · rw [if_pos hbefore, extractReqPath_of_slash (hmem.mpr (.inl hbefore)),
        ← uri.beforeQuery_append_query, upToLastSlash_append_of_not_mem _ hquery]
    · rw [if_neg hbefore]
      exact extractReqPath_of_no_slash fun h => (hmem.mp h).elim hbefore hquery

end ReqPath

/-- The part that `extractReqMethod` keeps. -/
theorem ReqMethod.extractReqMethod_eq (uri : CString) : ∃ part,
    extractReqMethod (some uri) = some part ∧ part.chars = uri.beforeQuery ∧ part.query = [] := by
  have hquery : ∀ part : CString, part.chars = uri.beforeQuery → part.query = [] := by
    intro part hpart
    refine List.dropWhile_eq_nil_iff.mpr fun c hc => ?_
    rw [hpart] at hc
    have hstop := List.mem_takeWhile_imp hc
    exact hstop
  unfold extractReqMethod
  cases hfind : uri.find QUESTION with
  | none =>
      have hall : uri.chars = uri.beforeQuery := by
        refine (List.takeWhile_eq_self_iff.mpr fun c hc => ?_).symm
        have hne : c ≠ QUESTION := fun heq => CString.find_none.mp hfind (heq ▸ hc)
        simpa using hne
      exact ⟨uri, by simp only [hfind], hall, hquery uri hall⟩
  | some i =>
      have hcut := CString.substr_find hfind
      exact ⟨uri.substr i, by simp only [hfind], hcut, hquery _ hcut⟩

/-! ## Whether the path ignores the query -/

namespace ReqPath

/-- The path is a prefix of the URI up to its first question mark, and the path of that
part. -/
def IgnoresQuery (uri : CString) : Prop :=
  ∃ part, ReqMethod.extractReqMethod (some uri) = some part ∧
    (extractReqPath uri).chars <+: part.chars ∧ extractReqPath uri = extractReqPath part

theorem ignoresQuery_iff (uri : CString) : IgnoresQuery uri ↔ SLASH ∉ uri.query := by
  obtain ⟨part, hpart, hchars, hquery⟩ := ReqMethod.extractReqMethod_eq uri
  have hself : part.beforeQuery = uri.beforeQuery := by
    rw [← hchars, ← part.beforeQuery_append_query, hquery, List.append_nil]
  constructor
  · rintro ⟨part', hpart', hprefix, -⟩ hmem
    obtain rfl := Option.some.inj (hpart.symm.trans hpart')
    rw [extractReqPath_eq, if_pos hmem, hchars] at hprefix
    have hlength := hprefix.length_le
    have hnil : upToLastSlash uri.query = [] := by
      rw [List.length_append] at hlength
      exact List.length_eq_zero_iff.mp (by omega)
    exact upToLastSlash_eq_nil_iff.mp hnil hmem
  · intro hnot
    have hsame : extractReqPath uri = extractReqPath part := by
      apply CString.ext_chars
      have hnot' : SLASH ∉ part.query := by simp [hquery]
      rw [extractReqPath_eq, extractReqPath_eq, if_neg hnot, if_neg hnot', hself]
    refine ⟨part, hpart, ?_, hsame⟩
    rw [extractReqPath_eq, if_neg hnot, hchars]
    split
    · exact List.rdropWhile_prefix _ _
    · exact List.prefix_refl _

/-- Two URIs with one part before the query have one path if and only if their queries agree
up to their last slash. -/
theorem extractReqPath_eq_iff {uri uri' : CString} (h : uri.beforeQuery = uri'.beforeQuery) :
    extractReqPath uri = extractReqPath uri' ↔
      upToLastSlash uri.query = upToLastSlash uri'.query := by
  have hiff : extractReqPath uri = extractReqPath uri' ↔
      (extractReqPath uri).chars = (extractReqPath uri').chars :=
    ⟨congrArg CString.chars, CString.ext_chars⟩
  -- the path of the part before the query is a prefix of it, that of a query is not
  have hapart : ∀ uri uri' : CString, uri.beforeQuery = uri'.beforeQuery → SLASH ∈ uri.query →
      SLASH ∉ uri'.query → extractReqPath uri ≠ extractReqPath uri' := by
    intro uri uri' h hmem hnot heq
    obtain ⟨part', hpart', hprefix, -⟩ := (ignoresQuery_iff uri').mpr hnot
    obtain ⟨part, hpart, hchars, -⟩ := ReqMethod.extractReqMethod_eq uri'
    obtain rfl := Option.some.inj (hpart.symm.trans hpart')
    rw [← heq, extractReqPath_eq, if_pos hmem, hchars, ← h] at hprefix
    have hnil : upToLastSlash uri.query = [] := by
      have hlength := hprefix.length_le
      rw [List.length_append] at hlength
      exact List.length_eq_zero_iff.mp (by omega)
    exact upToLastSlash_eq_nil_iff.mp hnil hmem
  by_cases hmem : SLASH ∈ uri.query <;> by_cases hmem' : SLASH ∈ uri'.query
  · rw [hiff, extractReqPath_eq, extractReqPath_eq, if_pos hmem, if_pos hmem', h]
    exact List.append_right_inj _
  · rw [upToLastSlash_eq_nil_iff.mpr hmem']
    exact iff_of_false (hapart uri uri' h hmem hmem')
      fun hnil => upToLastSlash_eq_nil_iff.mp hnil hmem
  · rw [upToLastSlash_eq_nil_iff.mpr hmem]
    exact iff_of_false (fun heq => hapart uri' uri h.symm hmem' hmem heq.symm)
      fun hnil => upToLastSlash_eq_nil_iff.mp hnil.symm hmem'
  · rw [hiff, extractReqPath_eq, extractReqPath_eq, if_neg hmem, if_neg hmem', h]
    simp [upToLastSlash_eq_nil_iff.mpr hmem, upToLastSlash_eq_nil_iff.mpr hmem']

end ReqPath

/-- **Request paths and queries.**  The path of a URI is a prefix of the URI up to its first
question mark, and the path of that part, if and only if no slash stands behind the question
mark.  Two URIs that differ only behind it are counted under one path if and only if their
queries agree up to their last slash. -/
theorem request_paths_ignore_query_iff (uri : CString) :
    (ReqPath.IgnoresQuery uri ↔ SLASH ∉ uri.query) ∧
      ∀ uri', ReqMethod.extractReqMethod (some uri) = ReqMethod.extractReqMethod (some uri') →
        (ReqPath.extractReqPath uri = ReqPath.extractReqPath uri' ↔
          upToLastSlash uri.query = upToLastSlash uri'.query) := by
  refine ⟨ReqPath.ignoresQuery_iff uri, fun uri' hsame => ReqPath.extractReqPath_eq_iff ?_⟩
  obtain ⟨part, hpart, hchars, -⟩ := ReqMethod.extractReqMethod_eq uri
  obtain ⟨part', hpart', hchars', -⟩ := ReqMethod.extractReqMethod_eq uri'
  obtain rfl := Option.some.inj (hpart.symm.trans (hsame.trans hpart'))
  exact hchars.symm.trans hchars'

/-- `/a?x` and `/a?x/y`. -/
theorem request_paths_ignore_query_slash :
    ReqPath.extractReqPath ⟨chars "/a?x", by decide⟩ ≠
      ReqPath.extractReqPath ⟨chars "/a?x/y", by decide⟩ := by
  have hiff := (request_paths_ignore_query_iff ⟨chars "/a?x", by decide⟩).2
    ⟨chars "/a?x/y", by decide⟩ (by decide)
  exact fun heq => absurd (hiff.mp heq) (by decide)

/-- A slash in the query is taken for one of the path. -/
theorem request_path_holds_query :
    ¬ ∀ uri part, ReqMethod.extractReqMethod (some uri) = some part →
      (ReqPath.extractReqPath uri).chars <+: part.chars ∧
        ReqPath.extractReqPath uri = ReqPath.extractReqPath part := by
  intro h
  obtain ⟨hpath, -⟩ := h ⟨chars "/a?x/y", by decide⟩ ⟨chars "/a", by decide⟩ (by decide)
  exact absurd hpath (by decide)

end MonitoringTool.Sniffer
