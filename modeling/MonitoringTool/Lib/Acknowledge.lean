import Mathlib.Data.List.TakeWhile
import Mathlib.Order.Lattice
import MonitoringTool.Lib.Run

/-!
# Answers matched to a chain of requests

A chain lists for each request the number at which it ends, and whether it is open.  An
answer acknowledges everything up to a number.  The search for its request goes on where
the last one stopped, passes what the number covers, and takes an open request that ends
exactly there; with nothing left ahead it is over for good.

`Answers` says the same without a search: no earlier answer has a greater number, and
fewer earlier ones have the same than there are open requests that end at it, before the
first one that ends behind it.  `answerLog_eq_nil_iff` and `answerLog_append_iff` are what
the searches find in these terms.
-/

namespace MonitoringTool.Lib

variable {α β : Type*} [LinearOrder α]

/-- The search for the request that `a` acknowledges passes the entry. -/
def passes (a : α) (e : α × Bool) : Bool := decide (e.1 ≤ a ∧ e ≠ (a, true))

/-- How many open requests end at `a`, up to the first request that ends behind it. -/
def openCount (chain : List (α × Bool)) (a : α) : ℕ :=
  (chain.takeWhile fun e => decide (e.1 ≤ a)).count (a, true)

/-- An answer with the number `a`, after those with the numbers `earlier`, has a request in
the chain. -/
def Answers (chain : List (α × Bool)) (earlier : List α) (a : α) : Prop :=
  (∀ b ∈ earlier, b ≤ a) ∧ earlier.count a < openCount chain a

instance (chain : List (α × Bool)) (earlier : List α) (a : α) :
    Decidable (Answers chain earlier a) := by
  unfold Answers
  infer_instance

/-- None of the answers `bs`, in this order after those with the numbers `earlier`, has a
request. -/
def NoneAnswers (number : β → α) (chain : List (α × Bool)) : (earlier : List α) → List β → Prop
  | _, [] => True
  | earlier, b :: bs =>
      ¬ Answers chain earlier (number b) ∧ NoneAnswers number chain (earlier ++ [number b]) bs

instance decidableNoneAnswers (number : β → α) (chain : List (α × Bool)) :
    (earlier : List α) → (bs : List β) → Decidable (NoneAnswers number chain earlier bs)
  | _, [] => isTrue trivial
  | earlier, b :: bs =>
      have := decidableNoneAnswers number chain (earlier ++ [number b]) bs
      inferInstanceAs (Decidable (_ ∧ _))

/-- Where the searches stand: the number of entries passed, and those ahead. -/
structure Progress (α : Type*) where
  place : ℕ
  ahead : List (α × Bool)

namespace Progress

/-- The search finds an open request. -/
def takes (m : Progress α) (a : α) : Bool :=
  decide ((m.ahead.dropWhile (passes a)).head? = some (a, true))

/-- After the answer `a`: nothing if the search came to the end of the chain. -/
def answer (m : Progress α) (a : α) : Option (Progress α) :=
  match m.ahead.dropWhile (passes a) with
  | [] => none
  | e :: rest =>
      some
        { place := m.place + (m.ahead.takeWhile (passes a)).length
          ahead := (if e = (a, true) then (a, false) else e) :: rest }

/-- The answers that find a request, with its place in the chain. -/
def answerLog (number : β → α) (m : Progress α) : List β → List (ℕ × β)
  | [] => []
  | b :: bs =>
      match m.answer (number b) with
      | none => []
      | some m' =>
          if m.takes (number b) then (m'.place, b) :: answerLog number m' bs
          else answerLog number m' bs

/-- The searches stand where the answers `earlier` leave them. -/
structure After (chain : List (α × Bool)) (earlier : List α) (m : Progress α) : Prop where
  head : ∀ b ∈ earlier, ∃ e ∈ m.ahead.head?, b ≤ e.1
  count : ∀ a, (∀ b ∈ earlier, b ≤ a) →
    openCount m.ahead a = openCount chain a - earlier.count a

end Progress

/-- No further answer has a request. -/
def NoneOpen (chain : List (α × Bool)) (earlier : List α) : Prop :=
  ∀ a, (∀ b ∈ earlier, b ≤ a) → openCount chain a ≤ earlier.count a

/-! ## Counting -/

/-- Entries that the search for `a` passes are no open requests for `c`, from `a` on. -/
theorem openCount_passed {a c : α} (hac : a ≤ c) {passed : List (α × Bool)}
    (h : ∀ e ∈ passed, passes a e = true) (rest : List (α × Bool)) :
    openCount (passed ++ rest) c = openCount rest c := by
  have hle : ∀ e ∈ passed, decide (e.1 ≤ c) = true := by
    intro e he
    have hpass := of_decide_eq_true (h e he)
    exact decide_eq_true (hpass.1.trans hac)
  have hnone : (c, true) ∉ passed := by
    intro hc
    obtain ⟨hca, hne⟩ := of_decide_eq_true (h _ hc)
    have heq : c = a := le_antisymm hca hac
    exact hne (by rw [heq])
  rw [openCount, List.takeWhile_append_of_pos hle, List.count_append,
    List.count_eq_zero_of_not_mem hnone, Nat.zero_add, openCount]

theorem openCount_cons_of_le {e : α × Bool} {c : α} (h : e.1 ≤ c) (rest : List (α × Bool)) :
    openCount (e :: rest) c = openCount rest c + if e = (c, true) then 1 else 0 := by
  rw [openCount, List.takeWhile_cons, if_pos (decide_eq_true h), List.count_cons, openCount]
  by_cases he : e = (c, true) <;> simp [he]

theorem openCount_cons_of_lt {e : α × Bool} {c : α} (h : c < e.1) (rest : List (α × Bool)) :
    openCount (e :: rest) c = 0 := by
  have hdec : ¬ decide (e.1 ≤ c) = true := by simpa using h
  rw [openCount, List.takeWhile_cons, if_neg hdec, List.count_nil]

theorem NoneOpen.append {chain : List (α × Bool)} {earlier : List α} (h : NoneOpen chain earlier)
    (more : List α) : NoneOpen chain (earlier ++ more) := by
  intro a ha
  have hopen := h a fun b hb => ha b (List.mem_append_left _ hb)
  rw [List.count_append]
  omega

/-- Then none of them has. -/
theorem NoneOpen.noneAnswers {chain : List (α × Bool)} {earlier : List α}
    (h : NoneOpen chain earlier) (number : β → α) (bs : List β) :
    NoneAnswers number chain earlier bs := by
  induction bs generalizing earlier with
  | nil => trivial
  | cons b bs ih =>
      exact ⟨fun hanswers => absurd hanswers.2 (h _ hanswers.1).not_gt, ih (h.append _)⟩

/-! ## One answer -/

namespace Progress

variable {chain : List (α × Bool)} {earlier : List α} {m : Progress α}

theorem After.start (chain : List (α × Bool)) : After chain [] { place := 0, ahead := chain } where
  head b hb := absurd hb List.not_mem_nil
  count a _ := by simp

/-- Ahead of the searches an answer has a request if it is no smaller than those before it
and an open one that ends there is left. -/
theorem After.answers_iff (h : After chain earlier m) {a : α} (hle : ∀ b ∈ earlier, b ≤ a) :
    Answers chain earlier a ↔ 0 < openCount m.ahead a := by
  rw [h.count a hle, Answers]
  constructor
  · rintro ⟨-, hlt⟩
    omega
  · intro hpos
    exact ⟨hle, by omega⟩

/-- The search for `a` stops at an open request that ends there, or at one that ends
behind it. -/
theorem ahead_stop {m : Progress α} {a : α} {e : α × Bool} {rest : List (α × Bool)}
    (h : m.ahead.dropWhile (passes a) = e :: rest) : e = (a, true) ∨ a < e.1 := by
  have hstop : passes a e = false := by
    have hhead := List.head_dropWhile_not (passes a) (l := m.ahead) (by simp [h])
    simpa only [h, List.head_cons] using hhead
  by_cases heq : e = (a, true)
  · exact .inl heq
  · right
    by_contra hle
    have hpass : passes a e = true := decide_eq_true ⟨not_lt.mp hle, heq⟩
    rw [hpass] at hstop
    cases hstop

/-- What it passes does not count, from `a` on. -/
theorem openCount_ahead (m : Progress α) {a c : α} (hac : a ≤ c) :
    openCount m.ahead c = openCount (m.ahead.dropWhile (passes a)) c := by
  have hpassed : ∀ e ∈ m.ahead.takeWhile (passes a), passes a e = true := fun e he =>
    List.mem_takeWhile_imp he
  have hdrop := openCount_passed hac hpassed (m.ahead.dropWhile (passes a))
  rwa [List.takeWhile_append_dropWhile] at hdrop

theorem takes_iff (m : Progress α) (a : α) : m.takes a = true ↔ 0 < openCount m.ahead a := by
  rw [m.openCount_ahead (le_refl a)]
  cases hrest : m.ahead.dropWhile (passes a) with
  | nil => simp [takes, hrest, openCount]
  | cons e rest =>
      rcases ahead_stop hrest with rfl | hae
      · simp [takes, hrest, openCount_cons_of_le]
      · have hne : e ≠ (a, true) := fun heq => hae.ne (by rw [heq])
        simp [takes, hrest, hne, openCount_cons_of_lt hae]

theorem count_snoc_of_lt {a c : α} (h : a < c) (earlier : List α) :
    (earlier ++ [a]).count c = earlier.count c := by
  have hne : (a == c) = false := beq_false_of_ne h.ne
  rw [List.count_append, List.count_cons, hne]
  simp

theorem count_snoc_self (a : α) (earlier : List α) :
    (earlier ++ [a]).count a = earlier.count a + 1 := by
  rw [List.count_append, List.count_singleton_self]

/-- A number smaller than one before it moves nothing. -/
theorem After.answer_behind (h : After chain earlier m) {a b : α} (hb : b ∈ earlier)
    (hab : a < b) :
    m.takes a = false ∧ m.answer a = some m ∧ After chain (earlier ++ [a]) m := by
  obtain ⟨e, he, hbe⟩ := h.head b hb
  obtain ⟨rest, hahead⟩ : ∃ rest, m.ahead = e :: rest := ⟨_, List.eq_cons_of_mem_head? he⟩
  have hae : a < e.1 := hab.trans_le hbe
  have hne : e ≠ (a, true) := fun heq => hae.ne (by rw [heq])
  have hstop : passes a e = false := decide_eq_false fun hpass => hpass.1.not_gt hae
  have htake : m.ahead.takeWhile (passes a) = [] := by rw [hahead, List.takeWhile_cons, hstop]; rfl
  have hdrop : m.ahead.dropWhile (passes a) = e :: rest := by
    rw [hahead, List.dropWhile_cons, hstop]
    rfl
  refine ⟨?_, ?_, ?_, ?_⟩
  · simp [takes, hdrop, hne]
  · rw [answer, hdrop]
    dsimp only
    rw [htake, if_neg hne, ← hahead]
    rfl
  · intro b' hb'
    rcases List.mem_append.mp hb' with hb' | hb'
    · exact h.head b' hb'
    · obtain rfl := List.mem_singleton.mp hb'
      exact ⟨e, he, hae.le⟩
  · intro c hc
    have hac : a < c := hab.trans_le (hc b (List.mem_append_left _ hb))
    rw [count_snoc_of_lt hac, h.count c fun b' hb' => hc b' (List.mem_append_left _ hb')]

/-- What the search for `a` leaves ahead counts what the answers before it have left. -/
theorem After.count_rest (h : After chain earlier m) {a c : α} (hc : ∀ b ∈ earlier ++ [a], b ≤ c) :
    openCount (m.ahead.dropWhile (passes a)) c = openCount chain c - earlier.count c := by
  rw [← m.openCount_ahead (hc a (by simp))]
  exact h.count c fun b hb => hc b (List.mem_append_left _ hb)

/-- The search comes to the end. -/
theorem After.answer_end (h : After chain earlier m) {a : α}
    (hrest : m.ahead.dropWhile (passes a) = []) :
    m.answer a = none ∧ NoneOpen chain (earlier ++ [a]) := by
  refine ⟨by simp [answer, hrest], ?_⟩
  intro c hc
  have hnone := h.count_rest hc
  rw [hrest, show openCount ([] : List (α × Bool)) c = 0 from rfl] at hnone
  rw [List.count_append]
  omega

/-- The search stops at an open request that ends there, and takes it. -/
theorem After.answer_taking (h : After chain earlier m) {a : α} (hle : ∀ b ∈ earlier, b ≤ a)
    {rest : List (α × Bool)} (hrest : m.ahead.dropWhile (passes a) = (a, true) :: rest) :
    ∃ m', m.answer a = some m' ∧ After chain (earlier ++ [a]) m' := by
  refine ⟨_, by simp only [answer, hrest]; rfl, ?_, ?_⟩
  · intro b hb
    refine ⟨(a, false), by simp, ?_⟩
    rcases List.mem_append.mp hb with hb | hb
    · exact hle b hb
    · exact (List.mem_singleton.mp hb).le
  · intro c hc
    have hac : a ≤ c := hc a (by simp)
    have hcount := h.count_rest hc
    rw [hrest] at hcount
    simp only [if_true]
    rw [openCount_cons_of_le hac] at hcount ⊢
    rcases hac.eq_or_lt with rfl | hlt
    · rw [count_snoc_self]
      simp only [if_true] at hcount
      simp
      omega
    · have hne : (a, true) ≠ (c, true) := fun heq => hlt.ne (Prod.mk.inj heq).1
      rw [if_neg hne] at hcount
      rw [count_snoc_of_lt hlt]
      simpa using hcount

/-- The search stops at a request that ends behind it, and leaves it. -/
theorem After.answer_waiting (h : After chain earlier m) {a : α} (hle : ∀ b ∈ earlier, b ≤ a)
    {e : α × Bool} {rest : List (α × Bool)} (hrest : m.ahead.dropWhile (passes a) = e :: rest)
    (hae : a < e.1) : ∃ m', m.answer a = some m' ∧ After chain (earlier ++ [a]) m' := by
  have hne : e ≠ (a, true) := fun heq => hae.ne (by rw [heq])
  refine ⟨_, by simp only [answer, hrest]; rfl, ?_, ?_⟩
  · intro b hb
    refine ⟨e, by simp [hne], ?_⟩
    rcases List.mem_append.mp hb with hb | hb
    · exact (hle b hb).trans hae.le
    · exact (List.mem_singleton.mp hb).trans_le hae.le
  · intro c hc
    have hac : a ≤ c := hc a (by simp)
    have hcount := h.count_rest hc
    rw [hrest] at hcount
    simp only [if_neg hne]
    rcases hac.eq_or_lt with rfl | hlt
    · rw [openCount_cons_of_lt hae] at hcount ⊢
      rw [count_snoc_self]
      omega
    · rw [hcount, count_snoc_of_lt hlt]

/-- A number no smaller than those before it is sought in what is ahead. -/
theorem After.answer_covering (h : After chain earlier m) {a : α} (hle : ∀ b ∈ earlier, b ≤ a) :
    (m.answer a = none ∧ NoneOpen chain (earlier ++ [a])) ∨
      ∃ m', m.answer a = some m' ∧ After chain (earlier ++ [a]) m' := by
  cases hrest : m.ahead.dropWhile (passes a) with
  | nil => exact .inl (h.answer_end hrest)
  | cons e rest =>
      rcases ahead_stop hrest with rfl | hae
      · exact .inr (h.answer_taking hle hrest)
      · exact .inr (h.answer_waiting hle hrest hae)

/-- **One answer.**  The search takes a request exactly if the answer has one, and stands
for the next answer where it should; or it comes to the end, and no answer behind has
one. -/
theorem After.answer_spec (h : After chain earlier m) (a : α) :
    (m.takes a = true ↔ Answers chain earlier a) ∧
      ((m.answer a = none ∧ NoneOpen chain (earlier ++ [a])) ∨
        ∃ m', m.answer a = some m' ∧ After chain (earlier ++ [a]) m') := by
  by_cases hle : ∀ b ∈ earlier, b ≤ a
  · rw [h.answers_iff hle]
    exact ⟨m.takes_iff a, h.answer_covering hle⟩
  · obtain ⟨b, hb, hab⟩ : ∃ b ∈ earlier, a < b := by simpa using hle
    obtain ⟨htakes, hanswer, hafter⟩ := h.answer_behind hb hab
    refine ⟨iff_of_false (by simp [htakes]) fun hanswers => hle hanswers.1, ?_⟩
    exact .inr ⟨m, hanswer, hafter⟩

/-! ## Any answers -/

/-- Past the end nothing is taken. -/
theorem takes_of_none {a : α} (h : m.answer a = none) : m.takes a = false := by
  unfold answer at h
  split at h
  · next hdrop => simp [takes, hdrop]
  · cases h

/-- The answers behind are logged behind. -/
theorem answerLog_append (number : β → α) (m : Progress α) (xs ys : List β) :
    answerLog number m (xs ++ ys) = answerLog number m xs ++
      ((run (fun m b => m.answer (number b)) m xs).map fun m => answerLog number m ys).getD [] := by
  induction xs generalizing m with
  | nil => rfl
  | cons x xs ih =>
      rw [List.cons_append, answerLog, answerLog, run_cons]
      cases m.answer (number x) with
      | none => rfl
      | some m' =>
          dsimp only
          rw [ih m', Option.bind_some]
          split
          · rfl
          · rfl

/-- An answer keeps the length of the chain. -/
theorem answer_length {a : α} {m' : Progress α} (h : m.answer a = some m') :
    m'.place < m.place + m.ahead.length ∧
      m'.place + m'.ahead.length = m.place + m.ahead.length := by
  have hlen := congrArg List.length (List.takeWhile_append_dropWhile (p := passes a) (l := m.ahead))
  unfold answer at h
  split at h
  · cases h
  · next e rest hdrop =>
      obtain rfl := Option.some.inj h
      rw [hdrop, List.length_append, List.length_cons] at hlen
      dsimp only
      rw [List.length_cons]
      omega

/-- What is logged is in the chain. -/
theorem answerLog_lt (number : β → α) (m : Progress α) (bs : List β) :
    ∀ e ∈ answerLog number m bs, e.1 < m.place + m.ahead.length := by
  induction bs generalizing m with
  | nil => exact fun e he => absurd he List.not_mem_nil
  | cons b bs ih =>
      intro e he
      unfold answerLog at he
      split at he
      · exact absurd he List.not_mem_nil
      · next m' hanswer =>
          obtain ⟨hlt, hlen⟩ := answer_length hanswer
          have hrest := ih m'
          rw [hlen] at hrest
          split at he
          · rcases List.mem_cons.mp he with rfl | he
            · exact hlt
            · exact hrest e he
          · exact hrest e he

/-- The searches log nothing exactly if no answer has a request. -/
theorem After.answerLog_eq_nil_iff (h : After chain earlier m) (number : β → α) (bs : List β) :
    answerLog number m bs = [] ↔ NoneAnswers number chain earlier bs := by
  induction bs generalizing earlier m with
  | nil => simp [answerLog, NoneAnswers]
  | cons b bs ih =>
      obtain ⟨htakes, hnext⟩ := h.answer_spec (number b)
      unfold answerLog NoneAnswers
      rcases hnext with ⟨hanswer, hopen⟩ | ⟨m', hanswer, hafter⟩
      · have hnot : ¬ Answers chain earlier (number b) := by
          rw [← htakes, takes_of_none hanswer]
          exact Bool.false_ne_true
        rw [hanswer]
        exact iff_of_true rfl ⟨hnot, hopen.noneAnswers number bs⟩
      · rw [hanswer, ← htakes]
        dsimp only
        split
        · next htake => simp [htake]
        · next htake =>
            rw [ih hafter]
            simp [htake]

/-- After any answers the searches stand where these leave them, or are over. -/
theorem After.run (h : After chain earlier m) (number : β → α) (xs : List β) :
    (∃ m', Lib.run (fun m b => m.answer (number b)) m xs = some m' ∧
        After chain (earlier ++ xs.map number) m') ∨
      Lib.run (fun m b => m.answer (number b)) m xs = none ∧
        NoneOpen chain (earlier ++ xs.map number) := by
  induction xs generalizing earlier m with
  | nil => exact .inl ⟨m, rfl, by simpa using h⟩
  | cons x xs ih =>
      rw [run_cons, List.map_cons, List.append_cons]
      rcases (h.answer_spec (number x)).2 with ⟨hanswer, hopen⟩ | ⟨m', hanswer, hafter⟩
      · rw [hanswer]
        exact .inr ⟨rfl, hopen.append _⟩
      · rw [hanswer]
        exact ih hafter

/-- **What further answers add**: nothing, exactly if none of them has a request. -/
theorem answerLog_append_iff (number : β → α) (chain : List (α × Bool)) (xs ys : List β) :
    answerLog number { place := 0, ahead := chain } (xs ++ ys) =
        answerLog number { place := 0, ahead := chain } xs ↔
      NoneAnswers number chain (xs.map number) ys := by
  rw [answerLog_append, List.append_right_eq_self]
  rcases (After.start chain).run number xs with ⟨m', hrun, hafter⟩ | ⟨hrun, hopen⟩
  · rw [hrun]
    exact hafter.answerLog_eq_nil_iff number ys
  · rw [hrun]
    exact iff_of_true rfl (hopen.noneAnswers number ys)

end Progress

end MonitoringTool.Lib
