import Mathlib.Data.List.Basic
import Mathlib.Algebra.BigOperators.Group.List.Basic
import Mathlib.Algebra.GroupWithZero.Nat

/-!
# The backend's incremental decoder

`SnifferCodec::decode` of `codec.rs` takes one byte as the length of the next
frame, waits until that many bytes have arrived, cuts them out and hands them
to the protobuf parser.  `FramedRead` appends every chunk it reads to the
buffer and calls `decode` until it answers `None`; it stops at the first error.

The protobuf parser is outside the repository: it is the parameter `parse`, and
a decoder that should report the bytes it cuts is the one with `parse := .ok`.
-/

namespace MonitoringTool.Backend

variable {μ ε : Type*}

/-- `SnifferCodec::decode`: the answer and what is left in `src`. -/
def decode (parse : List UInt8 → Except ε μ) (src : List UInt8) :
    Except ε (Option μ) × List UInt8 :=
  match src with
  | [] => (.ok none, src)
  | lenByte :: _ =>
      let len := lenByte.toNat
      if src.length < len + 1 then (.ok none, src)
      else
        let src := src.drop 1      -- src.split_to(1)
        let str := src.take len    -- src.split_to(len)
        let src := src.drop len
        match parse str with
        | .error e => (.error e, src)
        | .ok metric => (.ok (some metric), src)

/-! ## One call -/

/-- Too few bytes: the decoder answers `None` and keeps them all. -/
theorem decode_short (parse : List UInt8 → Except ε μ) {b : UInt8} {rest : List UInt8}
    (h : rest.length < b.toNat) : decode parse (b :: rest) = (.ok none, b :: rest) := by
  simp [decode, h]

/-- Enough bytes: one length byte and as many bytes as it says are consumed. -/
theorem decode_full (parse : List UInt8 → Except ε μ) {b : UInt8} {body rest : List UInt8}
    (h : body.length = b.toNat) :
    decode parse (b :: (body ++ rest)) =
      match parse body with
      | .error e => (.error e, rest)
      | .ok metric => (.ok (some metric), rest) := by
  have henough : ¬ (b :: (body ++ rest)).length < b.toNat + 1 := by
    simp only [List.length_cons, List.length_append]
    omega
  rw [← h] at henough
  simp only [decode, ← h, if_neg henough, List.drop_succ_cons, List.drop_zero,
    List.take_left, List.drop_left]

/-- Every buffer is empty, holds an unfinished frame or starts with a whole one. -/
theorem buffer_cases (src : List UInt8) :
    src = [] ∨
      (∃ b rest, src = b :: rest ∧ rest.length < b.toNat) ∨
      (∃ b body rest, src = b :: (body ++ rest) ∧ body.length = b.toNat) := by
  cases src with
  | nil => exact .inl rfl
  | cons b tail =>
      rcases Nat.lt_or_ge tail.length b.toNat with h | h
      · exact .inr (.inl ⟨b, tail, rfl, h⟩)
      · refine .inr (.inr ⟨b, tail.take b.toNat, tail.drop b.toNat, ?_, ?_⟩)
        · rw [List.take_append_drop]
        · exact List.length_take_of_le h

/-- Induction on a buffer, frame by frame: it is empty, it holds an unfinished frame,
or it is a whole frame and the rest. -/
theorem buffer_induction {motive : List UInt8 → Prop} (nil : motive [])
    (short : ∀ (b : UInt8) rest, rest.length < b.toNat → motive (b :: rest))
    (full : ∀ (b : UInt8) body rest, body.length = b.toNat → motive rest →
      motive (b :: (body ++ rest)))
    (src : List UInt8) : motive src := by
  induction h : src.length using Nat.strongRecOn generalizing src with
  | ind n ih =>
      rcases buffer_cases src with rfl | ⟨b, rest, rfl, hlt⟩ | ⟨b, body, rest, rfl, hlen⟩
      · exact nil
      · exact short b rest hlt
      · have hrest : rest.length < n := by
          simp only [← h, List.length_cons, List.length_append]
          omega
        exact full b body rest hlen (ih rest.length hrest rest rfl)

/-- An answer that delivers something has consumed something. -/
theorem decode_some_length {parse : List UInt8 → Except ε μ} {src src' : List UInt8} {m : μ}
    (h : decode parse src = (.ok (some m), src')) : src'.length < src.length := by
  rcases buffer_cases src with rfl | ⟨b, rest, rfl, hlt⟩ | ⟨b, body, rest, rfl, hlen⟩
  · simp [decode] at h
  · simp [decode_short parse hlt] at h
  · rw [decode_full parse hlen] at h
    cases hp : parse body with
    | error e => simp [hp] at h
    | ok metric =>
        simp only [hp, Prod.mk.injEq] at h
        simp only [← h.2, List.length_cons, List.length_append]
        omega

/-! ## Calling until `None`, and feeding chunks -/

/-- What a stretch of decoding delivers: the items in order, the error it
stopped at, and the bytes left in the buffer. -/
structure Delivery (μ ε : Type*) where
  items : List μ
  error : Option ε
  left : List UInt8
  deriving DecidableEq

/-- Call `decode` until it answers `None` or fails. -/
def drain (parse : List UInt8 → Except ε μ) (src : List UInt8) : Delivery μ ε :=
  match _h : decode parse src with
  | (.ok none, src') => ⟨[], none, src'⟩
  | (.error e, src') => ⟨[], some e, src'⟩
  | (.ok (some m), src') =>
      let more := drain parse src'
      ⟨m :: more.items, more.error, more.left⟩
termination_by src.length
decreasing_by exact decode_some_length _h

/-- Append each chunk that arrives to the buffer and drain it, up to the first
error. -/
def feed (parse : List UInt8 → Except ε μ) (buffer : List UInt8) :
    List (List UInt8) → Delivery μ ε
  | [] => ⟨[], none, buffer⟩
  | chunk :: chunks =>
      let now := drain parse (buffer ++ chunk)
      match now.error with
      | some _ => now
      | none =>
          let more := feed parse now.left chunks
          ⟨now.items ++ more.items, more.error, more.left⟩

section Drain

variable (parse : List UInt8 → Except ε μ)

@[simp] theorem drain_nil : drain parse [] = ⟨[], none, []⟩ := by
  rw [drain]
  rfl

theorem drain_short {b : UInt8} {rest : List UInt8} (h : rest.length < b.toNat) :
    drain parse (b :: rest) = ⟨[], none, b :: rest⟩ := by
  rw [drain]
  split <;> simp_all [decode_short parse h]

theorem drain_full {b : UInt8} {body rest : List UInt8} {m : μ}
    (h : body.length = b.toNat) (hm : parse body = .ok m) :
    drain parse (b :: (body ++ rest)) =
      ⟨m :: (drain parse rest).items, (drain parse rest).error, (drain parse rest).left⟩ := by
  rw [drain]
  split <;> simp_all [decode_full parse h]

/-- A frame the parser refuses is consumed, and decoding stops behind it. -/
theorem drain_refused {b : UInt8} {body rest : List UInt8} {e : ε}
    (h : body.length = b.toNat) (he : parse body = .error e) :
    drain parse (b :: (body ++ rest)) = ⟨[], some e, rest⟩ := by
  rw [drain]
  split <;> simp_all [decode_full parse h]

end Drain

/-- What was drained is gone: draining a longer buffer delivers the same items
first and goes on from the bytes that were left. -/
theorem drain_append {parse : List UInt8 → Except ε μ} (a b : List UInt8)
    (hok : (drain parse a).error = none) :
    drain parse (a ++ b) =
      ⟨(drain parse a).items ++ (drain parse ((drain parse a).left ++ b)).items,
        (drain parse ((drain parse a).left ++ b)).error,
        (drain parse ((drain parse a).left ++ b)).left⟩ := by
  induction a using buffer_induction with
  | nil => simp
  | short c rest hlt => simp [drain_short parse hlt]
  | full c body rest hlen ih =>
      cases hp : parse body with
      | error e => simp [drain_refused parse hlen hp] at hok
      | ok m =>
          rw [drain_full parse hlen hp] at hok ⊢
          rw [List.cons_append, List.append_assoc, drain_full parse hlen hp, ih hok]
          simp

/-- What a failure-free stretch leaves behind cannot be decoded any further. -/
theorem drain_left {parse : List UInt8 → Except ε μ} (src : List UInt8)
    (hok : (drain parse src).error = none) :
    drain parse (drain parse src).left = ⟨[], none, (drain parse src).left⟩ := by
  induction src using buffer_induction with
  | nil => simp
  | short b rest hlt => simp [drain_short parse hlt]
  | full b body rest hlen ih =>
      cases hp : parse body with
      | error e => simp [drain_refused parse hlen hp] at hok
      | ok m =>
          rw [drain_full parse hlen hp] at hok ⊢
          exact ih hok

/-- After an error nothing more is decoded: bytes that arrive later stay behind
what was left. -/
theorem drain_append_failed {parse : List UInt8 → Except ε μ} {e : ε} (a b : List UInt8)
    (hfail : (drain parse a).error = some e) :
    drain parse (a ++ b) = ⟨(drain parse a).items, some e, (drain parse a).left ++ b⟩ := by
  induction a using buffer_induction with
  | nil => simp at hfail
  | short c rest hlt => simp [drain_short parse hlt] at hfail
  | full c body rest hlen ih =>
      rw [List.cons_append, List.append_assoc]
      cases hp : parse body with
      | error e' =>
          rw [drain_refused parse hlen hp] at hfail ⊢
          rw [drain_refused parse hlen hp]
          simpa using hfail
      | ok m =>
          rw [drain_full parse hlen hp] at hfail ⊢
          rw [drain_full parse hlen hp, ih hfail]

/-- The parser that accepts every frame and returns its bytes. -/
def keepBytes (ε : Type*) (str : List UInt8) : Except ε (List UInt8) := .ok str

/-! ## Chunk by chunk -/

section Receive

variable (parse : List UInt8 → Except ε μ)

/-- One chunk arrives: it is appended to the buffer, and `decode` is called until
it answers `None`, unless it has failed before. -/
def receive (seen : Delivery μ ε) (chunk : List UInt8) : Delivery μ ε :=
  match seen.error with
  | some _ => { seen with left := seen.left ++ chunk }
  | none =>
      let now := drain parse (seen.left ++ chunk)
      ⟨seen.items ++ now.items, now.error, now.left⟩

/-- One chunk more: what has been delivered is what the longer stream delivers. -/
theorem receive_drain (stream chunk : List UInt8) :
    receive parse (drain parse stream) chunk = drain parse (stream ++ chunk) := by
  cases herr : (drain parse stream).error with
  | none => rw [drain_append stream chunk herr, receive, herr]
  | some e => rw [drain_append_failed stream chunk herr, receive, herr]

/-- All chunks: what has been delivered is what the whole stream delivers. -/
theorem foldl_receive (stream : List UInt8) (chunks : List (List UInt8)) :
    chunks.foldl (receive parse) (drain parse stream) =
      drain parse (stream ++ chunks.flatten) := by
  induction chunks generalizing stream with
  | nil => simp
  | cons chunk chunks ih =>
      rw [List.foldl_cons, receive_drain, ih, List.flatten_cons, List.append_assoc]

/-- After an error the chunks only pile up. -/
theorem foldl_receive_failed {seen : Delivery μ ε} {e : ε} (hfail : seen.error = some e)
    (chunks : List (List UInt8)) :
    chunks.foldl (receive parse) seen =
      { seen with left := seen.left ++ chunks.flatten } := by
  induction chunks generalizing seen with
  | nil => simp
  | cons chunk chunks ih =>
      have hnext : receive parse seen chunk = { seen with left := seen.left ++ chunk } := by
        rw [receive, hfail]
      have hrest := @ih ⟨seen.items, seen.error, seen.left ++ chunk⟩ hfail
      rw [List.foldl_cons, hnext, hrest, List.flatten_cons, List.append_assoc]

/-- A reader that goes away at the first error has seen what one that keeps
listening has: the same items and the same error, and without an error the same
bytes are left. -/
theorem feed_receive (buffer : List UInt8) (items : List μ) (chunks : List (List UInt8)) :
    let kept := chunks.foldl (receive parse) ⟨items, none, buffer⟩
    let stopped := feed parse buffer chunks
    kept.items = items ++ stopped.items ∧ kept.error = stopped.error ∧
      (stopped.error = none → kept.left = stopped.left) := by
  induction chunks generalizing buffer items with
  | nil => simp [feed]
  | cons chunk chunks ih =>
      have hnext : receive parse ⟨items, none, buffer⟩ chunk =
          ⟨items ++ (drain parse (buffer ++ chunk)).items,
            (drain parse (buffer ++ chunk)).error, (drain parse (buffer ++ chunk)).left⟩ := rfl
      simp only [List.foldl_cons, hnext, feed]
      cases herr : (drain parse (buffer ++ chunk)).error with
      | none => simpa using ih _ (items ++ (drain parse (buffer ++ chunk)).items)
      | some e => simp [foldl_receive_failed parse, herr]

/-- The whole stream, however it is divided, for either reader. -/
theorem foldl_receive_nil (chunks : List (List UInt8)) :
    chunks.foldl (receive parse) ⟨[], none, []⟩ = drain parse chunks.flatten := by
  rw [← drain_nil parse, foldl_receive, List.nil_append]

end Receive

/-- `None` comes without consuming anything, every other answer with one length
byte and as many bytes as it says. -/
theorem decode_consumes {parse : List UInt8 → Except ε μ} {src src' : List UInt8}
    {answer : Except ε (Option μ)} (h : decode parse src = (answer, src')) :
    (answer = .ok none ∧ src' = src) ∨
      (answer ≠ .ok none ∧
        ∃ b body, src = b :: (body ++ src') ∧ body.length = b.toNat) := by
  rcases buffer_cases src with rfl | ⟨b, rest, rfl, hlt⟩ | ⟨b, body, rest, rfl, hlen⟩
  · cases h
    exact .inl ⟨rfl, rfl⟩
  · rw [decode_short parse hlt] at h
    cases h
    exact .inl ⟨rfl, rfl⟩
  · rw [decode_full parse hlen] at h
    right
    cases hp : parse body with
    | error e =>
        rw [hp] at h
        cases h
        exact ⟨nofun, b, body, rfl, hlen⟩
    | ok m =>
        rw [hp] at h
        cases h
        exact ⟨nofun, b, body, rfl, hlen⟩

/-- **Chunking does not matter.**  The same stream in two divisions into chunks gives
the same items, the same first error, if any, and the same bytes left; a reader that
does not even take the chunks behind an error sees the same items and the same error.
`decode` answers `None` only without consuming anything; otherwise it consumes one
length byte and as many bytes as it says. -/
theorem chunking_irrelevant (parse : List UInt8 → Except ε μ)
    (chunks chunks' : List (List UInt8)) (hstream : chunks.flatten = chunks'.flatten) :
    chunks.foldl (receive parse) ⟨[], none, []⟩ =
        chunks'.foldl (receive parse) ⟨[], none, []⟩ ∧
      ((feed parse [] chunks).items = (feed parse [] chunks').items ∧
        (feed parse [] chunks).error = (feed parse [] chunks').error ∧
        ((feed parse [] chunks).error = none →
          (feed parse [] chunks).left = (feed parse [] chunks').left)) ∧
      (∀ src src', decode parse src = (.ok none, src') → src' = src) ∧
      ∀ src src' answer, decode parse src = (answer, src') → answer ≠ .ok none →
        ∃ b body, src = b :: (body ++ src') ∧ body.length = b.toNat := by
  have hsame : chunks.foldl (receive parse) ⟨[], none, []⟩ =
      chunks'.foldl (receive parse) ⟨[], none, []⟩ := by
    rw [foldl_receive_nil, foldl_receive_nil, hstream]
  have hone := feed_receive parse [] [] chunks
  have htwo := feed_receive parse [] [] chunks'
  simp only [List.nil_append] at hone htwo
  refine ⟨hsame, ⟨?_, ?_, fun hok => ?_⟩, fun src src' h => ?_, fun src src' answer h hne => ?_⟩
  · rw [← hone.1, hsame, htwo.1]
  · rw [← hone.2.1, hsame, htwo.2.1]
  · have hok' : (feed parse [] chunks').error = none := by
      rw [← htwo.2.1, ← hsame, hone.2.1, hok]
    rw [← hone.2.2 hok, hsame, htwo.2.2 hok']
  · rcases decode_consumes h with ⟨-, hsrc⟩ | ⟨hne, -⟩
    · exact hsrc
    · exact absurd rfl hne
  · rcases decode_consumes h with ⟨hnone, -⟩ | ⟨-, hcut⟩
    · exact absurd hnone hne
    · exact hcut

/-- Two frames, cut behind the first length byte or not cut at all. -/
theorem chunking_irrelevant_two :
    [[2], [7, 9, 0]].foldl (receive (keepBytes Unit)) ⟨[], none, []⟩ =
      [[2, 7, 9, 0]].foldl (receive (keepBytes Unit)) ⟨[], none, []⟩ :=
  (chunking_irrelevant (keepBytes Unit) [[2], [7, 9, 0]] [[2, 7, 9, 0]] rfl).1

/-! ## The decoder that reports the bytes it cuts -/

section Cut

variable (ε)

/-- Cutting never fails. -/
theorem drain_ok_error (src : List UInt8) : (drain (keepBytes ε) src).error = none := by
  induction src using buffer_induction with
  | nil => simp
  | short b rest hlt => simp [drain_short (keepBytes ε) hlt]
  | full b body rest hlen ih =>
      rw [drain_full (keepBytes ε) hlen rfl]
      exact ih

/-- For cutting, the chunks in which a stream arrives do not matter. -/
theorem feed_ok (buffer : List UInt8) (chunks : List (List UInt8))
    (hbuffer : drain (keepBytes ε) buffer = ⟨[], none, buffer⟩) :
    feed (keepBytes ε) buffer chunks = drain (keepBytes ε) (buffer ++ chunks.flatten) := by
  induction chunks generalizing buffer with
  | nil => simp [feed, hbuffer]
  | cons chunk chunks ih =>
      have hnone := drain_ok_error ε (buffer ++ chunk)
      have hleft := drain_left (buffer ++ chunk) hnone
      have hsplit := drain_append (buffer ++ chunk) chunks.flatten hnone
      simp only [feed, hnone, List.flatten_cons, ← List.append_assoc]
      rw [ih _ hleft, hsplit]

/-- Byte accounting: every frame cut out costs its own length and one length
byte. -/
theorem length_drain_ok (src : List UInt8) :
    ((drain (keepBytes ε) src).items.map fun m => m.length + 1).sum +
      (drain (keepBytes ε) src).left.length = src.length := by
  induction src using buffer_induction with
  | nil => simp
  | short b rest hlt => simp [drain_short (keepBytes ε) hlt]
  | full b body rest hlen ih =>
      rw [drain_full (keepBytes ε) hlen rfl]
      simp only [List.map_cons, List.sum_cons, List.length_cons, List.length_append]
      omega

/-- A length byte cannot announce more than 255 bytes. -/
theorem length_le_of_mem_drain_ok (src : List UInt8) :
    ∀ m ∈ (drain (keepBytes ε) src).items, m.length ≤ 255 := by
  induction src using buffer_induction with
  | nil => simp
  | short b rest hlt => simp [drain_short (keepBytes ε) hlt]
  | full b body rest hlen ih =>
      rw [drain_full (keepBytes ε) hlen rfl]
      intro m hm
      rcases List.mem_cons.mp hm with rfl | hm
      · have hb := b.toNat_lt
        omega
      · exact ih m hm

end Cut

end MonitoringTool.Backend
