import Mathlib.Algebra.Order.BigOperators.Group.List
import Mathlib.Algebra.Order.Group.Nat
import MonitoringTool.Sniffer.Varint
import MonitoringTool.Backend.Codec

/-!
# The sniffer's frames and the backend's decoder

The sniffer puts a base-128 varint in front of each message; the backend reads
one byte as the length.  The two agree exactly while every length fits in seven
bits: a longer message has a prefix of at least two bytes, and byte accounting
shows that no split of the stream lets the decoder recover from that.
-/

namespace MonitoringTool.Backend

open MonitoringTool.Sniffer

variable (ε : Type*)

/-- Messages shorter than 128 bytes are cut exactly at their boundaries. -/
theorem drain_sentStream_of_short (payloads : List (List UInt8))
    (hshort : ∀ m ∈ payloads, m.length < 128) :
    drain (keepBytes ε) (sentStream payloads) = ⟨payloads, none, []⟩ := by
  induction payloads with
  | nil => simp
  | cons m ms ih =>
      have hm : m.length < 128 := hshort m (by simp)
      have hlen : m.length = (m.length.toUInt8).toNat := by
        rw [Nat.toUInt8_eq, UInt8.toNat_ofNat']
        omega
      rw [sentStream_cons, frame_of_short hm, List.cons_append,
        drain_full (keepBytes ε) hlen rfl, ih fun m' hm' => hshort m' (by simp [hm'])]

/-- The bytes on the wire: every message costs its length and its prefix. -/
theorem length_sentStream (payloads : List (List UInt8)) :
    (sentStream payloads).length =
      (payloads.map fun m => (encodeVarint m.length.toUInt64).length + m.length).sum := by
  induction payloads with
  | nil => rfl
  | cons m ms ih => simp [ih, length_frame]

/-- If the prefixes take no more than one byte a message in total, each of them
is a single byte. -/
private theorem prefix_single (payloads : List (List UInt8))
    (hsum : (payloads.map fun m => (encodeVarint m.length.toUInt64).length + m.length).sum ≤
      (payloads.map fun m => m.length + 1).sum) :
    ∀ m ∈ payloads, (encodeVarint m.length.toUInt64).length = 1 := by
  have hge : ∀ ms : List (List UInt8), (ms.map fun m => m.length + 1).sum ≤
      (ms.map fun m => (encodeVarint m.length.toUInt64).length + m.length).sum := by
    intro ms
    refine List.sum_le_sum fun m _ => ?_
    have := one_le_length_encodeVarint m.length.toUInt64
    omega
  induction payloads with
  | nil => simp
  | cons m ms ih =>
      have htail := hge ms
      have hhead := one_le_length_encodeVarint m.length.toUInt64
      simp only [List.map_cons, List.sum_cons] at hsum
      intro m' hm'
      rcases List.mem_cons.mp hm' with rfl | hm'
      · omega
      · exact ih (by omega) m' hm'

/-- A decoder that cuts out exactly the messages and leaves nothing behind has
met no message of 128 bytes or more. -/
theorem short_of_cut (payloads : List (List UInt8))
    (hcut : drain (keepBytes ε) (sentStream payloads) = ⟨payloads, none, []⟩) :
    ∀ m ∈ payloads, m.length < 128 := by
  have hbytes := length_drain_ok ε (sentStream payloads)
  have hsmall := length_le_of_mem_drain_ok ε (sentStream payloads)
  rw [hcut] at hbytes hsmall
  rw [length_sentStream, List.length_nil, Nat.add_zero] at hbytes
  intro m hm
  have hone := prefix_single payloads hbytes.ge m hm
  rw [length_encodeVarint_eq_one_iff, Nat.toUInt64_eq, UInt64.toNat_ofNat'] at hone
  have := hsmall m hm
  omega

/-- **Sniffer and backend agree on the frames exactly for short messages.**
However the stream of messages is split into chunks, the decoder cuts out these
messages in order and leaves no byte over if and only if every one of them is
shorter than 128 bytes. -/
theorem codec_cuts_payloads_iff (payloads chunks : List (List UInt8))
    (hstream : chunks.flatten = sentStream payloads) :
    feed (keepBytes ε) [] chunks = ⟨payloads, none, []⟩ ↔ ∀ m ∈ payloads, m.length < 128 := by
  have hfeed := feed_ok ε [] chunks (drain_nil _)
  rw [hfeed, List.nil_append, hstream]
  exact ⟨short_of_cut ε payloads, drain_sentStream_of_short ε payloads⟩

/-- Two messages, the second of them empty, arriving in two chunks. -/
theorem codec_cuts_two_payloads :
    feed (keepBytes Unit) [] [[2], [7, 9, 0]] = ⟨[[7, 9], []], none, []⟩ :=
  (codec_cuts_payloads_iff Unit [[7, 9], []] [[2], [7, 9, 0]]
    (by simp [frame_of_short])).mpr (by simp)

/-- A message of 128 bytes, arriving in one piece, is not cut out as it was
sent. -/
theorem codec_miscuts_long_payload :
    feed (keepBytes Unit) [] [sentStream [List.replicate 128 0]] ≠
      ⟨[List.replicate 128 0], none, []⟩ := by
  have hfeed := feed_ok Unit [] [sentStream [List.replicate 128 0]] (drain_nil _)
  rw [hfeed, List.nil_append, List.flatten_singleton]
  intro hcut
  have hshort := short_of_cut Unit _ hcut (List.replicate 128 0) (by simp)
  simp at hshort

end MonitoringTool.Backend
