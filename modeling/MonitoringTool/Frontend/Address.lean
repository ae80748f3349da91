import MonitoringTool.Frontend.Number
import MonitoringTool.Sniffer.ExtractData
import MonitoringTool.Sniffer.IpAddress

/-!
# Addresses in the form

`ip2int` of `App.vue` puts an address together from its parts with 32-bit shifts, which are
signed, and takes the result as unsigned.  It reads what the sniffer's `ip_ntos` prints, as
`ip_ston` does.
-/

namespace MonitoringTool.Frontend

open Sniffer

/-- A text of the sniffer as a string of the frontend. -/
def textOf (bytes : List UInt8) : List Char := bytes.map fun b => Char.ofNat b.toNat

/-- One round of `reduce`: `(ipInt << 8) + parseInt(octet, 10)`. -/
def addOctet (ipInt : Number) (octet : List Char) : Number :=
  (ipInt.shiftLeft 8).add (parseInt octet 10)

/-- `ip2int`; `none` is `null`. -/
def ip2int : Option (List Char) → Option Number
  | none => none
  | some [] => none
  | some ip => some ((ip.splitOn '.').foldl addOctet (.int 0)).toUint32

/-! ## The text of an address -/

theorem textOf_decimal (n : UInt32) : textOf (decimal n) = Nat.toDigits 10 n.toNat := by
  have hdigit : ∀ d ∈ Nat.toDigits 10 n.toNat, Char.ofNat (UInt8.ofNat d.toNat).toNat = d := by
    intro d hd
    have hrange := isDigit_iff.mp (Nat.isDigit_of_mem_toDigits (by decide) (by decide) hd)
    have hcode : (UInt8.ofNat d.toNat).toNat = d.toNat := by
      rw [UInt8.toNat_ofNat']
      omega
    rw [hcode, Char.ofNat_toNat]
  unfold textOf decimal
  rw [List.map_map]
  exact (List.map_congr_left hdigit).trans (List.map_id' _)

/-- The four numbers with points between them. -/
theorem splitOn_ipNtos (n : UInt32) : (textOf (ipNtos n)).splitOn '.' =
    [Nat.toDigits 10 (octet n 24), Nat.toDigits 10 (octet n 16), Nat.toDigits 10 (octet n 8),
      Nat.toDigits 10 (octet n 0)] := by
  obtain ⟨h24, h16, h8, h0⟩ := toNat_octets n
  have hdot : textOf (chars ".") = ['.'] := by decide
  have hmem : ∀ k, '.' ∉ Nat.toDigits 10 k := by
    intro k hk
    exact absurd (Nat.isDigit_of_mem_toDigits (by decide) (by decide) hk) (by decide)
  have happend : ∀ s t, textOf (s ++ t) = textOf s ++ textOf t := fun s t => List.map_append
  unfold ipNtos
  simp only [happend, textOf_decimal, hdot, h24, h16, h8, h0, List.append_assoc,
    List.singleton_append]
  rw [List.splitOn_append_cons_self_of_not_mem (hmem _),
    List.splitOn_append_cons_self_of_not_mem (hmem _),
    List.splitOn_append_cons_self_of_not_mem (hmem _), List.splitOn_eq_singleton (hmem _)]

theorem mem_ipNtos (n : UInt32) : ∀ c ∈ textOf (ipNtos n), c.isDigit = true ∨ c = '.' := by
  have hdigit : ∀ k, ∀ c ∈ Nat.toDigits 10 k, c.isDigit = true := fun k c hc =>
    Nat.isDigit_of_mem_toDigits (by decide) (by decide) hc
  intro c hc
  rw [← @List.intercalate_splitOn _ (textOf (ipNtos n)) _ _ '.', splitOn_ipNtos] at hc
  simp only [List.intercalate_cons_cons, List.intercalate_singleton, List.mem_append,
    List.mem_singleton, or_assoc] at hc
  rcases hc with hc | hc | hc | hc | hc | hc | hc
  all_goals first | exact .inl (hdigit _ c hc) | exact .inr hc

/-! ## Putting it together -/

/-- One round on a small part: the sum is not rounded. -/
theorem addOctet_toDigits (m : ℤ) {octet : ℕ} (h : octet < 256) :
    addOctet (.int m) (Nat.toDigits 10 octet) = .int ((Int32.ofInt m <<< 8).toInt + octet) := by
  have hlo := Int32.le_toInt (Int32.ofInt m <<< 8)
  have hhi := Int32.toInt_lt (Int32.ofInt m <<< 8)
  unfold addOctet
  rw [parseInt_toDigits (by omega)]
  show Number.ofInt ((Int32.ofInt m <<< 8).toInt + octet) = _
  apply Number.ofInt_of_lt
  omega

/-- Modulo 2^32 a round is one of unsigned numbers. -/
theorem toNat_round (x : Int32) (octet : ℕ) :
    (Int32.ofInt ((x <<< 8).toInt + octet)).toUInt32.toNat =
      (x.toUInt32.toNat * 256 + octet) % 2 ^ 32 := by
  have hshift : (x <<< 8).toUInt32 = x.toUInt32 <<< 8 := rfl
  have hoctet : (Int32.ofInt octet).toUInt32 = UInt32.ofNat octet := by
    rw [Int32.ofInt_eq_ofNat]
    rfl
  rw [Int32.ofInt_add, Int32.ofInt_toInt, Int32.toUInt32_add, hshift, hoctet, UInt32.toNat_add,
    UInt32.toNat_shiftLeft, UInt32.toNat_ofNat']
  have height : (8 : UInt32).toNat % 32 = 8 := rfl
  rw [height, Nat.shiftLeft_eq]
  omega

/-- All rounds: the octets in base 256. -/
theorem foldl_addOctet {octets : List ℕ} (h : ∀ o ∈ octets, o < 256) (m : ℤ) :
    ∃ m', (octets.map (Nat.toDigits 10)).foldl addOctet (.int m) = .int m' ∧
      (Int32.ofInt m').toUInt32.toNat =
        octets.foldl (fun v o => (v * 256 + o) % 2 ^ 32) (Int32.ofInt m).toUInt32.toNat := by
  induction octets generalizing m with
  | nil => exact ⟨m, rfl, rfl⟩
  | cons o octets ih =>
      have ho : o < 256 := h o (by simp)
      obtain ⟨m', hfold, hvalue⟩ :=
        ih (fun x hx => h x (by simp [hx])) ((Int32.ofInt m <<< 8).toInt + o)
      refine ⟨m', ?_, ?_⟩
      · rw [List.map_cons, List.foldl_cons, addOctet_toDigits m ho]
        exact hfold
      · rw [hvalue, toNat_round]
        rfl

/-- `ip2int` reads what `ip_ntos` prints. -/
theorem ip2int_ipNtos (n : UInt32) : ip2int (some (textOf (ipNtos n))) = some (.int n.toNat) := by
  have hsplit := splitOn_ipNtos n
  have hoctets : ∀ o ∈ [octet n 24, octet n 16, octet n 8, octet n 0], o < 256 := by
    simp [octet_lt]
  obtain ⟨m, hfold, hvalue⟩ := foldl_addOctet hoctets 0
  have hip : ip2int (some (textOf (ipNtos n))) =
      some (((textOf (ipNtos n)).splitOn '.').foldl addOctet (.int 0)).toUint32 := by
    cases hs : textOf (ipNtos n) with
    | nil =>
        rw [hs, List.splitOn_nil] at hsplit
        simp at hsplit
    | cons c s => rfl
  have hnumber : (Int32.ofInt m).toUInt32.toNat = n.toNat := by
    have hzero : (Int32.ofInt 0).toUInt32.toNat = 0 := rfl
    have hsum := sum_octets n
    have hlt := n.toNat_lt
    rw [hvalue, hzero]
    simp only [List.foldl_cons, List.foldl_nil]
    omega
  rw [hip, hsplit]
  have hfold' : [Nat.toDigits 10 (octet n 24), Nat.toDigits 10 (octet n 16),
      Nat.toDigits 10 (octet n 8), Nat.toDigits 10 (octet n 0)].foldl addOctet (.int 0) =
        .int m := hfold
  rw [hfold', ← hnumber]
  rfl

/-! ## Filters -/

/-- The filters of a protocol before any is set. -/
def noFilter : FlowFilter :=
  { hasClientIp := false
    clientIp := 0
    clientPorts := []
    hasServerIp := false
    serverIp := 0
    serverPorts := [] }

/-- `Protocol::setClientIp`. -/
def setClientIp (flt : FlowFilter) (ip : UInt32) : FlowFilter :=
  { flt with hasClientIp := true, clientIp := ip }

/-- `Protocol::setServerIp`. -/
def setServerIp (flt : FlowFilter) (ip : UInt32) : FlowFilter :=
  { flt with hasServerIp := true, serverIp := ip }

theorem setClientIp_passes (ip : UInt32) (s : FlowS) :
    (setClientIp noFilter ip).passes s = true ↔ s.saddr = ip := by
  have hpasses : (setClientIp noFilter ip).passes s = true ↔ ip = s.saddr := by
    simp [FlowFilter.passes, setClientIp, noFilter]
  exact hpasses.trans eq_comm

theorem setServerIp_passes (ip : UInt32) (s : FlowS) :
    (setServerIp noFilter ip).passes s = true ↔ s.daddr = ip := by
  have hpasses : (setServerIp noFilter ip).passes s = true ↔ ip = s.daddr := by
    simp [FlowFilter.passes, setServerIp, noFilter]
  exact hpasses.trans eq_comm

/-- **Conversions of addresses.**  For every address, the frontend's `ip2int` and the
sniffer's `ip_ston` read from the text that `ip_ntos` prints the address again, so that a
filter entered as that text passes the flows of that host. -/
theorem address_conversions_inverse (n : UInt32) :
    ip2int (some (textOf (ipNtos n))) = some (.int n.toNat) ∧
      ipSton (ipNtos n ++ [0]) = some n ∧
      ∀ s, ((setClientIp noFilter (UInt32.ofNat n.toNat)).passes s = true ↔ s.saddr = n) ∧
        ((setServerIp noFilter (UInt32.ofNat n.toNat)).passes s = true ↔ s.daddr = n) := by
  rw [UInt32.ofNat_toNat]
  exact ⟨ip2int_ipNtos n, ipSton_ipNtos n [], fun s =>
    ⟨setClientIp_passes n s, setServerIp_passes n s⟩⟩

end MonitoringTool.Frontend
