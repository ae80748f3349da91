import MonitoringTool.Frontend.Address
import MonitoringTool.Frontend.NumberText

/-!
# The form and the `Init` message

The rules of the form look at a text in one way, and the handler of `run` in `App.vue` makes
numbers of it in another.  `form_values_iff` says, field by field, for which of the texts that
the rules let through the message carries what was entered.
-/

namespace MonitoringTool.Frontend

open Sniffer

/-! ## Rules -/

def ipLength : ℕ := 45

/-- `/^[0-9, ]*$/`. -/
def isPortText (text : List Char) : Bool := text.all fun c => c.isDigit || c = ',' || c = ' '

/-- `portRules`; `none` is `null`. -/
def portRules : Option (List Char) → Bool
  | none => true
  | some value => (value ≠ [] && isPortText value) || value.length = 0

/-- `ipRules`, for the function that `is-ip` exports. -/
def ipRules (isIp : List Char → Bool) : Option (List Char) → Bool
  | none => true
  | some value => (isIp value && value.length ≤ ipLength) || value.length = 0

/-- `timeRules`. -/
def timeRules (value : List Char) : Bool := !isNaN value && greaterZero value

/-! ## The form -/

structure EndpointForm where
  ip : Option (List Char)
  ports : Option (List Char)

/-- A protocol, with the switch of each of its metrics. -/
structure ProtocolForm where
  id : Option (List Char)
  metrics : List Bool
  client : EndpointForm
  server : EndpointForm

structure NetIntForm where
  id : Option (List Char)
  protocols : List ProtocolForm

structure SystemForm where
  netInts : List NetIntForm
  interval : List Char
  duration : List Char

def ProtocolForm.accepted (isIp : List Char → Bool) (p : ProtocolForm) : Bool :=
  ipRules isIp p.client.ip && portRules p.client.ports &&
    (ipRules isIp p.server.ip && portRules p.server.ports)

/-- The rules about ports, addresses and times accept the form. -/
def SystemForm.accepted (isIp : List Char → Bool) (form : SystemForm) : Bool :=
  (form.netInts.all fun n => n.protocols.all (·.accepted isIp)) &&
    (timeRules form.interval && timeRules form.duration)

/-! ## The message -/

structure ProtocolInit where
  id : Option (List Char)
  activeMetrics : Int32
  clientIp : Option Number
  clientPorts : List Number
  serverIp : Option Number
  serverPorts : List Number

structure NetIntInit where
  id : Option (List Char)
  protocols : List ProtocolInit

structure InitMessage where
  netInts : List NetIntInit
  interval : Number
  duration : Number

/-- `(ports != null) ? ports.split(",").map(i => parseInt(i)) : []`. -/
def sentPorts : Option (List Char) → List Number
  | none => []
  | some ports => (ports.splitOn ',').map (parseInt · 0)

/-- The bits of the metrics that are switched on. -/
def activeMetrics (metrics : List Bool) : Int32 :=
  metrics.zipIdx.foldl
    (fun mask (active, i) => if active then mask ||| (1 <<< Int32.ofNat i) else mask) 0

def ProtocolForm.init (p : ProtocolForm) : ProtocolInit :=
  { id := p.id
    activeMetrics := activeMetrics p.metrics
    clientIp := ip2int p.client.ip
    clientPorts := sentPorts p.client.ports
    serverIp := ip2int p.server.ip
    serverPorts := sentPorts p.server.ports }

/-- The handler of `run`. -/
def SystemForm.run (form : SystemForm) : InitMessage :=
  { netInts := form.netInts.map fun n => { id := n.id, protocols := n.protocols.map (·.init) }
    interval := parseInt form.interval 0
    duration := parseInt form.duration 0 }

/-- `Protocol::addClientPort`, whose argument is a `u_int16_t`. -/
def addClientPort (flt : FlowFilter) (port : ℕ) : FlowFilter :=
  { flt with clientPorts := flt.clientPorts ++ [UInt16.ofNat port] }

/-- `Protocol::addServerPort`. -/
def addServerPort (flt : FlowFilter) (port : ℕ) : FlowFilter :=
  { flt with serverPorts := flt.serverPorts ++ [UInt16.ofNat port] }

/-! ## What is entered -/

/-- The runs of digits in a text. -/
def digitRuns (text : List Char) : List (List Char) :=
  (text.splitOnP fun c => !c.isDigit).filter (· ≠ [])

/-- The ports that are listed in a field. -/
def listedPorts : Option (List Char) → List ℕ
  | none => []
  | some text => (digitRuns text).map (Nat.ofDigitChars 10 · 0)

/-- One number is sent for each listed port, and `kept` truncates none. -/
def PortsSent (kept : List ℕ → List UInt16) (text : Option (List Char)) (sent : List Number) :
    Prop :=
  ∃ ports : List ℕ, listedPorts text = ports ∧ sent = ports.map (fun port : ℕ => .int port) ∧
    (kept ports).map (·.toNat) = ports

/-- The 32-bit value of the address is sent, or `null` for an empty field. -/
def AddressSent (text : Option (List Char)) (sent : Option Number) : Prop :=
  match text with
  | none => sent = none
  | some [] => sent = none
  | some ip => ∃ n : UInt32, ip = textOf (ipNtos n) ∧ sent = some (.int n.toNat)

/-- The positive integer that the text stands for is sent. -/
def TimeSent (text : List Char) (sent : Number) : Prop :=
  ∃ n : ℕ, 0 < n ∧ sent = .int n ∧ (numericLiteral text).bind (·.value) = some (n : ℚ)

/-- The ports of the clients in the sniffer. -/
def keptClientPorts (ports : List ℕ) : List UInt16 :=
  (ports.foldl addClientPort Frontend.noFilter).clientPorts

/-- The ports of the servers in the sniffer. -/
def keptServerPorts (ports : List ℕ) : List UInt16 :=
  (ports.foldl addServerPort Frontend.noFilter).serverPorts

/-! ## What is read as it is entered -/

/-- There is one number between any two commas, and it fits a port. -/
def OnePortEach (text : Option (List Char)) : Prop :=
  ∀ ports, text = some ports → ∀ piece ∈ ports.splitOn ',',
    ∃ run, digitRuns piece = [run] ∧ Nat.ofDigitChars 10 run 0 < 2 ^ 16

/-- The text is a literal without a fraction or an exponent that a double holds. -/
def WholeTime (text : List Char) : Prop :=
  ∃ literal, numericLiteral text = some literal ∧ literal.IsWhole

/-- `isIp` accepts the texts of the IPv4 addresses and those of the IPv6 addresses, which have
a colon. -/
structure AcceptsAddresses (isIp : List Char → Bool) (isIPv6 : List Char → Prop) : Prop where
  iff : ∀ text, isIp text = true ↔ (∃ n, text = textOf (ipNtos n)) ∨ isIPv6 text
  colon : ∀ text, isIPv6 text → ':' ∈ text

/-- What is sent for each field of a protocol is what was entered exactly if the field reads as
entered. -/
structure ProtocolForm.SentIff (isIPv6 : List Char → Prop) (p : ProtocolForm)
    (sent : ProtocolInit) : Prop where
  clientIp : AddressSent p.client.ip sent.clientIp ↔ ∀ ip, p.client.ip = some ip → ¬ isIPv6 ip
  clientPorts : PortsSent keptClientPorts p.client.ports sent.clientPorts ↔
    OnePortEach p.client.ports
  serverIp : AddressSent p.server.ip sent.serverIp ↔ ∀ ip, p.server.ip = some ip → ¬ isIPv6 ip
  serverPorts : PortsSent keptServerPorts p.server.ports sent.serverPorts ↔
    OnePortEach p.server.ports

/-! ## Runs of digits -/

/-- Every text is a piece without commas, or one with a comma and a text behind it. -/
theorem comma_induction {motive : List Char → Prop} (single : ∀ s, ',' ∉ s → motive s)
    (cons : ∀ a b, ',' ∉ a → motive b → motive (a ++ ',' :: b)) (text : List Char) :
    motive text := by
  by_cases hmem : ',' ∈ text
  · obtain ⟨a, b, htext, ha⟩ := List.eq_append_cons_of_mem hmem
    have hlt : b.length < text.length := by
      rw [htext, List.length_append, List.length_cons]
      omega
    rw [htext]
    exact cons a b ha (comma_induction single cons b)
  · exact single text hmem
termination_by text.length

theorem digitRuns_append {c : Char} (hc : c.isDigit = false) (a b : List Char) :
    digitRuns (a ++ c :: b) = digitRuns a ++ digitRuns b := by
  unfold digitRuns
  rw [List.splitOnP_append_cons a b (by simp [hc]), List.filter_append]

theorem digitRuns_cons {c : Char} (hc : c.isDigit = false) (s : List Char) :
    digitRuns (c :: s) = digitRuns s := digitRuns_append hc [] s

theorem digitRuns_run {run rest : List Char} (hrun : ∀ c ∈ run, c.isDigit) (hne : run ≠ [])
    (hrest : ∀ c ∈ rest.head?, c.isDigit = false) :
    digitRuns (run ++ rest) = run :: digitRuns rest := by
  have hone : digitRuns run = [run] := by
    unfold digitRuns
    rw [List.splitOnP_eq_singleton fun c hc => by simp [hrun c hc]]
    simp [hne]
  cases rest with
  | nil => rw [List.append_nil, hone]; rfl
  | cons c rest =>
      have hc := hrest c rfl
      rw [digitRuns_append hc, hone, digitRuns_cons hc, List.singleton_append]

/-- No run of digits goes over a comma. -/
theorem digitRuns_splitOn (text : List Char) :
    digitRuns text = (text.splitOn ',').flatMap digitRuns := by
  induction text using comma_induction with
  | single s hs => simp [List.splitOn_eq_singleton hs]
  | cons a b ha ih =>
      rw [digitRuns_append (by decide), ih, List.splitOn_append_cons_self_of_not_mem ha,
        List.flatMap_cons]

theorem isPortText_piece {text : List Char} (h : isPortText text = true) :
    ∀ piece ∈ text.splitOn ',', ∀ c ∈ piece, c.isDigit = true ∨ c = ' ' := by
  induction text using comma_induction with
  | single s hs =>
      rw [List.splitOn_eq_singleton hs]
      intro piece hpiece c hc
      obtain rfl := List.mem_singleton.mp hpiece
      have hne : c ≠ ',' := fun heq => hs (heq ▸ hc)
      simpa [hne] using List.all_eq_true.mp h c hc
  | cons a b ha ih =>
      rw [List.splitOn_append_cons_self_of_not_mem ha]
      unfold isPortText at h
      rw [List.all_append, Bool.and_eq_true, List.all_cons, Bool.and_eq_true] at h
      intro piece hpiece c hc
      rcases List.mem_cons.mp hpiece with rfl | hpiece
      · have hne : c ≠ ',' := fun heq => ha (heq ▸ hc)
        simpa [hne] using List.all_eq_true.mp h.1 c hc
      · exact ih h.2.2 piece hpiece c hc

/-- `parseInt` reads the first run of digits between two commas. -/
theorem parseInt_piece {piece : List Char} (h : ∀ c ∈ piece, c.isDigit = true ∨ c = ' ') :
    parseInt piece 0 =
      match digitRuns piece with
      | [] => .nan
      | run :: _ => .ofInt (Nat.ofDigitChars 10 run 0 : ℕ) := by
  induction piece with
  | nil => rfl
  | cons c s ih =>
      have hs : ∀ d ∈ s, d.isDigit = true ∨ d = ' ' := fun d hd => h d (List.mem_cons_of_mem c hd)
      rcases h c (by simp) with hc | rfl
      · have hrun : ∀ d ∈ (c :: s).takeWhile Char.isDigit, d.isDigit := fun d hd =>
          List.mem_takeWhile_imp hd
        have hne : (c :: s).takeWhile Char.isDigit ≠ [] := by simp [hc]
        have hrest : ∀ d ∈ ((c :: s).dropWhile Char.isDigit).head?,
            d.isDigit = false ∧ d ≠ 'x' ∧ d ≠ 'X' := by
          intro d hd
          have hmem : d ∈ c :: s := (List.dropWhile_suffix _).subset (List.mem_of_mem_head? hd)
          have hdigit := List.head?_dropWhile_not Char.isDigit (c :: s)
          rw [Option.mem_def.mp hd] at hdigit
          rcases h d hmem with hd' | rfl
          · rw [hdigit] at hd'
            cases hd'
          · decide
        have hsplit : (c :: s).takeWhile Char.isDigit ++ (c :: s).dropWhile Char.isDigit = c :: s :=
          List.takeWhile_append_dropWhile
        have hparse : parseInt ([] ++ _) 0 = _ := parseInt_digits (by simp) hrun hne
          (fun d hd => ⟨by simp [(hrest d hd).1], (hrest d hd).2⟩) (.inl rfl)
        have hruns := digitRuns_run hrun hne fun d hd => (hrest d hd).1
        rw [List.nil_append, hsplit] at hparse
        rw [hsplit] at hruns
        rw [hparse, hruns]
      · have hspace : parseInt (' ' :: s) 0 = parseInt s 0 := rfl
        rw [hspace, digitRuns_cons (by decide), ih hs]

/-! ## Ports -/

theorem foldl_ports {add : FlowFilter → ℕ → FlowFilter} {ports : FlowFilter → List UInt16}
    (hadd : ∀ flt port, ports (add flt port) = ports flt ++ [UInt16.ofNat port]) (l : List ℕ)
    (flt : FlowFilter) : ports (l.foldl add flt) = ports flt ++ l.map UInt16.ofNat := by
  induction l generalizing flt with
  | nil => simp
  | cons port l ih => rw [List.foldl_cons, ih, hadd, List.append_assoc]; rfl

theorem keptClientPorts_eq (ports : List ℕ) : keptClientPorts ports = ports.map UInt16.ofNat :=
  @foldl_ports addClientPort (·.clientPorts) (fun _ _ => rfl) ports _

theorem keptServerPorts_eq (ports : List ℕ) : keptServerPorts ports = ports.map UInt16.ofNat :=
  @foldl_ports addServerPort (·.serverPorts) (fun _ _ => rfl) ports _

/-- Lists that are not empty are as many as their elements only if each has one. -/
theorem flatMap_singletons {α β : Type} {f : α → List β} {l : List α} (h : ∀ x ∈ l, f x ≠ []) :
    l.length ≤ (l.flatMap f).length ∧
      ((l.flatMap f).length = l.length → ∀ x ∈ l, ∃ y, f x = [y]) := by
  induction l with
  | nil => simp
  | cons a l ih =>
      obtain ⟨hle, hone⟩ := ih fun x hx => h x (List.mem_cons_of_mem a hx)
      have ha : 0 < (f a).length := List.length_pos_iff.mpr (h a (by simp))
      rw [List.flatMap_cons, List.length_append, List.length_cons]
      refine ⟨by omega, fun heq x hx => ?_⟩
      rcases List.mem_cons.mp hx with rfl | hx
      · exact List.length_eq_one_iff.mp (by omega)
      · exact hone (by omega) x hx

/-- Pieces with one number each. -/
theorem sent_of_onePort {pieces : List (List Char)}
    (hchars : ∀ piece ∈ pieces, ∀ c ∈ piece, c.isDigit = true ∨ c = ' ')
    (hone : ∀ piece ∈ pieces,
      ∃ run, digitRuns piece = [run] ∧ Nat.ofDigitChars 10 run 0 < 2 ^ 16) :
    ∃ ports : List ℕ, (pieces.flatMap digitRuns).map (Nat.ofDigitChars 10 · 0) = ports ∧
      pieces.map (parseInt · 0) = ports.map (fun port : ℕ => Number.int port) ∧
      (ports.map UInt16.ofNat).map (·.toNat) = ports := by
  induction pieces with
  | nil => exact ⟨[], rfl, rfl, rfl⟩
  | cons piece pieces ih =>
      obtain ⟨ports, hlisted, hsent, hkept⟩ := ih
        (fun x hx => hchars x (List.mem_cons_of_mem piece hx))
        (fun x hx => hone x (List.mem_cons_of_mem piece hx))
      obtain ⟨run, hrun, hlt⟩ := hone piece (by simp)
      have hparse : parseInt piece 0 = .int (Nat.ofDigitChars 10 run 0 : ℕ) := by
        rw [parseInt_piece (hchars piece (by simp)), hrun]
        exact Number.ofInt_of_lt (by omega)
      refine ⟨Nat.ofDigitChars 10 run 0 :: ports, ?_, ?_, ?_⟩
      · rw [List.flatMap_cons, hrun, List.map_append, hlisted]
        rfl
      · rw [List.map_cons, List.map_cons, hsent, hparse]
      · rw [List.map_cons, List.map_cons, hkept, UInt16.toNat_ofNat_of_lt' hlt]

/-- If as many numbers are sent as are listed, every piece has one. -/
theorem onePort_of_sent {pieces : List (List Char)} {ports : List ℕ}
    (hchars : ∀ piece ∈ pieces, ∀ c ∈ piece, c.isDigit = true ∨ c = ' ')
    (hlisted : (pieces.flatMap digitRuns).map (Nat.ofDigitChars 10 · 0) = ports)
    (hsent : pieces.map (parseInt · 0) = ports.map (fun port : ℕ => Number.int port))
    (hfit : (ports.map UInt16.ofNat).map (·.toNat) = ports) :
    ∀ piece ∈ pieces, ∃ run, digitRuns piece = [run] ∧ Nat.ofDigitChars 10 run 0 < 2 ^ 16 := by
  have hfits : ∀ port ∈ ports, port < 2 ^ 16 := by
    intro port hport
    rw [← hfit] at hport
    obtain ⟨kept, -, rfl⟩ := List.mem_map.mp hport
    exact kept.toNat_lt
  -- what is sent for a piece is one of the ports and no `NaN`
  have hnumber : ∀ piece ∈ pieces, ∃ port ∈ ports, parseInt piece 0 = .int port := by
    intro piece hpiece
    have hmem : parseInt piece 0 ∈ pieces.map (parseInt · 0) := List.mem_map_of_mem hpiece
    rw [hsent] at hmem
    obtain ⟨port, hport, heq⟩ := List.mem_map.mp hmem
    exact ⟨port, hport, heq.symm⟩
  have hruns : ∀ piece ∈ pieces, digitRuns piece ≠ [] := by
    intro piece hpiece hnil
    obtain ⟨port, -, hport⟩ := hnumber piece hpiece
    rw [parseInt_piece (hchars piece hpiece), hnil] at hport
    cases hport
  have hlength : (pieces.flatMap digitRuns).length = pieces.length := by
    have hlen := congrArg List.length hlisted
    have hlen' := congrArg List.length hsent
    rw [List.length_map] at hlen
    rw [List.length_map, List.length_map] at hlen'
    rw [hlen, hlen']
  intro piece hpiece
  obtain ⟨run, hrun⟩ := (flatMap_singletons hruns).2 hlength piece hpiece
  obtain ⟨port, hport, hparse⟩ := hnumber piece hpiece
  rw [parseInt_piece (hchars piece hpiece), hrun] at hparse
  have hlt := hfits port hport
  have heq := (Number.ofInt_eq_int (by omega)).mp hparse
  exact ⟨run, hrun, heq ▸ hlt⟩

theorem portsSent_iff {kept : List ℕ → List UInt16}
    (hkept : ∀ ports, kept ports = ports.map UInt16.ofNat) {text : Option (List Char)}
    (h : portRules text = true) : PortsSent kept text (sentPorts text) ↔ OnePortEach text := by
  cases text with
  | none => exact iff_of_true ⟨[], rfl, rfl, by rw [hkept]; rfl⟩ fun ports hports => by cases hports
  | some text =>
      have htext : isPortText text = true := by
        cases text with
        | nil => rfl
        | cons c s => simpa [portRules] using h
      have hchars := isPortText_piece htext
      have hlisted : listedPorts (some text) =
          ((text.splitOn ',').flatMap digitRuns).map (Nat.ofDigitChars 10 · 0) := by
        rw [← digitRuns_splitOn]
        rfl
      constructor
      · rintro ⟨ports, hports, hsent, hfit⟩ text' htext'
        obtain rfl := Option.some.inj htext'
        rw [hkept] at hfit
        exact onePort_of_sent hchars (hlisted.symm.trans hports) hsent hfit
      · intro hone
        obtain ⟨ports, hports, hsent, hfit⟩ := sent_of_onePort hchars (hone text rfl)
        exact ⟨ports, hlisted.trans hports, hsent, by rw [hkept]; exact hfit⟩

/-! ## Addresses and times -/

/-- The text is that of an IPv4 address. -/
def isIPv4 (text : List Char) : Bool :=
  match ip2int (some text) with
  | some (.int n) => text = textOf (ipNtos (UInt32.ofNat n.toNat))
  | _ => false

theorem isIPv4_iff {text : List Char} : isIPv4 text = true ↔ ∃ n, text = textOf (ipNtos n) := by
  constructor
  · intro h
    unfold isIPv4 at h
    split at h
    · exact ⟨_, of_decide_eq_true h⟩
    · cases h
  · rintro ⟨n, rfl⟩
    simp [isIPv4, ip2int_ipNtos]

theorem addressSent_iff {isIp : List Char → Bool} {isIPv6 : List Char → Prop}
    (hisIp : AcceptsAddresses isIp isIPv6) {text : Option (List Char)}
    (h : ipRules isIp text = true) :
    AddressSent text (ip2int text) ↔ ∀ ip, text = some ip → ¬ isIPv6 ip := by
  match text with
  | none => exact iff_of_true rfl fun ip hip => by cases hip
  | some [] =>
      refine iff_of_true rfl fun ip hip hv6 => ?_
      obtain rfl := Option.some.inj hip
      cases hisIp.colon _ hv6
  | some (c :: s) =>
      have haccepted : isIp (c :: s) = true := by
        have hand : isIp (c :: s) = true ∧ (c :: s).length ≤ ipLength := by simpa [ipRules] using h
        exact hand.1
      constructor
      · rintro ⟨n, hn, -⟩ ip hip hv6
        obtain rfl := Option.some.inj hip
        -- the text of an IPv4 address has no colon
        have hcolon := hisIp.colon _ hv6
        rw [hn] at hcolon
        exact absurd (mem_ipNtos n _ hcolon) (by decide)
      · intro hno
        rcases (hisIp.iff _).mp haccepted with ⟨n, hn⟩ | hv6
        · exact ⟨n, hn, hn ▸ ip2int_ipNtos n⟩
        · exact absurd hv6 (hno _ rfl)

theorem timeSent_iff {text : List Char} (h : timeRules text = true) :
    TimeSent text (parseInt text 0) ↔ WholeTime text := by
  cases hliteral : numericLiteral text with
  | none => simp [timeRules, isNaN, hliteral] at h
  | some literal =>
      have hpos : literal.isPositive = true := by
        simpa [timeRules, isNaN, greaterZero, hliteral] using h
      have hiff := readsValue_iff hliteral hpos
      have hsent : TimeSent text (parseInt text 0) ↔ ReadsValue text literal := by
        simp [TimeSent, ReadsValue, hliteral]
      rw [hsent, hiff]
      constructor
      · intro hwhole
        exact ⟨literal, hliteral, hwhole⟩
      · rintro ⟨literal', hliteral', hwhole⟩
        rw [hliteral] at hliteral'
        exact Option.some.inj hliteral' ▸ hwhole

theorem ProtocolForm.sentIff {isIp : List Char → Bool} {isIPv6 : List Char → Prop}
    (hisIp : AcceptsAddresses isIp isIPv6) {p : ProtocolForm} (h : p.accepted isIp = true) :
    p.SentIff isIPv6 p.init := by
  simp only [accepted, Bool.and_eq_true] at h
  obtain ⟨⟨hclientIp, hclientPorts⟩, hserverIp, hserverPorts⟩ := h
  exact ⟨addressSent_iff hisIp hclientIp, portsSent_iff keptClientPorts_eq hclientPorts,
    addressSent_iff hisIp hserverIp, portsSent_iff keptServerPorts_eq hserverPorts⟩

/-- **What the form accepts, the message carries.**  For every form that the rules accept and
each of its fields: the message carries what was entered if and only if, for ports, there is
one number that fits a port between any two commas; for an address, it is no IPv6 address;
for a time, it is a literal without a fraction or an exponent that a double holds. -/
theorem form_values_iff {isIp : List Char → Bool} {isIPv6 : List Char → Prop}
    (hisIp : AcceptsAddresses isIp isIPv6) (form : SystemForm)
    (haccepted : form.accepted isIp = true) :
    List.Forall₂ (fun n sent => List.Forall₂ (ProtocolForm.SentIff isIPv6) n.protocols
        sent.protocols) form.netInts form.run.netInts ∧
      (TimeSent form.interval form.run.interval ↔ WholeTime form.interval) ∧
      (TimeSent form.duration form.run.duration ↔ WholeTime form.duration) := by
  simp only [SystemForm.accepted, Bool.and_eq_true, List.all_eq_true] at haccepted
  obtain ⟨hnetInts, hinterval, hduration⟩ := haccepted
  refine ⟨?_, timeSent_iff hinterval, timeSent_iff hduration⟩
  refine List.forall₂_map_right_iff.mpr (List.forall₂_same.mpr fun n hn => ?_)
  refine List.forall₂_map_right_iff.mpr (List.forall₂_same.mpr fun p hp => ?_)
  exact ProtocolForm.sentIff hisIp (hnetInts n hn p hp)

/-- A protocol with an address and two ports of its clients, and one empty field. -/
theorem form_values_iff_http :
    let isIPv6 := fun text => text = "::1".toList
    let isIp := fun text => isIPv4 text || decide (isIPv6 text)
    let form : SystemForm :=
      { netInts := [{
          id := some "eth0".toList
          protocols := [{
            id := some "http".toList
            metrics := [true, false]
            client := { ip := some "10.0.0.1".toList, ports := some "80, 443".toList }
            server := { ip := none, ports := some [] } }] }]
        interval := "5".toList
        duration := "30".toList }
    AcceptsAddresses isIp isIPv6 ∧ form.accepted isIp = true ∧
      List.Forall₂ (fun n sent => List.Forall₂ (ProtocolForm.SentIff isIPv6) n.protocols
        sent.protocols) form.netInts form.run.netInts := by
  intro isIPv6 isIp form
  have hisIp : AcceptsAddresses isIp isIPv6 := by
    refine ⟨fun text => ?_, fun text htext => ?_⟩
    · rw [Bool.or_eq_true, isIPv4_iff, decide_eq_true_iff]
    · rw [htext]
      decide
  have haccepted : form.accepted isIp = true := by decide +kernel
  exact ⟨hisIp, haccepted, (form_values_iff hisIp form haccepted).1⟩

/-- An empty field for ports is sent as `NaN`. -/
theorem form_sends_nan :
    ¬ ∀ (isIp : List Char → Bool) (form : SystemForm), form.accepted isIp = true →
      ∀ n ∈ form.run.netInts, ∀ p ∈ n.protocols, Number.nan ∉ p.clientPorts := by
  intro h
  refine h (fun _ => false)
    { netInts := [{
        id := none
        protocols := [{
          id := none
          metrics := []
          client := { ip := none, ports := some [] }
          server := { ip := none, ports := none } }] }]
      interval := "5".toList
      duration := "30".toList } (by decide +kernel) _ (by simp [SystemForm.run]; rfl) _
    (by simp; rfl) (by decide)

end MonitoringTool.Frontend
