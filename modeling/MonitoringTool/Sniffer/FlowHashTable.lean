import Mathlib.Algebra.BigOperators.Group.Finset.Basic
import MonitoringTool.Lib.Buckets
import MonitoringTool.Lib.Counter
import MonitoringTool.Sniffer.Flow
import Mathlib.Data.List.Perm.Subperm

/-!
# The flow hash table

`FlowHashTable` keeps the flows in `HASH_SIZE` doubly linked lists.  The model
keeps the pointers: `next`, `prev` and `hmb` are the members of the flow objects,
each bucket has `first`, `last` and `elm_cnt`, and `find` follows `next`.  A
function that would read through a null pointer, or walk for ever, has no result.

`elm_cnt` and `flow_cnt` are numbers of 32 bits.  From 2^31 flows on the counter of a bucket
is negative, and `find` does not look into the bucket; at 2^32 it is 0, and `create` starts
the bucket anew.  `Roomy` says that no bucket is as full as that.

`Shape` says that the pointers of bucket `i` are those of the list `chain i`;
`create` and `remove` keep it because they are `hang` and `unhang` on the links
(`create_hang`, `remove_unhang`).  Every operation is given one spec lemma in these
terms (`find_eq`, `create_eq`, `remove_eq`, `flowAddPacket_eq`, `addPacket_cases`), and
nothing after this module looks at a pointer again.
-/

namespace MonitoringTool.Sniffer

open Lib Function

/-! ## The table -/

def HASH_SIZE : ℕ := 13200

/-- `& 0xff`. -/
def lowByte (x : UInt32) : UInt32 := x &&& 0xff

/-- `HASH_FLOW`. -/
def hashFlow (s : FlowS) : ℕ :=
  (lowByte s.sport.toUInt32 ||| lowByte s.dport.toUInt32 <<< 8 ||| lowByte s.saddr <<< 16 |||
    lowByte s.daddr <<< 24).toNat % HASH_SIZE

/-- `hash_mb_t`. -/
structure HashMb where
  first : Option ℕ
  last : Option ℕ
  elmCnt : Int32
  deriving DecidableEq

/-- `FlowHashTable`, the flow objects and the flow queue.  Objects are named by
numbers, and `fresh` is the name of the next one; `fq` lists the objects put on
the queue, `deleted` those deleted, `freed` the packets freed. -/
structure FlowHashTable where
  table : ℕ → HashMb
  flowCnt : Int32
  flows : ℕ → Flow
  next : ℕ → Option ℕ
  prev : ℕ → Option ℕ
  hmb : ℕ → ℕ
  fresh : ℕ
  fq : List ℕ
  deleted : List ℕ
  freed : List ℕ

/-- The other direction of a socket. -/
def FlowS.flip (s : FlowS) : FlowS :=
  { saddr := s.daddr, daddr := s.saddr, sport := s.dport, dport := s.sport }

@[simp] theorem FlowS.flip_flip (s : FlowS) : s.flip.flip = s := rfl

/-- The socket of a packet's own direction. -/
def PacketT.socket (p : PacketT) : FlowS :=
  { saddr := p.saddr, daddr := p.daddr, sport := p.sport, dport := p.dport }

/-- The socket of the flow that takes the packet as one of its source, or of its
destination. -/
def PacketT.flowSocket (p : PacketT) (src : Bool) : FlowS := if src then p.socket else p.socket.flip

namespace FlowHashTable

/-- `FlowHashTable::FlowHashTable`. -/
def new : FlowHashTable where
  table _ := { first := none, last := none, elmCnt := 0 }
  flowCnt := 0
  flows _ := Flow.zero
  next _ := none
  prev _ := none
  hmb _ := 0
  fresh := 0
  fq := []
  deleted := []
  freed := []

/-- Overwrite a bucket. -/
def setMb (t : FlowHashTable) (i : ℕ) (hm : HashMb) : FlowHashTable :=
  { t with table := update t.table i hm }

/-- `f->next = p`. -/
def setNext (t : FlowHashTable) (f : ℕ) (p : Option ℕ) : FlowHashTable :=
  { t with next := update t.next f p }

/-- `f->prev = p`. -/
def setPrev (t : FlowHashTable) (f : ℕ) (p : Option ℕ) : FlowHashTable :=
  { t with prev := update t.prev f p }

/-- `new Flow(fq, this)` in the memory `mem`, with its socket. -/
def newFlow (t : FlowHashTable) (mem : Flow) (s : FlowS) : FlowHashTable :=
  { t with flows := update t.flows t.fresh (Flow.new mem s), fresh := t.fresh + 1 }

/-- `FlowHashTable::create`: the table and the new flow. -/
def create (t : FlowHashTable) (mem : Flow) (s : FlowS) : Option (FlowHashTable × ℕ) :=
  let f := t.fresh
  let t := t.newFlow mem s
  let i := hashFlow s
  let hm := t.table i
  let linked : Option (FlowHashTable × HashMb) :=
    if hm.elmCnt = 0 then
      some ((t.setNext f none).setPrev f none, { hm with first := some f })
    else
      hm.last.map fun l => ((t.setNext l (some f)).setPrev f (some l), hm)
  linked.map fun (t, hm) =>
    let t := t.setNext f none
    let t := t.setMb i { hm with last := some f, elmCnt := hm.elmCnt + 1 }
    ({ t with hmb := update t.hmb f i, flowCnt := t.flowCnt + 1 }, f)

/-- `FlowHashTable::remove`. -/
def remove (t : FlowHashTable) (f : ℕ) : Option FlowHashTable :=
  let i := t.hmb f
  let hm := t.table i
  let unlinked : Option (FlowHashTable × HashMb) :=
    if hm.elmCnt = 1 ∧ some f = hm.first then
      some (t, { hm with first := none, last := none })
    else
      match t.prev f, t.next f with
      | none, none => none
      | none, some n => some (t.setPrev n none, { hm with first := some n })
      | some p, none => some (t.setNext p none, { hm with last := some p })
      | some p, some n => some ((t.setNext p (some n)).setPrev n (some p), hm)
  unlinked.map fun (t, hm) =>
    let t := (t.setNext f none).setPrev f none
    let t := t.setMb i { hm with elmCnt := hm.elmCnt - 1 }
    { t with flowCnt := t.flowCnt - 1 }

/-- `FlowHashTable::find`: the outer `none` is a walk without end. -/
def find (t : FlowHashTable) (s : FlowS) : Option (Option ℕ) :=
  let hm := t.table (hashFlow s)
  if hm.elmCnt > 0 then
    walk t.next (fun f => (t.flows f).socket = s) t.fresh hm.first
  else some none

/-- `f->add_packet(packet, src)`, with what it does to the table. -/
def flowAddPacket (t : FlowHashTable) (f : ℕ) (now : Clock) (packet : PacketT) (src : Bool) :
    Option FlowHashTable :=
  let r := (t.flows f).addPacket now packet src
  let t := { t with
    flows := update t.flows f r.flow
    freed := if r.freed then t.freed ++ [packet.addr] else t.freed }
  match r.verdict with
  | .keep => some t
  | .drop => (t.remove f).map fun t => { t with deleted := t.deleted ++ [f] }
  | .finish => (t.remove f).map fun t => { t with fq := t.fq ++ [f] }

/-- `FlowHashTable::add_packet`; a new flow is built in the memory `mem`. -/
def addPacket (t : FlowHashTable) (mem : Flow) (now : Clock) (packet : PacketT) :
    Option FlowHashTable := do
  match ← t.find packet.socket.flip with
  | some f => t.flowAddPacket f now packet false
  | none =>
      match ← t.find packet.socket with
      | some f => t.flowAddPacket f now packet true
      | none =>
          if packet.type = REQ then
            let (t, f) ← t.create mem packet.socket
            t.flowAddPacket f now packet true
          else if packet.type = RSP then
            let (t, f) ← t.create mem packet.socket.flip
            t.flowAddPacket f now packet false
          else
            some { t with freed := t.freed ++ [packet.addr] }

/-- The flows in bucket `i`, from first to last. -/
def bucket (t : FlowHashTable) (i : ℕ) : List ℕ := follow t.next t.fresh (t.table i).first

/-- No bucket has so many flows that its counter is negative. -/
def Roomy (t : FlowHashTable) : Prop := ∀ i, (t.bucket i).length < 2 ^ 31

/-- The pointers of the table and of its flows. -/
def links (t : FlowHashTable) : Buckets ℕ ℕ where
  first := HashMb.first ∘ t.table
  last := HashMb.last ∘ t.table
  next := t.next
  prev := t.prev

end FlowHashTable

theorem hashFlow_lt (s : FlowS) : hashFlow s < HASH_SIZE :=
  Nat.mod_lt _ (by decide)

/-! ## The shape of the pointers -/

/-- The pointers of bucket `i` are those of the list `chain i`. -/
structure Shape (t : FlowHashTable) (chain : ℕ → List ℕ) : Prop where
  segment : ∀ i, Segment t.next t.prev none (chain i) none
  first_eq : ∀ i, (t.table i).first = (chain i).head?
  last_eq : ∀ i, (t.table i).last = (chain i).getLast?
  elmCnt_eq : ∀ i, (t.table i).elmCnt = Int32.ofNat (chain i).length
  length_le_word : ∀ i, (chain i).length ≤ 2 ^ 32
  nodup : ∀ i, (chain i).Nodup
  hmb_eq : ∀ i, ∀ f ∈ chain i, t.hmb f = i
  socket_hash : ∀ i, ∀ f ∈ chain i, hashFlow (t.flows f).socket = i
  lt_fresh : ∀ i, ∀ f ∈ chain i, f < t.fresh

namespace Shape

variable {t t' : FlowHashTable} {chain : ℕ → List ℕ}

theorem new : Shape FlowHashTable.new fun _ => [] where
  segment _ := trivial
  first_eq _ := rfl
  last_eq _ := rfl
  elmCnt_eq _ := rfl
  length_le_word _ := Nat.zero_le _
  nodup _ := List.nodup_nil
  hmb_eq i f hf := by simp at hf
  socket_hash i f hf := by simp at hf
  lt_fresh i f hf := by simp at hf

/-- A flow is in one bucket only. -/
theorem bucket_unique (h : Shape t chain) {i j f : ℕ} (hi : f ∈ chain i)
    (hj : f ∈ chain j) : i = j :=
  (h.hmb_eq i f hi).symm.trans (h.hmb_eq j f hj)

theorem linked (h : Shape t chain) : t.links.Linked chain :=
  ⟨h.segment, h.first_eq, h.last_eq, h.nodup, fun _ _ _ => h.bucket_unique⟩

/-- A bucket has no more flows than were ever created. -/
theorem length_le (h : Shape t chain) (i : ℕ) : (chain i).length ≤ t.fresh := by
  have hsub : chain i ⊆ List.range t.fresh := fun f hf => List.mem_range.mpr (h.lt_fresh i f hf)
  simpa using (List.subperm_of_subset (h.nodup i) hsub).length_le

theorem bucket_eq (h : Shape t chain) (i : ℕ) : t.bucket i = chain i := by
  unfold FlowHashTable.bucket
  rw [h.first_eq]
  exact (h.segment i).follow_eq (h.length_le i)

/-- A linked flow is in one of the buckets. -/
theorem lt_hashSize (h : Shape t chain) {i f : ℕ} (hf : f ∈ chain i) : i < HASH_SIZE := by
  rw [← h.socket_hash i f hf]
  exact hashFlow_lt _

theorem roomy_iff (h : Shape t chain) : t.Roomy ↔ ∀ i, (chain i).length < 2 ^ 31 := by
  simp only [FlowHashTable.Roomy, h.bucket_eq]

/-- A table with fewer flows than a counter can count has room. -/
theorem roomy_of_fresh (h : Shape t chain) (hfresh : t.fresh < 2 ^ 31) : t.Roomy :=
  h.roomy_iff.mpr fun i => Nat.lt_of_le_of_lt (h.length_le i) hfresh

/-- `find` answers the first flow of the bucket with the socket, unless the counter of the
bucket is negative. -/
theorem find_eq (h : Shape t chain) (s : FlowS) :
    t.find s = some (if (chain (hashFlow s)).length < 2 ^ 31 then
      (chain (hashFlow s)).find? fun f => (t.flows f).socket = s else none) := by
  have hpos : (t.table (hashFlow s)).elmCnt > 0 ↔
      0 < (chain (hashFlow s)).length ∧ (chain (hashFlow s)).length < 2 ^ 31 := by
    rw [h.elmCnt_eq]
    exact ofNat_pos_iff (h.length_le_word _)
  unfold FlowHashTable.find
  dsimp only
  by_cases hcnt : (t.table (hashFlow s)).elmCnt > 0
  · rw [if_pos hcnt, if_pos (hpos.mp hcnt).2, h.first_eq]
    exact (h.segment _).walk_eq _ (h.length_le _)
  · rw [if_neg hcnt]
    split
    · next hlt =>
        have hempty : chain (hashFlow s) = [] := by
          rw [← List.length_eq_zero_iff]
          by_contra hne
          exact hcnt (hpos.mpr ⟨Nat.pos_of_ne_zero hne, hlt⟩)
        rw [hempty]
        rfl
    · rfl

/-- In a table with room `find` answers the first flow of the bucket with the socket. -/
theorem find_of_roomy (h : Shape t chain) (hroomy : t.Roomy) (s : FlowS) :
    t.find s = some ((chain (hashFlow s)).find? fun f => (t.flows f).socket = s) := by
  rw [h.find_eq, if_pos (h.roomy_iff.mp hroomy _)]

/-- What `find` answers is linked in the bucket, and has the socket. -/
theorem find_mem (h : Shape t chain) {s : FlowS} {f : ℕ} (hfind : t.find s = some (some f)) :
    f ∈ chain (hashFlow s) ∧ (t.flows f).socket = s := by
  rw [h.find_eq, Option.some.injEq] at hfind
  split at hfind
  · exact ⟨List.mem_of_find?_eq_some hfind, by simpa using List.find?_some hfind⟩
  · cases hfind

/-- Writing a flow object leaves the shape, if the flow keeps its socket or is not
linked. -/
theorem setFlow (h : Shape t chain) {f : ℕ} {flow : Flow} {freed : List ℕ}
    (hsocket : ∀ i, f ∈ chain i → flow.socket = (t.flows f).socket) :
    Shape { t with flows := update t.flows f flow, freed := freed } chain where
  segment := h.segment
  first_eq := h.first_eq
  last_eq := h.last_eq
  elmCnt_eq := h.elmCnt_eq
  length_le_word := h.length_le_word
  nodup := h.nodup
  hmb_eq := h.hmb_eq
  socket_hash i g hg := by
    show hashFlow (update t.flows f flow g).socket = i
    by_cases hgf : g = f
    · subst hgf
      rw [update_self, hsocket i hg]
      exact h.socket_hash i g hg
    · rw [update_of_ne hgf]
      exact h.socket_hash i g hg
  lt_fresh := h.lt_fresh

/-- The queue and the logs are no part of the shape. -/
theorem logs (h : Shape t chain) (fq deleted freed : List ℕ) :
    Shape { t with fq := fq, deleted := deleted, freed := freed } chain :=
  ⟨h.segment, h.first_eq, h.last_eq, h.elmCnt_eq, h.length_le_word, h.nodup, h.hmb_eq,
    h.socket_hash, h.lt_fresh⟩

/-- An operation that makes the links of bucket `i` those of the list `l`. -/
theorem relinked (h : Shape t chain) {i : ℕ} {l : List ℕ}
    (hlinked : t'.links.Linked (update chain i l)) {hm : HashMb}
    (htable : t'.table = update t.table i hm) (hcnt : hm.elmCnt = Int32.ofNat l.length)
    (hlen : l.length ≤ 2 ^ 32)
    (hmb : ∀ j, ∀ f ∈ update chain i l j, t'.hmb f = j)
    (hsocket : ∀ j, ∀ f ∈ update chain i l j, hashFlow (t'.flows f).socket = j)
    (hfresh : ∀ j, ∀ f ∈ update chain i l j, f < t'.fresh) :
    Shape t' (update chain i l) where
  segment := hlinked.segment
  first_eq := hlinked.first_eq
  last_eq := hlinked.last_eq
  elmCnt_eq := by
    intro j
    rw [htable]
    by_cases hj : j = i
    · subst hj
      rw [update_self, update_self, hcnt]
    · rw [update_of_ne hj, update_of_ne hj, h.elmCnt_eq j]
  length_le_word := by
    intro j
    by_cases hj : j = i
    · subst hj
      rwa [update_self]
    · rw [update_of_ne hj]
      exact h.length_le_word j
  nodup := hlinked.nodup
  hmb_eq := hmb
  socket_hash := hsocket
  lt_fresh := hfresh

/-! ### `create` -/

/-- The table after `create`, with the pointers of its bucket given. -/
def created (t : FlowHashTable) (mem : Flow) (s : FlowS) (next prev : ℕ → Option ℕ)
    (first : Option ℕ) : FlowHashTable :=
  { t with
    flows := update t.flows t.fresh (Flow.new mem s)
    fresh := t.fresh + 1
    next := next
    prev := prev
    hmb := update t.hmb t.fresh (hashFlow s)
    table := update t.table (hashFlow s)
      { first := first, last := some t.fresh, elmCnt := (t.table (hashFlow s)).elmCnt + 1 }
    flowCnt := t.flowCnt + 1 }

theorem links_created (mem : Flow) (s : FlowS) (next prev : ℕ → Option ℕ) (first : Option ℕ) :
    (created t mem s next prev first).links =
      { first := update t.links.first (hashFlow s) first
        last := update t.links.last (hashFlow s) (some t.fresh)
        next := next
        prev := prev } := by
  unfold FlowHashTable.links created
  dsimp only
  rw [comp_update, comp_update]

/-- `create` hangs the new flow behind the last one of its bucket. -/
theorem create_hang {b : Buckets ℕ ℕ} (mem : Flow) (s : FlowS)
    (hhang : t.links.hang (hashFlow s) t.fresh ((t.table (hashFlow s)).elmCnt = 0) = some b) :
    t.create mem s = some (created t mem s b.next b.prev (b.first (hashFlow s)), t.fresh) ∧
      (created t mem s b.next b.prev (b.first (hashFlow s))).links = b := by
  rw [links_created]
  unfold Buckets.hang at hhang
  unfold FlowHashTable.create
  dsimp only [FlowHashTable.newFlow]
  by_cases hzero : (t.table (hashFlow s)).elmCnt = 0
  · rw [decide_eq_true hzero, if_pos rfl] at hhang
    obtain rfl := Option.some.inj hhang
    rw [if_pos hzero]
    dsimp only
    rw [update_self]
    exact ⟨rfl, rfl⟩
  · rw [decide_eq_false hzero, if_neg Bool.false_ne_true] at hhang
    rw [if_neg hzero]
    cases hlast : (t.table (hashFlow s)).last with
    | none =>
        have hnone : t.links.last (hashFlow s) = none := hlast
        simp [hnone] at hhang
    | some l =>
        have hsome : t.links.last (hashFlow s) = some l := hlast
        rw [hsome] at hhang
        obtain rfl := Option.some.inj hhang
        dsimp only
        rw [update_eq_self]
        exact ⟨rfl, rfl⟩

/-- The new flow is in no list yet. -/
theorem ne_fresh (h : Shape t chain) {j f : ℕ} (hf : f ∈ chain j) : f ≠ t.fresh :=
  Nat.ne_of_lt (h.lt_fresh j f hf)

/-- The flows that the new one is hung behind: those of its bucket, unless they are so many
that the counter of the bucket is 0. -/
def kept (t : FlowHashTable) (chain : ℕ → List ℕ) (s : FlowS) : List ℕ :=
  if (t.table (hashFlow s)).elmCnt = 0 then [] else chain (hashFlow s)

theorem mem_of_kept {s : FlowS} {f : ℕ} (hf : f ∈ kept t chain s) : f ∈ chain (hashFlow s) := by
  unfold kept at hf
  split at hf
  · cases hf
  · exact hf

/-- The counter of the bucket counts the flows that are kept. -/
theorem elmCnt_kept (h : Shape t chain) (s : FlowS) :
    (t.table (hashFlow s)).elmCnt = Int32.ofNat (kept t chain s).length := by
  unfold kept
  split
  · next hzero => rw [hzero]; rfl
  · exact h.elmCnt_eq _

theorem length_kept_lt (h : Shape t chain) (s : FlowS) : (kept t chain s).length < 2 ^ 32 := by
  unfold kept
  split
  · decide
  · next hcnt =>
      have hne : (chain (hashFlow s)).length ≠ 2 ^ 32 := by
        intro heq
        exact hcnt (by rw [h.elmCnt_eq, heq]; rfl)
      have hle := h.length_le_word (hashFlow s)
      omega

/-- In a table with room all flows are kept. -/
theorem kept_of_roomy (h : Shape t chain) (hroomy : t.Roomy) (s : FlowS) :
    kept t chain s = chain (hashFlow s) := by
  unfold kept
  split
  · next hzero =>
      have hlt := h.roomy_iff.mp hroomy (hashFlow s)
      rw [h.elmCnt_eq, ofNat_eq_zero_iff (h.length_le_word _)] at hzero
      have hempty : (chain (hashFlow s)).length = 0 := by omega
      rw [List.length_eq_zero_iff.mp hempty]
  · rfl

/-- The shape of a table whose bucket got the new flow as its last. -/
theorem shape_created (h : Shape t chain) (mem : Flow) (s : FlowS) {next prev : ℕ → Option ℕ}
    {first : Option ℕ}
    (hlinked : (created t mem s next prev first).links.Linked
      (update chain (hashFlow s) (kept t chain s ++ [t.fresh]))) :
    Shape (created t mem s next prev first)
      (update chain (hashFlow s) (kept t chain s ++ [t.fresh])) := by
  have hmem : ∀ j, ∀ f ∈ update chain (hashFlow s) (kept t chain s ++ [t.fresh]) j,
      f ∈ chain j ∨ (f = t.fresh ∧ j = hashFlow s) := fun j f hf =>
    Buckets.Linked.mem_hung_behind (fun _ => mem_of_kept) hf
  apply h.relinked hlinked rfl
  · dsimp only
    rw [h.elmCnt_kept, List.length_append, List.length_singleton, ofNat_succ]
  · rw [List.length_append, List.length_singleton]
    exact h.length_kept_lt s
  · intro j f hf
    show update t.hmb t.fresh (hashFlow s) f = j
    rcases hmem j f hf with hf | ⟨rfl, rfl⟩
    · rw [update_of_ne (h.ne_fresh hf), h.hmb_eq j f hf]
    · rw [update_self]
  · intro j f hf
    show hashFlow (update t.flows t.fresh (Flow.new mem s) f).socket = j
    rcases hmem j f hf with hf | ⟨rfl, rfl⟩
    · rw [update_of_ne (h.ne_fresh hf)]
      exact h.socket_hash j f hf
    · rw [update_self]
      rfl
  · intro j f hf
    rcases hmem j f hf with hf | ⟨rfl, -⟩
    · exact Nat.lt_succ_of_lt (h.lt_fresh j f hf)
    · exact Nat.lt_succ_self _

/-- `create` puts the new flow at the end of its bucket. -/
theorem create_eq (h : Shape t chain) (mem : Flow) (s : FlowS) :
    ∃ next prev first, t.create mem s = some (created t mem s next prev first, t.fresh) ∧
      Shape (created t mem s next prev first)
        (update chain (hashFlow s) (kept t chain s ++ [t.fresh])) := by
  have hempty : decide ((t.table (hashFlow s)).elmCnt = 0) = false → chain (hashFlow s) ≠ [] := by
    rw [decide_eq_false_iff_not]
    intro hcnt hnil
    exact hcnt (by rw [h.elmCnt_eq, hnil]; rfl)
  obtain ⟨b, hhang, hlinked⟩ :=
    h.linked.hang_eq (hashFlow s) (fun j hj => h.ne_fresh hj rfl) hempty
  simp only [decide_eq_true_eq] at hlinked
  obtain ⟨hcreate, hlinks⟩ := create_hang mem s hhang
  exact ⟨_, _, _, hcreate, h.shape_created mem s (hlinks.symm ▸ hlinked)⟩

/-! ### `remove` -/

/-- The table after `remove` of the flow between `xs` and `ys`. -/
def removed (t : FlowHashTable) (f : ℕ) (xs ys : List ℕ) : FlowHashTable :=
  { t with
    next := update (retie t.next xs.getLast? ys.head?) f none
    prev := update (retie t.prev ys.head? xs.getLast?) f none
    table := update t.table (t.hmb f)
      { first := (xs ++ ys).head?
        last := (xs ++ ys).getLast?
        elmCnt := (t.table (t.hmb f)).elmCnt - 1 }
    flowCnt := t.flowCnt - 1 }

/-- `remove` takes the flow out of the links of its bucket. -/
theorem remove_unhang {f : ℕ} {b : Buckets ℕ ℕ}
    (hunhang : t.links.unhang (t.hmb f) f ((t.table (t.hmb f)).elmCnt = 1 ∧
      some f = (t.table (t.hmb f)).first) = some b) :
    t.remove f = some
      { t with
        next := b.next
        prev := b.prev
        table := update t.table (t.hmb f)
          { first := b.first (t.hmb f)
            last := b.last (t.hmb f)
            elmCnt := (t.table (t.hmb f)).elmCnt - 1 }
        flowCnt := t.flowCnt - 1 } := by
  unfold Buckets.unhang at hunhang
  unfold FlowHashTable.remove
  dsimp only
  by_cases honly : (t.table (t.hmb f)).elmCnt = 1 ∧ some f = (t.table (t.hmb f)).first
  · rw [decide_eq_true honly, if_pos rfl] at hunhang
    obtain rfl := Option.some.inj hunhang
    rw [if_pos honly]
    dsimp only
    rw [update_self, update_self]
    rfl
  · rw [decide_eq_false honly, if_neg Bool.false_ne_true] at hunhang
    rw [if_neg honly]
    have hprev : t.links.prev f = t.prev f := rfl
    have hnext : t.links.next f = t.next f := rfl
    rw [hprev, hnext] at hunhang
    cases hp : t.prev f with
    | none =>
        cases hn : t.next f with
        | none => simp [hp, hn] at hunhang
        | some n =>
            rw [hp, hn] at hunhang
            obtain rfl := Option.some.inj hunhang
            dsimp only
            rw [update_self]
            rfl
    | some p =>
        cases hn : t.next f with
        | none =>
            rw [hp, hn] at hunhang
            obtain rfl := Option.some.inj hunhang
            dsimp only
            rw [update_self]
            rfl
        | some n =>
            rw [hp, hn] at hunhang
            obtain rfl := Option.some.inj hunhang
            rfl

/-- `remove` of a linked flow has a result. -/
theorem remove_linked (h : Shape t chain) {i f : ℕ} {xs ys : List ℕ}
    (hsplit : chain i = xs ++ f :: ys) : t.remove f = some (removed t f xs ys) := by
  have hmb := h.hmb_eq i f (by simp [hsplit])
  subst hmb
  have honly : decide ((t.table (t.hmb f)).elmCnt = 1 ∧
      some f = (t.table (t.hmb f)).first) = true ↔ xs = [] ∧ ys = [] := by
    have hone : (t.table (t.hmb f)).elmCnt = 1 ↔ (chain (t.hmb f)).length = 1 := by
      rw [h.elmCnt_eq]
      exact ofNat_eq_one_iff (h.length_le_word _)
    rw [decide_eq_true_iff, hone]
    exact h.linked.only_iff hsplit
  rw [remove_unhang (h.linked.unhang_links hsplit honly)]
  simp only [update_self]
  rfl

/-- A bucket without one of its flows is still a bucket. -/
theorem shape_removed (h : Shape t chain) {i f : ℕ} {xs ys : List ℕ}
    (hsplit : chain i = xs ++ f :: ys) :
    Shape (removed t f xs ys) (update chain i (xs ++ ys)) := by
  have hmb := h.hmb_eq i f (by simp [hsplit])
  have hmem : ∀ j, ∀ g ∈ update chain i (xs ++ ys) j, g ∈ chain j := fun j g hg =>
    ((h.linked.mem_unhung hsplit).mp hg).1
  have hlinks : (removed t f xs ys).links =
      { first := update t.links.first i (xs ++ ys).head?
        last := update t.links.last i (xs ++ ys).getLast?
        next := update (retie t.next xs.getLast? ys.head?) f none
        prev := update (retie t.prev ys.head? xs.getLast?) f none } := by
    subst hmb
    unfold FlowHashTable.links removed
    dsimp only
    rw [comp_update, comp_update]
  apply h.relinked
  · rw [hlinks]
    exact h.linked.unhung hsplit
  · show update t.table (t.hmb f) _ = update t.table i _
    rw [hmb]
  · dsimp only
    rw [h.elmCnt_eq, hsplit, List.length_append, List.length_append, List.length_cons,
      ← Nat.add_assoc, ofNat_succ, Int32.add_sub_cancel]
  · have hle := h.length_le_word i
    rw [hsplit, List.length_append, List.length_cons] at hle
    rw [List.length_append]
    omega
  · exact fun j g hg => h.hmb_eq j g (hmem j g hg)
  · exact fun j g hg => h.socket_hash j g (hmem j g hg)
  · exact fun j g hg => h.lt_fresh j g (hmem j g hg)

/-! ### The counter of all flows -/

end Shape

/-- `flow_cnt` is the sum of the buckets' counters, as a number of 32 bits. -/
def FlowHashTable.Counted (t : FlowHashTable) : Prop :=
  t.flowCnt = Int32.ofInt (∑ i ∈ Finset.range HASH_SIZE, (t.table i).elmCnt.toInt)

theorem FlowHashTable.counted_new : Counted .new := by
  simp [Counted, new]

/-- Overwriting a bucket changes the sum by what it changes the bucket's counter. -/
theorem sum_elmCnt_update (table : ℕ → HashMb) {i : ℕ} (hi : i < HASH_SIZE) (hm : HashMb) :
    Int32.ofInt (∑ j ∈ Finset.range HASH_SIZE, (update table i hm j).elmCnt.toInt) =
      Int32.ofInt (∑ j ∈ Finset.range HASH_SIZE, (table j).elmCnt.toInt) +
        (hm.elmCnt - (table i).elmCnt) := by
  have hmem : i ∈ Finset.range HASH_SIZE := Finset.mem_range.mpr hi
  have hrest : ∑ j ∈ (Finset.range HASH_SIZE).erase i, (update table i hm j).elmCnt.toInt =
      ∑ j ∈ (Finset.range HASH_SIZE).erase i, (table j).elmCnt.toInt := by
    apply Finset.sum_congr rfl
    intro j hj
    rw [update_of_ne (Finset.ne_of_mem_erase hj)]
  rw [← Finset.add_sum_erase _ _ hmem,
    ← Finset.add_sum_erase _ (fun j => (table j).elmCnt.toInt) hmem, hrest, update_self,
    Int32.ofInt_add, Int32.ofInt_add, Int32.ofInt_toInt, Int32.ofInt_toInt]
  grind

namespace Shape

variable {t t' : FlowHashTable} {chain : ℕ → List ℕ}

theorem counted_created (hc : t.Counted) (mem : Flow) (s : FlowS) (next prev : ℕ → Option ℕ)
    (first : Option ℕ) : (created t mem s next prev first).Counted := by
  unfold FlowHashTable.Counted at hc ⊢
  show t.flowCnt + 1 =
    Int32.ofInt (∑ j ∈ Finset.range HASH_SIZE, (update t.table (hashFlow s) _ j).elmCnt.toInt)
  rw [sum_elmCnt_update t.table (hashFlow_lt s), hc]
  dsimp only
  grind

theorem counted_removed (h : Shape t chain) (hc : t.Counted) {i f : ℕ} (hf : f ∈ chain i)
    (xs ys : List ℕ) : (removed t f xs ys).Counted := by
  have hlt : t.hmb f < HASH_SIZE := by
    rw [h.hmb_eq i f hf]
    exact h.lt_hashSize hf
  unfold FlowHashTable.Counted at hc ⊢
  show t.flowCnt - 1 =
    Int32.ofInt (∑ j ∈ Finset.range HASH_SIZE, (update t.table (t.hmb f) _ j).elmCnt.toInt)
  rw [sum_elmCnt_update t.table hlt, hc]
  dsimp only
  grind

/-! ### What the operations leave -/

/-- `remove` takes a linked flow out of its bucket and touches no flow. -/
theorem remove_eq (h : Shape t chain) {i f : ℕ} (hf : f ∈ chain i) :
    ∃ t' chain', t.remove f = some t' ∧ Shape t' chain' ∧
      (∀ j g, g ∈ chain' j ↔ g ∈ chain j ∧ g ≠ f) ∧
      t'.flows = t.flows ∧ t'.fq = t.fq ∧ t'.fresh = t.fresh ∧ t'.deleted = t.deleted ∧
      t'.freed = t.freed ∧ (t.Counted → t'.Counted) := by
  obtain ⟨xs, ys, hsplit⟩ := List.append_of_mem hf
  exact ⟨_, _, h.remove_linked hsplit, h.shape_removed hsplit,
    fun _ _ => h.linked.mem_unhung hsplit, rfl, rfl, rfl, rfl, rfl,
    fun hc => h.counted_removed hc hf xs ys⟩

/-- What `Flow::add_packet` on flow `f`, with the result `r`, leaves of the table. -/
structure Added (t t' : FlowHashTable) (chain chain' : ℕ → List ℕ) (f : ℕ) (r : AddResult)
    (packet : PacketT) : Prop where
  shape : Shape t' chain'
  mem_iff : ∀ j g, g ∈ chain' j ↔ g ∈ chain j ∧ g ∉ if r.verdict = .keep then [] else [f]
  flows_eq : t'.flows = update t.flows f r.flow
  fq_eq : t'.fq = t.fq ++ if r.verdict = .finish then [f] else []
  deleted_eq : t'.deleted = t.deleted ++ if r.verdict = .drop then [f] else []
  freed_eq : t'.freed = t.freed ++ if r.freed then [packet.addr] else []
  fresh_eq : t'.fresh = t.fresh
  counted : t.Counted → t'.Counted

/-- Only the flow that took the packet may have left its bucket. -/
theorem Added.mem_chain_iff {chain' : ℕ → List ℕ} {f : ℕ} {r : AddResult} {packet : PacketT}
    (h : Added t t' chain chain' f r packet) (j g : ℕ) :
    g ∈ chain' j ↔ g ∈ chain j ∧ (g = f → r.verdict = .keep) := by
  rw [h.mem_iff]
  by_cases hv : r.verdict = .keep <;> simp [hv]

/-- It is on the queue if the packet finished it. -/
theorem Added.mem_fq_iff {chain' : ℕ → List ℕ} {f : ℕ} {r : AddResult} {packet : PacketT}
    (h : Added t t' chain chain' f r packet) (g : ℕ) :
    g ∈ t'.fq ↔ g ∈ t.fq ∨ (g = f ∧ r.verdict = .finish) := by
  rw [h.fq_eq, List.mem_append]
  by_cases hv : r.verdict = .finish <;> simp [hv]

/-- It is deleted if the packet dropped it. -/
theorem Added.mem_deleted_iff {chain' : ℕ → List ℕ} {f : ℕ} {r : AddResult} {packet : PacketT}
    (h : Added t t' chain chain' f r packet) (g : ℕ) :
    g ∈ t'.deleted ↔ g ∈ t.deleted ∨ (g = f ∧ r.verdict = .drop) := by
  rw [h.deleted_eq, List.mem_append]
  by_cases hv : r.verdict = .drop <;> simp [hv]

/-- `Flow::add_packet` on a linked flow takes it out unless it keeps it. -/
theorem flowAddPacket_eq (h : Shape t chain) {i f : ℕ} (hf : f ∈ chain i) (now : Clock)
    (packet : PacketT) (src : Bool) :
    ∃ t' chain', t.flowAddPacket f now packet src = some t' ∧
      Added t t' chain chain' f ((t.flows f).addPacket now packet src) packet := by
  have hsocket := (Flow.addPacket_pairs (t.flows f) now packet src).2.2.1
  unfold FlowHashTable.flowAddPacket
  dsimp only
  generalize hr : (t.flows f).addPacket now packet src = r at hsocket ⊢
  have hfreed : (if r.freed then t.freed ++ [packet.addr] else t.freed) =
      t.freed ++ if r.freed then [packet.addr] else [] := by
    split <;> simp
  rw [hfreed]
  have hwrite : Shape { t with
      flows := update t.flows f r.flow
      freed := t.freed ++ if r.freed then [packet.addr] else [] } chain :=
    h.setFlow fun _ _ => hsocket
  obtain ⟨t', chain', hrem, hshape, hmem, hflows, hfq, hfresh, hdeleted, hfreed', hcounted⟩ :=
    hwrite.remove_eq hf
  cases hv : r.verdict with
  | keep =>
      refine ⟨_, chain, rfl, ?_⟩
      exact
        { shape := hwrite
          mem_iff := by simp [hv]
          flows_eq := rfl
          fq_eq := by simp [hv]
          deleted_eq := by simp [hv]
          freed_eq := rfl
          fresh_eq := rfl
          counted := id }
  | drop =>
      refine ⟨{ t' with deleted := t'.deleted ++ [f] }, chain', by rw [hrem]; rfl, ?_⟩
      exact
        { shape := hshape.logs t'.fq (t'.deleted ++ [f]) t'.freed
          mem_iff := by simpa [hv] using hmem
          flows_eq := hflows
          fq_eq := by simpa [hv] using hfq
          deleted_eq := by simp [hv, hdeleted]
          freed_eq := hfreed'
          fresh_eq := hfresh
          counted := hcounted }
  | finish =>
      refine ⟨{ t' with fq := t'.fq ++ [f] }, chain', by rw [hrem]; rfl, ?_⟩
      exact
        { shape := hshape.logs (t'.fq ++ [f]) t'.deleted t'.freed
          mem_iff := by simpa [hv] using hmem
          flows_eq := hflows
          fq_eq := by simp [hv, hfq]
          deleted_eq := by simpa [hv] using hdeleted
          freed_eq := hfreed'
          fresh_eq := hfresh
          counted := hcounted }

/-- What `create` leaves of the table: the new flow at the end of its bucket, behind all
those that were there if the table has room. -/
structure Created (t t' : FlowHashTable) (chain chain' : ℕ → List ℕ) (mem : Flow) (s : FlowS) :
    Prop where
  shape : Shape t' chain'
  linked : t.fresh ∈ chain' (hashFlow s)
  mem_chain : ∀ j g, g ∈ chain' j → g ∈ chain j ∨ (g = t.fresh ∧ j = hashFlow s)
  mem_iff : t.Roomy → ∀ j g, g ∈ chain' j ↔ g ∈ chain j ∨ (g = t.fresh ∧ j = hashFlow s)
  flows_eq : t'.flows = update t.flows t.fresh (Flow.new mem s)
  fq_eq : t'.fq = t.fq
  deleted_eq : t'.deleted = t.deleted
  freed_eq : t'.freed = t.freed
  fresh_eq : t'.fresh = t.fresh + 1
  counted : t.Counted → t'.Counted

theorem create_created (h : Shape t chain) (mem : Flow) (s : FlowS) :
    ∃ t' chain', t.create mem s = some (t', t.fresh) ∧ Created t t' chain chain' mem s := by
  obtain ⟨next, prev, first, hcreate, hshape⟩ := h.create_eq mem s
  refine ⟨_, update chain (hashFlow s) (kept t chain s ++ [t.fresh]), hcreate, ?_⟩
  exact
    { shape := hshape
      linked := by simp
      mem_chain := fun _ _ => Buckets.Linked.mem_hung_behind fun _ => mem_of_kept
      mem_iff := by
        intro hroomy j g
        rw [h.kept_of_roomy hroomy]
        exact Buckets.Linked.mem_hung
      flows_eq := rfl
      fq_eq := rfl
      deleted_eq := rfl
      freed_eq := rfl
      fresh_eq := rfl
      counted := fun hc => counted_created hc mem s next prev first }

/-- No linked flow has the packet's socket in either direction. -/
def NoFlow (t : FlowHashTable) (chain : ℕ → List ℕ) (packet : PacketT) : Prop :=
  ∀ i, ∀ f ∈ chain i, (t.flows f).socket ≠ packet.socket ∧
    (t.flows f).socket ≠ packet.socket.flip

/-- `find` answers a linked flow with the socket, or there is none in a table with room. -/
theorem find_cases (h : Shape t chain) (s : FlowS) :
    (∃ f ∈ chain (hashFlow s), t.find s = some (some f) ∧ (t.flows f).socket = s) ∨
      (t.find s = some none ∧ (t.Roomy → ∀ i, ∀ f ∈ chain i, (t.flows f).socket ≠ s)) := by
  obtain ⟨found, hfind⟩ : ∃ found, t.find s = some found := ⟨_, h.find_eq s⟩
  cases found with
  | some f =>
      obtain ⟨hf, hsocket⟩ := h.find_mem hfind
      exact .inl ⟨f, hf, hfind, hsocket⟩
  | none =>
      refine .inr ⟨hfind, fun hroomy i f hf hsocket => ?_⟩
      rw [h.find_of_roomy hroomy, Option.some.injEq] at hfind
      have hi : hashFlow s = i := by
        rw [← hsocket]
        exact h.socket_hash i f hf
      have hnot := List.find?_eq_none.mp hfind f (hi ▸ hf)
      simp [hsocket] at hnot

/-- `add_packet` where `find` finds no flow of the connection: a request or a response is
handed to a flow that it creates, any other packet is freed. -/
theorem addPacket_of_missed (h : Shape t chain) {packet : PacketT}
    (hrev : t.find packet.socket.flip = some none) (hfwd : t.find packet.socket = some none)
    (mem : Flow) (now : Clock) :
    (∃ src t₁ chain₁ t' chain', packet.type = (if src then REQ else RSP) ∧
      Created t t₁ chain chain₁ mem (packet.flowSocket src) ∧
      t.addPacket mem now packet = some t' ∧
      Added t₁ t' chain₁ chain' t.fresh
        ((Flow.new mem (packet.flowSocket src)).addPacket now packet src) packet) ∨
    (packet.type ≠ REQ ∧ packet.type ≠ RSP ∧
      t.addPacket mem now packet = some { t with freed := t.freed ++ [packet.addr] }) := by
  have hcreate : ∀ src, ∃ t₁ chain₁ t' chain',
      Created t t₁ chain chain₁ mem (packet.flowSocket src) ∧
      (t.create mem (packet.flowSocket src)).bind
        (fun (t, f) => t.flowAddPacket f now packet src) = some t' ∧
      Added t₁ t' chain₁ chain' t.fresh
        ((Flow.new mem (packet.flowSocket src)).addPacket now packet src) packet := by
    intro src
    obtain ⟨t₁, chain₁, hcreate, hnew⟩ := h.create_created mem (packet.flowSocket src)
    obtain ⟨t', chain', hadd, hadded⟩ :=
      hnew.shape.flowAddPacket_eq hnew.linked now packet src
    rw [hnew.flows_eq, update_self] at hadded
    exact ⟨t₁, chain₁, t', chain', hnew, by rw [hcreate]; exact hadd, hadded⟩
  unfold FlowHashTable.addPacket
  simp only [hrev, hfwd, Option.bind_eq_bind, Option.bind_some]
  by_cases hreq : packet.type = REQ
  · obtain ⟨t₁, chain₁, t', chain', hnew, hadd, hadded⟩ := hcreate true
    rw [if_pos hreq]
    exact .inl ⟨true, t₁, chain₁, t', chain', hreq, hnew, hadd, hadded⟩
  by_cases hrsp : packet.type = RSP
  · obtain ⟨t₁, chain₁, t', chain', hnew, hadd, hadded⟩ := hcreate false
    rw [if_neg hreq, if_pos hrsp]
    exact .inl ⟨false, t₁, chain₁, t', chain', hrsp, hnew, hadd, hadded⟩
  · rw [if_neg hreq, if_neg hrsp]
    exact .inr ⟨hreq, hrsp, rfl⟩

/-- **What `add_packet` does.**  It hands the packet to a linked flow of the connection;
or, where it finds none, to a flow it creates for a request or a response; or it frees
the packet.  In a table with room it finds the flow of the connection, if there is one. -/
theorem addPacket_cases (h : Shape t chain) (mem : Flow) (now : Clock) (packet : PacketT) :
    (∃ i f src t' chain', f ∈ chain i ∧ (t.flows f).socket = packet.flowSocket src ∧
      t.flowAddPacket f now packet src = some t' ∧ t.addPacket mem now packet = some t' ∧
      Added t t' chain chain' f ((t.flows f).addPacket now packet src) packet) ∨
    ((t.Roomy → NoFlow t chain packet) ∧ ∃ src t₁ chain₁ t' chain',
      packet.type = (if src then REQ else RSP) ∧
      Created t t₁ chain chain₁ mem (packet.flowSocket src) ∧
      t.addPacket mem now packet = some t' ∧
      Added t₁ t' chain₁ chain' t.fresh
        ((Flow.new mem (packet.flowSocket src)).addPacket now packet src) packet) ∨
    ((t.Roomy → NoFlow t chain packet) ∧ packet.type ≠ REQ ∧ packet.type ≠ RSP ∧
      t.addPacket mem now packet = some { t with freed := t.freed ++ [packet.addr] }) := by
  rcases h.find_cases packet.socket.flip with ⟨f, hf, hrev, hsocket⟩ | ⟨hrev, hnorev⟩
  · obtain ⟨t', chain', hadd, hadded⟩ := h.flowAddPacket_eq hf now packet false
    have hall : t.addPacket mem now packet = some t' := by
      unfold FlowHashTable.addPacket
      rw [hrev]
      exact hadd
    exact .inl ⟨_, f, false, t', chain', hf, hsocket, hadd, hall, hadded⟩
  rcases h.find_cases packet.socket with ⟨f, hf, hfwd, hsocket⟩ | ⟨hfwd, hnofwd⟩
  · obtain ⟨t', chain', hadd, hadded⟩ := h.flowAddPacket_eq hf now packet true
    have hall : t.addPacket mem now packet = some t' := by
      unfold FlowHashTable.addPacket
      rw [hrev, hfwd]
      exact hadd
    exact .inl ⟨_, f, true, t', chain', hf, hsocket, hadd, hall, hadded⟩
  have hno : t.Roomy → NoFlow t chain packet := fun hroomy i f hf =>
    ⟨hnofwd hroomy i f hf, hnorev hroomy i f hf⟩
  exact .inr ((h.addPacket_of_missed hrev hfwd mem now).imp (⟨hno, ·⟩) (⟨hno, ·⟩))

/-- `add_packet` keeps the shape, and creates one flow at most. -/
theorem addPacket_eq (h : Shape t chain) (mem : Flow) (now : Clock) (packet : PacketT) :
    ∃ t' chain', t.addPacket mem now packet = some t' ∧ Shape t' chain' ∧
      t'.fresh ≤ t.fresh + 1 ∧ (t.Counted → t'.Counted) := by
  rcases h.addPacket_cases mem now packet with ⟨_, _, _, t', chain', -, -, -, hadd, hadded⟩ |
    ⟨-, _, _, _, t', chain', -, hnew, hadd, hadded⟩ | ⟨-, -, -, hadd⟩
  · exact ⟨t', chain', hadd, hadded.shape, hadded.fresh_eq ▸ Nat.le_succ _, hadded.counted⟩
  · refine ⟨t', chain', hadd, hadded.shape, ?_, fun hc => hadded.counted (hnew.counted hc)⟩
    rw [hadded.fresh_eq, hnew.fresh_eq]
  · exact ⟨_, chain, hadd, h.logs t.fq t.deleted _, Nat.le_succ _, id⟩

end Shape

end MonitoringTool.Sniffer
