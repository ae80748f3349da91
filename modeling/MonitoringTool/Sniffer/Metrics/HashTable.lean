import MonitoringTool.Lib.Counter
import MonitoringTool.Lib.Tally
import Mathlib.Order.Defs.LinearOrder

/-!
# The counting tables of the distributions

`Client`, `ReqPath` and `ReqMethod` count in a `Hash`, a table of `HASH_SIZE` buckets of
linked nodes, `ReqType` and `RspStatus` in a `std::map` from `char*` to `int`.

Every value has one node, in the bucket of its hash: `add_cases` says all that `Hash::add`
can do to the nodes, `increment_cases` the same of `++map[key]`.  From them both tables
keep up with the events that are counted in them (`Hash.tallies_add`,
`StdMap.tallies_increment`).
-/

namespace MonitoringTool.Sniffer

open Lib

/-! ## Values -/

/-- A C string: the bytes before its terminator. -/
structure CString where
  chars : List UInt8
  noNul : 0 ∉ chars
  deriving DecidableEq

/-- `Hashable`, without `compare`: the table looks at its answer only for being 0, which it
is for equal values. -/
class HashableValue (α : Type*) where
  hash : α → UInt32

/-- `Addr2`: an address of a client. -/
structure Addr2 where
  value : UInt32
  deriving DecidableEq

instance : HashableValue Addr2 where
  hash a := a.value

/-- `StringHash`. -/
structure StringHash where
  value : CString
  deriving DecidableEq

/-- A `char` as an `unsigned long`, with its sign. -/
def ulongOfChar (c : UInt8) : UInt64 := c.toInt8.toInt64.toUInt64

/-- `StringHash::hash`. -/
def StringHash.hash (s : StringHash) : UInt32 :=
  (s.value.chars.foldl (fun (h : UInt64) c => ((h <<< 5) + h) + ulongOfChar c) 5381).toUInt32

instance : HashableValue StringHash where
  hash := StringHash.hash

/-! ## The hash table -/

/-- `Node`, of which the table knows the neighbours by its place in the bucket. -/
structure Node (α : Type*) where
  value : α
  cnt : Int32
  deriving DecidableEq

/-- `Hash::size`. -/
def Hash.size : ℕ := 13200

/-- `value->hash() % size`. -/
def Hash.key {α : Type*} [HashableValue α] (value : α) : ℕ :=
  (HashableValue.hash value).toNat % Hash.size

/-- `Hash`: the nodes of each bucket, from `first` to `last`. -/
structure Hash (α : Type*) [HashableValue α] where
  buckets : List (List (Node α))
  length_buckets : buckets.length = Hash.size
  placed : ∀ i b, buckets[i]? = some b → ∀ e ∈ b, Hash.key e.value = i

namespace Hash

variable {α : Type*} [HashableValue α]

theorem key_lt (value : α) : key value < size := Nat.mod_lt _ (by decide)

/-- The constructor. -/
def new : Hash α where
  buckets := List.replicate size []
  length_buckets := List.length_replicate
  placed := by
    intro i b hb e he
    obtain rfl := List.eq_of_mem_replicate (List.mem_of_getElem? hb)
    exact absurd he List.not_mem_nil

/-- The bucket of a value. -/
def bucket (h : Hash α) (value : α) : List (Node α) := (h.buckets[key value]?).getD []

/-- A bucket with other nodes of the same key. -/
def setBucket (h : Hash α) (value : α) (nodes : List (Node α))
    (hnodes : ∀ e ∈ nodes, key e.value = key value) : Hash α where
  buckets := h.buckets.set (key value) nodes
  length_buckets := by rw [List.length_set, h.length_buckets]
  placed := by
    intro i b hb e he
    rw [List.getElem?_set] at hb
    split at hb
    · next hi =>
      split at hb
      · obtain rfl := Option.some.inj hb
        rw [hnodes e he, hi]
      · simp at hb
    · exact h.placed i b hb e he

theorem key_of_mem_bucket (h : Hash α) (value : α) :
    ∀ e ∈ h.bucket value, key e.value = key value := by
  intro e he
  unfold bucket at he
  cases hb : h.buckets[key value]? with
  | none => simp [hb] at he
  | some b => exact h.placed _ b hb e (by simpa [hb] using he)

/-- `Hash::create`: a new node at the end of its bucket. -/
def create (h : Hash α) (value : α) : Hash α :=
  h.setBucket value (h.bucket value ++ [{ value := value, cnt := 1 }]) (by
    intro e he
    rcases List.mem_append.mp he with he | he
    · exact h.key_of_mem_bucket value e he
    · rw [List.mem_singleton.mp he])

/-- `Hash::find`: the place of the value's node in its bucket. -/
def find [DecidableEq α] (h : Hash α) (value : α) : Option ℕ :=
  (h.bucket value).findIdx? fun e => decide (value = e.value)

/-- `e->cnt++`, on the node at a place of the value's bucket. -/
def count (h : Hash α) (value : α) (place : ℕ) : Hash α :=
  h.setBucket value ((h.bucket value).modify place fun e => { e with cnt := e.cnt + 1 }) (by
    intro e he
    obtain ⟨i, hi, rfl⟩ := List.mem_iff_getElem.mp he
    have hi' : i < (h.bucket value).length := by simpa using hi
    have hold := h.key_of_mem_bucket value _ (List.getElem_mem hi')
    rw [List.getElem_modify]
    split
    · exact hold
    · exact hold)

/-- `Hash::add`, with what it returns. -/
def add [DecidableEq α] (h : Hash α) (value : α) : Hash α × ℕ :=
  match h.find value with
  | none => (h.create value, 0)
  | some place => (h.count value place, 1)

/-- All nodes, in the order in which the distributions go over them. -/
def nodes (h : Hash α) : List (Node α) := h.buckets.flatten

/-! ### What `add` does -/

@[simp] theorem nodes_new : (new : Hash α).nodes = [] := by
  unfold nodes new
  exact List.flatten_replicate_nil

/-- The bucket of a value among the nodes; the others hold no node of the value. -/
theorem nodes_split (h : Hash α) (value : α) : ∃ before after,
    h.nodes = before ++ h.bucket value ++ after ∧
    (∀ nodes hnodes, (h.setBucket value nodes hnodes).nodes = before ++ nodes ++ after) ∧
    ∀ e ∈ before ++ after, e.value ≠ value := by
  have hlt : key value < h.buckets.length := h.length_buckets ▸ key_lt value
  have hbucket : h.buckets[key value] = h.bucket value := by
    simp [bucket, List.getElem?_eq_getElem hlt]
  have hdrop : h.buckets.drop (key value) =
      h.bucket value :: h.buckets.drop (key value + 1) := by
    rw [List.drop_eq_getElem_cons hlt, hbucket]
  refine ⟨(h.buckets.take (key value)).flatten, (h.buckets.drop (key value + 1)).flatten, ?_, ?_,
    ?_⟩
  · unfold nodes
    conv_lhs => rw [← List.take_append_drop (key value) h.buckets, hdrop]
    rw [List.flatten_append, List.flatten_cons, List.append_assoc]
  · intro nodes hnodes
    show (h.buckets.set (key value) nodes).flatten = _
    rw [List.set_eq_take_append_cons_drop, if_pos hlt, List.flatten_append, List.flatten_cons,
      List.append_assoc]
  · intro e he hvalue
    have hother : ∃ i b, i ≠ key value ∧ h.buckets[i]? = some b ∧ e ∈ b := by
      rcases List.mem_append.mp he with he | he
      · obtain ⟨b, hb, heb⟩ := List.mem_flatten.mp he
        obtain ⟨i, hi, rfl⟩ := List.mem_take_iff_getElem.mp hb
        exact ⟨i, _, by omega, List.getElem?_eq_getElem (by omega), heb⟩
      · obtain ⟨b, hb, heb⟩ := List.mem_flatten.mp he
        obtain ⟨i, hi, rfl⟩ := List.mem_drop_iff_getElem.mp hb
        exact ⟨key value + 1 + i, _, by omega, List.getElem?_eq_getElem (by omega), heb⟩
    obtain ⟨i, b, hne, hb, heb⟩ := hother
    have hplaced := h.placed i b hb e heb
    rw [hvalue] at hplaced
    exact hne hplaced.symm

/-- **What `add` does**: it counts in the node of the value, or makes one if there is none. -/
theorem add_cases [DecidableEq α] (h : Hash α) (value : α) :
    (∃ before cnt after, h.nodes = before ++ ⟨value, cnt⟩ :: after ∧
      (h.add value).1.nodes = before ++ ⟨value, cnt + 1⟩ :: after) ∨
    ((∀ e ∈ h.nodes, e.value ≠ value) ∧
      (h.add value).1.nodes.Perm (⟨value, 1⟩ :: h.nodes)) := by
  obtain ⟨before, after, hnodes, hset, hother⟩ := h.nodes_split value
  unfold add
  cases hfind : h.find value with
  | none =>
      right
      have hnone := List.findIdx?_eq_none_iff.mp hfind
      constructor
      · intro e he
        rw [hnodes, List.append_assoc, List.mem_append, List.mem_append] at he
        rcases he with he | he | he
        · exact hother e (List.mem_append_left _ he)
        · exact fun heq => of_decide_eq_false (hnone e he) heq.symm
        · exact hother e (List.mem_append_right _ he)
      · show (h.create value).nodes.Perm _
        rw [create, hset, hnodes, List.append_assoc, List.append_assoc, List.append_assoc,
          List.singleton_append]
        refine (List.Perm.append_left before List.perm_middle).trans ?_
        exact List.perm_middle
  | some place =>
      left
      obtain ⟨hlt, hvalue, -⟩ := List.findIdx?_eq_some_iff_getElem.mp hfind
      have hvalue' : value = ((h.bucket value)[place]).value := of_decide_eq_true hvalue
      have hnode : (h.bucket value)[place] = ⟨value, ((h.bucket value)[place]).cnt⟩ := by
        rw [Node.mk.injEq]
        exact ⟨hvalue'.symm, rfl⟩
      have hsplit : h.bucket value = (h.bucket value).take place ++
          (h.bucket value)[place] :: (h.bucket value).drop (place + 1) := by
        rw [← List.drop_eq_getElem_cons hlt, List.take_append_drop]
      refine ⟨before ++ (h.bucket value).take place, ((h.bucket value)[place]).cnt,
        (h.bucket value).drop (place + 1) ++ after, ?_, ?_⟩
      · rw [hnodes, ← hnode]
        conv_lhs => rw [hsplit]
        simp only [List.append_assoc, List.cons_append]
      · show (h.count value place).nodes = _
        rw [count, hset, List.modify_eq_take_cons_drop hlt]
        simp [← hvalue']

/-- The nodes with their counts. -/
def entries (h : Hash α) : List (α × Int32) := h.nodes.map fun e => (e.value, e.cnt)

/-- A value added is counted. -/
theorem tallies_add [DecidableEq α] {h : Hash α} {events : List (Option α)}
    (ht : Tallies Int32.ofNat h.entries events) (value : α) :
    Tallies Int32.ofNat (h.add value).1.entries (events ++ [some value]) := by
  unfold entries at ht ⊢
  rcases h.add_cases value with ⟨before, cnt, after, hnodes, hadd⟩ | ⟨hnone, hadd⟩
  · rw [hnodes, List.map_append, List.map_cons] at ht
    rw [hadd, List.map_append, List.map_cons]
    have hcnt := ((ht.mem_iff value cnt).mp (by simp)).2
    exact ht.again (by rw [hcnt, ofNat_succ])
  · refine ht.first ?_ (hadd.map _)
    intro hmem
    rw [List.map_map] at hmem
    obtain ⟨e, he, hvalue⟩ := List.mem_map.mp hmem
    exact hnone e he hvalue

end Hash

/-! ## The ordered map -/

/-- `std::map<K, int>`. -/
structure StdMap (κ : Type*) [LinearOrder κ] where
  entries : List (κ × Int32)
  sorted : (entries.map Prod.fst).Pairwise (· < ·)

namespace StdMap

variable {κ : Type*} [LinearOrder κ]

/-- The constructor. -/
def new : StdMap κ where
  entries := []
  sorted := List.Pairwise.nil

/-- `++map[key]` on the entries. -/
def incrementIn (key : κ) : List (κ × Int32) → List (κ × Int32)
  | [] => [(key, 1)]
  | (k, n) :: rest =>
      if key < k then (key, 1) :: (k, n) :: rest
      else if key = k then (k, n + 1) :: rest
      else (k, n) :: incrementIn key rest

/-- **What `++map[key]` does**: it counts in the entry of the key, or makes one if there is
none. -/
theorem incrementIn_cases (key : κ) {l : List (κ × Int32)}
    (hl : (l.map Prod.fst).Pairwise (· < ·)) :
    (∃ before n after, l = before ++ (key, n) :: after ∧
      incrementIn key l = before ++ (key, n + 1) :: after) ∨
    (∃ before after, l = before ++ after ∧ incrementIn key l = before ++ (key, 1) :: after ∧
      (∀ e ∈ before, e.1 < key) ∧ ∀ e ∈ after, key < e.1) := by
  induction l with
  | nil => exact .inr ⟨[], [], rfl, rfl, by simp, by simp⟩
  | cons e rest ih =>
      obtain ⟨k, n⟩ := e
      obtain ⟨hhead, htail⟩ := List.pairwise_cons.mp hl
      rw [incrementIn]
      rcases lt_trichotomy key k with hlt | rfl | hgt
      · rw [if_pos hlt]
        refine .inr ⟨[], (k, n) :: rest, rfl, rfl, by simp, ?_⟩
        intro e he
        rcases List.mem_cons.mp he with rfl | he
        · exact hlt
        · exact hlt.trans (hhead _ (List.mem_map_of_mem he))
      · rw [if_neg (lt_irrefl key), if_pos rfl]
        exact .inl ⟨[], n, rest, rfl, rfl⟩
      · rw [if_neg hgt.not_gt, if_neg hgt.ne']
        rcases ih htail with ⟨before, m, after, rfl, hinc⟩ | ⟨before, after, rfl, hinc, hlo, hhi⟩
        · exact .inl ⟨(k, n) :: before, m, after, rfl, by rw [hinc, List.cons_append]⟩
        · refine .inr ⟨(k, n) :: before, after, rfl, by rw [hinc, List.cons_append], ?_, hhi⟩
          intro e he
          rcases List.mem_cons.mp he with rfl | he
          · exact hgt
          · exact hlo e he

/-- `++map[key]`. -/
def increment (m : StdMap κ) (key : κ) : StdMap κ where
  entries := incrementIn key m.entries
  sorted := by
    have hsorted := m.sorted
    rcases incrementIn_cases key m.sorted with ⟨before, n, after, hl, hinc⟩ |
      ⟨before, after, hl, hinc, hlo, hhi⟩
    · rw [hl] at hsorted
      rw [hinc]
      simpa using hsorted
    · rw [hl, List.map_append, List.pairwise_append] at hsorted
      rw [hinc, List.map_append, List.map_cons, List.pairwise_append, List.pairwise_cons]
      obtain ⟨hbefore, hafter, hcross⟩ := hsorted
      refine ⟨hbefore, ⟨?_, hafter⟩, ?_⟩
      · intro k hk
        obtain ⟨e, he, rfl⟩ := List.mem_map.mp hk
        exact hhi e he
      · intro k hk k' hk'
        obtain ⟨e, he, rfl⟩ := List.mem_map.mp hk
        rcases List.mem_cons.mp hk' with rfl | hk'
        · exact hlo e he
        · exact hcross _ hk _ hk'

/-- A key incremented is counted. -/
theorem tallies_increment {m : StdMap κ} {events : List (Option κ)}
    (ht : Tallies Int32.ofNat m.entries events) (key : κ) :
    Tallies Int32.ofNat (m.increment key).entries (events ++ [some key]) := by
  unfold increment
  rcases incrementIn_cases key m.sorted with ⟨before, n, after, hl, hinc⟩ |
    ⟨before, after, hl, hinc, hlo, hhi⟩
  · rw [hl] at ht
    have hn := ((ht.mem_iff key n).mp (by simp)).2
    simp only [hinc]
    exact ht.again (by rw [hn, ofNat_succ])
  · refine ht.first ?_ ?_
    · intro hmem
      rw [hl] at hmem
      obtain ⟨e, he, rfl⟩ := List.mem_map.mp hmem
      rcases List.mem_append.mp he with he | he
      · exact lt_irrefl _ (hlo e he)
      · exact lt_irrefl _ (hhi e he)
    · show (incrementIn key m.entries).Perm _
      rw [hinc, hl]
      exact List.perm_middle

end StdMap

end MonitoringTool.Sniffer
