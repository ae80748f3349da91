import Mathlib.Data.Set.Card
import MonitoringTool.Lib.Buckets
import MonitoringTool.Lib.Run
import MonitoringTool.Sniffer.Metrics.HashTable

/-!
# The chains of the counting tables

`Hash` with its bucket and node objects, as `hashTable.cpp` has it: nodes are named by
numbers, `find` follows `next`, and `create`, `remove` and `clear` write the links.

In terms of keys it is a map that gives each key the number of times it was added since it
was last removed, or the table last cleared (`numbers`).  `HoldsNumbers` ties the objects to
that map; each operation has one lemma about it, and `hash_counts` is what follows for all
sequences of calls.  `adds_asLists` says that the table of lists that the distributions are
computed from is the one of the objects.  The counters are `int`s: a number is kept modulo
2^32, and a bucket with 2^31 nodes would be lost.
-/

namespace MonitoringTool.Sniffer

open Lib Function

/-! ## Keys -/

/-- `strcmp(s, t) == 0`. -/
def strcmpEq : (s t : List UInt8) → Bool
  | [], [] => true
  | [], d :: _ => d = 0
  | c :: _, [] => c = 0
  | c :: s, d :: t => decide (c = d) && strcmpEq s t

/-- A `Hashable` with its `compare`, of which the table asks whether it is 0. -/
class ComparableValue (α : Type*) extends HashableValue α where
  same : α → α → Bool
  same_iff : ∀ a b, same a b = true ↔ a = b

theorem strcmpEq_iff {s t : List UInt8} (hs : 0 ∉ s) (ht : 0 ∉ t) :
    strcmpEq s t = true ↔ s = t := by
  induction s generalizing t with
  | nil =>
      cases t with
      | nil => simp [strcmpEq]
      | cons d t =>
          have hd : d ≠ 0 := fun h => ht (by simp [h])
          simp [strcmpEq, hd]
  | cons c s ih =>
      cases t with
      | nil =>
          have hc : c ≠ 0 := fun h => hs (by simp [h])
          simp [strcmpEq, hc]
      | cons d t =>
          have hrest := @ih t (fun h => hs (by simp [h])) fun h => ht (by simp [h])
          simp [strcmpEq, hrest]

instance : ComparableValue StringHash where
  same a b := strcmpEq a.value.chars b.value.chars
  same_iff a b := by
    rw [strcmpEq_iff a.value.noNul b.value.noNul]
    obtain ⟨⟨s, hs⟩⟩ := a
    obtain ⟨⟨t, ht⟩⟩ := b
    simp

instance : ComparableValue Addr2 where
  same a b := a.value == b.value
  same_iff a b := by
    obtain ⟨s⟩ := a
    obtain ⟨t⟩ := b
    simp

instance : Inhabited StringHash := ⟨⟨⟨[], List.not_mem_nil⟩⟩⟩

instance : Inhabited Addr2 := ⟨⟨0⟩⟩

/-! ## The table -/

/-- `Hash`, its buckets and the node objects; `fresh` is the name of the next one. -/
structure HashObjects (α : Type*) where
  cnt : Int32
  links : Buckets ℕ ℕ
  elmCnt : ℕ → Int32
  bucketOf : ℕ → ℕ
  value : ℕ → α
  nodeCnt : ℕ → Int32
  fresh : ℕ

namespace HashObjects

variable {α : Type*}

/-- `Hash::Hash`. -/
def new [Inhabited α] : HashObjects α where
  cnt := 0
  links := ⟨fun _ => none, fun _ => none, fun _ => none, fun _ => none⟩
  elmCnt _ := 0
  bucketOf _ := 0
  value _ := default
  nodeCnt _ := 0
  fresh := 0

section

variable [ComparableValue α]

/-- `Hash::create`. -/
def create (t : HashObjects α) (value : α) : Option (HashObjects α × ℕ) :=
  let n := t.fresh
  let i := Hash.key value
  (t.links.hang i n (t.elmCnt i = 0)).map fun links =>
    ({ cnt := t.cnt + 1
       links := links
       elmCnt := update t.elmCnt i (t.elmCnt i + 1)
       bucketOf := update t.bucketOf n i
       value := update t.value n value
       nodeCnt := update t.nodeCnt n 1
       fresh := n + 1 }, n)

/-- `Hash::find`: the outer `none` is a walk without end. -/
def find (t : HashObjects α) (value : α) : Option (Option ℕ) :=
  let i := Hash.key value
  if t.elmCnt i > 0 then
    walk t.links.next (fun e => ComparableValue.same value (t.value e)) t.fresh (t.links.first i)
  else some none

/-- `Hash::remove`. -/
def remove (t : HashObjects α) (value : α) : Option (HashObjects α × Option ℕ) :=
  (t.find value).bind fun found =>
    match found with
    | none => some (t, none)
    | some n =>
        let i := t.bucketOf n
        (t.links.unhang i n (t.elmCnt i = 1 ∧ some n = t.links.first i)).map fun links =>
          ({ t with
             links := links
             elmCnt := update t.elmCnt i (t.elmCnt i - 1)
             cnt := t.cnt - 1 }, some n)

/-- `Hash::add`. -/
def add (t : HashObjects α) (value : α) : Option (HashObjects α × ℕ) :=
  (t.find value).bind fun found =>
    match found with
    | none => (t.create value).map fun (t, _) => (t, 0)
    | some e => some ({ t with nodeCnt := update t.nodeCnt e (t.nodeCnt e + 1) }, 1)

/-- `clear` on bucket `i`: `delete` while there is a first node. -/
def clearLoop (i : ℕ) : ℕ → HashObjects α → Option (HashObjects α)
  | fuel, t =>
      match t.links.first i, fuel with
      | none, _ =>
          some { t with
            links := { t.links with
              first := update t.links.first i none
              last := update t.links.last i none } }
      | some _, 0 => none
      | some e, fuel + 1 =>
          clearLoop i fuel { t with
            links := { t.links with first := update t.links.first i (t.links.next e) }
            elmCnt := update t.elmCnt i (t.elmCnt i - 1) }

/-- `Hash::clear`. -/
def clear (t : HashObjects α) : Option (HashObjects α) :=
  run (fun t i => t.clearLoop i t.fresh) { t with cnt := 0 } (List.range Hash.size)

end

/-- The nodes of bucket `i`, from first to last. -/
def bucket (t : HashObjects α) (i : ℕ) : List ℕ := follow t.links.next t.fresh (t.links.first i)

end HashObjects

/-! ## Calls -/

/-- A call of a member function. -/
inductive HashCall (α : Type*) where
  | add : α → HashCall α
  | remove : α → HashCall α
  | find : α → HashCall α
  | clear : HashCall α

/-- The table after a call. -/
def HashObjects.step {α : Type*} [ComparableValue α] (t : HashObjects α) :
    HashCall α → Option (HashObjects α)
  | .add value => (t.add value).map Prod.fst
  | .remove value => (t.remove value).map Prod.fst
  | .find value => (t.find value).map fun _ => t
  | .clear => t.clear

section Numbers

variable {α : Type*} [DecidableEq α]

/-- What a call does to the numbers of the keys. -/
def HashCall.number (number : α → ℕ) : HashCall α → α → ℕ
  | .add value => update number value (number value + 1)
  | .remove value => update number value 0
  | .find _ => number
  | .clear => fun _ => 0

/-- How often each key was added since it was last removed, or the table last cleared. -/
def numbers (calls : List (HashCall α)) : α → ℕ := calls.foldl HashCall.number fun _ => 0

end Numbers

/-- The keys that are present. -/
def present {α : Type*} (number : α → ℕ) : Set α := {key | 0 < number key}

/-- The keys that are present and hash to bucket `i`. -/
def presentIn {α : Type*} [HashableValue α] (number : α → ℕ) (i : ℕ) : Set α :=
  {key | 0 < number key ∧ Hash.key key = i}

/-- No bucket has as many nodes as its `int` cannot count. -/
def HasRoom {α : Type*} [HashableValue α] (number : α → ℕ) : Prop :=
  ∀ i, (presentIn number i).ncard < 2 ^ 31

/-! ### Numbers after a call -/

section Numbers

variable {α : Type*} [DecidableEq α] {number : α → ℕ}

theorem present_add (number : α → ℕ) (value : α) (n : ℕ) :
    present (update number value (n + 1)) = insert value (present number) := by
  ext key
  by_cases h : key = value
  · subst h
    simp [present]
  · simp [present, h]

theorem present_remove (number : α → ℕ) (value : α) :
    present (update number value 0) = present number \ {value} := by
  ext key
  by_cases h : key = value
  · subst h
    simp [present]
  · simp [present, h]

end Numbers

/-! ## What the objects represent -/

/-- The objects are those of the lists `chain`, and these hold the keys with a positive
number, each once and with its number. -/
structure HoldsNumbers {α : Type*} [HashableValue α] (t : HashObjects α) (chain : ℕ → List ℕ)
    (number : α → ℕ) : Prop where
  linked : t.links.Linked chain
  elmCnt_eq : ∀ i, t.elmCnt i = Int32.ofNat (chain i).length
  bucketOf_eq : ∀ i, ∀ n ∈ chain i, t.bucketOf n = i
  key_eq : ∀ i, ∀ n ∈ chain i, Hash.key (t.value n) = i
  lt_fresh : ∀ i, ∀ n ∈ chain i, n < t.fresh
  distinct : ∀ i, ∀ n ∈ chain i, ∀ m ∈ chain i, t.value n = t.value m → n = m
  counted : ∀ i, ∀ n ∈ chain i,
    0 < number (t.value n) ∧ t.nodeCnt n = Int32.ofNat (number (t.value n))
  listed : ∀ key, 0 < number key → ∃ n ∈ chain (Hash.key key), t.value n = key
  finite : (present number).Finite
  cnt_eq : t.cnt = Int32.ofNat (present number).ncard

theorem HoldsNumbers.new {α : Type*} [HashableValue α] [Inhabited α] :
    HoldsNumbers (HashObjects.new : HashObjects α) (fun _ => []) fun _ => 0 where
  linked := Buckets.Linked.empty _ _
  elmCnt_eq _ := rfl
  bucketOf_eq i n hn := by simp at hn
  key_eq i n hn := by simp at hn
  lt_fresh i n hn := by simp at hn
  distinct i n hn := by simp at hn
  counted i n hn := by simp at hn
  listed key hkey := absurd hkey (Nat.lt_irrefl 0)
  finite := by simp [present]
  cnt_eq := by simp [present, HashObjects.new]

namespace HoldsNumbers

variable {α : Type*} [ComparableValue α] {t : HashObjects α} {chain : ℕ → List ℕ} {number : α → ℕ}

/-- A bucket has no more nodes than were ever created. -/
theorem length_le (h : HoldsNumbers t chain number) (i : ℕ) : (chain i).length ≤ t.fresh := by
  have hsub : chain i ⊆ List.range t.fresh := fun n hn => List.mem_range.mpr (h.lt_fresh i n hn)
  simpa using (List.subperm_of_subset (h.linked.nodup i) hsub).length_le

theorem bucket_eq (h : HoldsNumbers t chain number) (i : ℕ) : t.bucket i = chain i := by
  unfold HashObjects.bucket
  rw [h.linked.first_eq]
  exact (h.linked.segment i).follow_eq (h.length_le i)

variable [DecidableEq α]

/-- A bucket has as many nodes as keys that are present hash to it. -/
theorem length_eq (h : HoldsNumbers t chain number) (i : ℕ) :
    (chain i).length = (presentIn number i).ncard := by
  have hset : presentIn number i = ((chain i).map t.value).toFinset := by
    ext key
    simp only [presentIn, Set.mem_ofPred_eq, List.coe_toFinset, List.mem_map]
    constructor
    · rintro ⟨hpos, rfl⟩
      exact h.listed key hpos
    · rintro ⟨n, hn, rfl⟩
      exact ⟨(h.counted i n hn).1, h.key_eq i n hn⟩
  have hnodup : ((chain i).map t.value).Nodup :=
    (h.linked.nodup i).map_on fun n hn m hm => h.distinct i n hn m hm
  rw [hset, Set.ncard_coe_finset, List.toFinset_card_of_nodup hnodup, List.length_map]

theorem length_lt (h : HoldsNumbers t chain number) (hroom : HasRoom number) (i : ℕ) :
    (chain i).length < 2 ^ 31 := by
  rw [h.length_eq]
  exact hroom i

/-- `find` answers the first node of the bucket with the key. -/
theorem find_eq (h : HoldsNumbers t chain number) (hroom : HasRoom number) (key : α) :
    t.find key = some ((chain (Hash.key key)).find? fun n =>
      ComparableValue.same key (t.value n)) := by
  have hlen := h.length_lt hroom (Hash.key key)
  unfold HashObjects.find
  dsimp only
  rw [h.elmCnt_eq]
  split
  · rw [h.linked.first_eq]
    exact (h.linked.segment _).walk_eq _ (h.length_le _)
  · next hzero =>
      have hempty : chain (Hash.key key) = [] := by
        rw [← List.length_eq_zero_iff]
        rw [gt_iff_lt, Int32.lt_iff_toInt_lt, Int32.toInt_ofNat_of_lt hlen] at hzero
        have h0 : (0 : Int32).toInt = 0 := rfl
        omega
      rw [hempty]
      rfl

/-- A key that is present has its node found. -/
theorem find_present (h : HoldsNumbers t chain number) (hroom : HasRoom number) {key : α}
    (hpos : 0 < number key) :
    ∃ n ∈ chain (Hash.key key), t.value n = key ∧ t.find key = some (some n) := by
  obtain ⟨m, hm, hvalue⟩ := h.listed key hpos
  have hsome : ((chain (Hash.key key)).find? fun n =>
      ComparableValue.same key (t.value n)).isSome := by
    rw [List.find?_isSome]
    exact ⟨m, hm, (ComparableValue.same_iff _ _).mpr hvalue.symm⟩
  obtain ⟨n, hn⟩ := Option.isSome_iff_exists.mp hsome
  have hsame := List.find?_some hn
  refine ⟨n, List.mem_of_find?_eq_some hn, ((ComparableValue.same_iff _ _).mp hsame).symm, ?_⟩
  rw [h.find_eq hroom, hn]

/-- A key that is not present has none. -/
theorem find_absent (h : HoldsNumbers t chain number) (hroom : HasRoom number) {key : α}
    (hzero : number key = 0) : t.find key = some none := by
  rw [h.find_eq hroom, Option.some.injEq, List.find?_eq_none]
  intro n hn hsame
  have hpos := (h.counted _ n hn).1
  rw [← (ComparableValue.same_iff _ _).mp hsame, hzero] at hpos
  exact Nat.lt_irrefl 0 hpos

/-! ### `add` -/

omit [DecidableEq α] in
/-- No other node has the key of a node. -/
theorem value_ne (h : HoldsNumbers t chain number) {n : ℕ} (hn : n ∈ chain (Hash.key (t.value n)))
    {j m : ℕ} (hm : m ∈ chain j) (hne : m ≠ n) : t.value m ≠ t.value n := by
  intro heq
  have hj : j = Hash.key (t.value n) := by rw [← heq, h.key_eq j m hm]
  subst hj
  exact hne (h.distinct _ m hm n hn heq)

/-- `create` makes a node for a key that is not present. -/
theorem create_eq (h : HoldsNumbers t chain number) (hroom : HasRoom number) {key : α}
    (hzero : number key = 0) :
    ∃ t', t.create key = some (t', t.fresh) ∧
      HoldsNumbers t' (update chain (Hash.key key) (chain (Hash.key key) ++ [t.fresh]))
        (update number key 1) := by
  have hfresh : ∀ j, ∀ n ∈ chain j, n ≠ t.fresh := fun j n hn => (h.lt_fresh j n hn).ne
  have hvalue : ∀ j, ∀ n ∈ chain j, t.value n ≠ key := by
    intro j n hn heq
    have hpos := (h.counted j n hn).1
    rw [heq, hzero] at hpos
    exact Nat.lt_irrefl 0 hpos
  have hempty : decide (t.elmCnt (Hash.key key) = 0) = true ↔ chain (Hash.key key) = [] := by
    rw [decide_eq_true_iff, h.elmCnt_eq, ← List.length_eq_zero_iff]
    exact ofNat_inj ((h.length_lt hroom _).trans (by decide)) (by decide)
  obtain ⟨links, hhang, hlinked⟩ := h.linked.hang_back (Hash.key key)
    (fun j hj => hfresh j _ hj rfl) hempty
  refine ⟨_, by rw [HashObjects.create, hhang]; rfl, ?_⟩
  exact
    { linked := hlinked
      elmCnt_eq := by
        intro j
        dsimp only
        by_cases hj : j = Hash.key key
        · subst hj
          rw [update_self, update_self, h.elmCnt_eq, List.length_append, List.length_singleton,
            ofNat_succ]
        · rw [update_of_ne hj, update_of_ne hj, h.elmCnt_eq]
      bucketOf_eq := by
        intro j n hn
        dsimp only
        rcases Buckets.Linked.mem_hung.mp hn with hn | ⟨rfl, rfl⟩
        · rw [update_of_ne (hfresh j n hn), h.bucketOf_eq j n hn]
        · exact update_self _ _ _
      key_eq := by
        intro j n hn
        dsimp only
        rcases Buckets.Linked.mem_hung.mp hn with hn | ⟨rfl, rfl⟩
        · rw [update_of_ne (hfresh j n hn), h.key_eq j n hn]
        · rw [update_self]
      lt_fresh := by
        intro j n hn
        dsimp only
        rcases Buckets.Linked.mem_hung.mp hn with hn | ⟨rfl, -⟩
        · exact Nat.lt_succ_of_lt (h.lt_fresh j n hn)
        · exact Nat.lt_succ_self _
      distinct := by
        intro j n hn m hm hsame
        dsimp only at hsame
        rcases Buckets.Linked.mem_hung.mp hn with hn | ⟨rfl, -⟩ <;>
          rcases Buckets.Linked.mem_hung.mp hm with hm | ⟨rfl, -⟩
        · rw [update_of_ne (hfresh j n hn), update_of_ne (hfresh j m hm)] at hsame
          exact h.distinct j n hn m hm hsame
        · rw [update_of_ne (hfresh j n hn), update_self] at hsame
          exact absurd hsame (hvalue j n hn)
        · rw [update_self, update_of_ne (hfresh j m hm)] at hsame
          exact absurd hsame.symm (hvalue j m hm)
        · rfl
      counted := by
        intro j n hn
        dsimp only
        rcases Buckets.Linked.mem_hung.mp hn with hn | ⟨rfl, -⟩
        · rw [update_of_ne (hfresh j n hn), update_of_ne (hfresh j n hn),
            update_of_ne (hvalue j n hn)]
          exact h.counted j n hn
        · rw [update_self, update_self, update_self]
          exact ⟨Nat.one_pos, rfl⟩
      listed := by
        intro key' hpos
        by_cases hkey : key' = key
        · subst hkey
          exact ⟨t.fresh, Buckets.Linked.mem_hung.mpr (.inr ⟨rfl, rfl⟩), update_self _ _ _⟩
        · rw [update_of_ne hkey] at hpos
          obtain ⟨n, hn, rfl⟩ := h.listed key' hpos
          exact ⟨n, Buckets.Linked.mem_hung.mpr (.inl hn), update_of_ne (hfresh _ n hn) _ _⟩
      finite := by
        rw [present_add number key 0]
        exact h.finite.insert key
      cnt_eq := by
        have hnew : key ∉ present number := by simp [present, hzero]
        dsimp only
        rw [present_add number key 0, Set.ncard_insert_of_notMem hnew h.finite, ofNat_succ,
          ← h.cnt_eq] }

/-- Counting in the node of a key. -/
theorem count (h : HoldsNumbers t chain number) {n : ℕ} {key : α} (hn : n ∈ chain (Hash.key key))
    (hvalue : t.value n = key) :
    HoldsNumbers { t with nodeCnt := update t.nodeCnt n (t.nodeCnt n + 1) } chain
      (update number key (number key + 1)) := by
  obtain ⟨hpos, hcnt⟩ := h.counted _ n hn
  rw [hvalue] at hpos hcnt
  have hpresent : present (update number key (number key + 1)) = present number := by
    rw [present_add]
    exact Set.insert_eq_of_mem hpos
  exact
    { linked := h.linked
      elmCnt_eq := h.elmCnt_eq
      bucketOf_eq := h.bucketOf_eq
      key_eq := h.key_eq
      lt_fresh := h.lt_fresh
      distinct := h.distinct
      counted := by
        intro j m hm
        by_cases hmn : m = n
        · subst hmn
          dsimp only
          rw [hvalue, update_self, update_self, hcnt, ofNat_succ]
          exact ⟨Nat.succ_pos _, rfl⟩
        · have hother : t.value m ≠ key := hvalue ▸ h.value_ne (hvalue ▸ hn) hm hmn
          dsimp only
          rw [update_of_ne hmn, update_of_ne hother]
          exact h.counted j m hm
      listed := by
        intro key' hpos'
        refine h.listed key' ?_
        by_cases hkey : key' = key
        · rwa [hkey]
        · rwa [update_of_ne hkey] at hpos'
      finite := hpresent ▸ h.finite
      cnt_eq := hpresent ▸ h.cnt_eq }

/-! ### `remove` and `clear` -/

/-- The node of a key that is present is taken out. -/
theorem remove_eq (h : HoldsNumbers t chain number) (hroom : HasRoom number) {key : α}
    (hpos : 0 < number key) :
    ∃ t' chain' n, t.remove key = some (t', some n) ∧
      HoldsNumbers t' chain' (update number key 0) := by
  obtain ⟨n, hn, rfl, hfind⟩ := h.find_present hroom hpos
  obtain ⟨xs, ys, hsplit⟩ := List.append_of_mem hn
  have hbucket := h.bucketOf_eq _ n hn
  have honly : decide (t.elmCnt (Hash.key (t.value n)) = 1 ∧
      some n = t.links.first (Hash.key (t.value n))) = true ↔ xs = [] ∧ ys = [] := by
    have hone : t.elmCnt (Hash.key (t.value n)) = 1 ↔
        (chain (Hash.key (t.value n))).length = 1 := by
      rw [h.elmCnt_eq]
      exact ofNat_inj ((h.length_lt hroom _).trans (by decide)) (by decide)
    rw [decide_eq_true_iff, hone]
    exact h.linked.only_iff hsplit
  obtain ⟨links, hunhang, hlinked⟩ := h.linked.unhang_eq hsplit honly
  have hmem : ∀ {j m : ℕ}, m ∈ update chain (Hash.key (t.value n)) (xs ++ ys) j ↔
      m ∈ chain j ∧ m ≠ n := h.linked.mem_unhung hsplit
  have hremove : t.remove (t.value n) = some ({ t with
      links := links
      elmCnt := update t.elmCnt (Hash.key (t.value n)) (t.elmCnt (Hash.key (t.value n)) - 1)
      cnt := t.cnt - 1 }, some n) := by
    rw [HashObjects.remove, hfind, Option.bind_some]
    dsimp only
    rw [hbucket, hunhang, Option.map_some]
  refine ⟨_, update chain (Hash.key (t.value n)) (xs ++ ys), n, hremove, ?_⟩
  exact
    { linked := hlinked
      elmCnt_eq := by
        intro j
        dsimp only
        by_cases hj : j = Hash.key (t.value n)
        · subst hj
          rw [update_self, update_self, h.elmCnt_eq, hsplit, List.length_append, List.length_cons,
            List.length_append, ← Nat.add_assoc, ofNat_succ, Int32.add_sub_cancel]
        · rw [update_of_ne hj, update_of_ne hj, h.elmCnt_eq]
      bucketOf_eq := fun j m hm => h.bucketOf_eq j m (hmem.mp hm).1
      key_eq := fun j m hm => h.key_eq j m (hmem.mp hm).1
      lt_fresh := fun j m hm => h.lt_fresh j m (hmem.mp hm).1
      distinct := fun j m hm k hk => h.distinct j m (hmem.mp hm).1 k (hmem.mp hk).1
      counted := by
        intro j m hm
        obtain ⟨hm, hne⟩ := hmem.mp hm
        dsimp only
        rw [update_of_ne (h.value_ne hn hm hne)]
        exact h.counted j m hm
      listed := by
        intro key hkey
        by_cases heq : key = t.value n
        · rw [heq, update_self] at hkey
          exact absurd hkey (Nat.lt_irrefl 0)
        · rw [update_of_ne heq] at hkey
          obtain ⟨m, hm, rfl⟩ := h.listed key hkey
          exact ⟨m, hmem.mpr ⟨hm, fun hmn => heq (by rw [hmn])⟩, rfl⟩
      finite := by
        rw [present_remove]
        exact h.finite.sdiff
      cnt_eq := by
        have hcard : 0 < (present number).ncard := (Set.ncard_pos h.finite).mpr ⟨t.value n, hpos⟩
        have hmem : t.value n ∈ present number := hpos
        dsimp only
        rw [present_remove, Set.ncard_sdiff_singleton_of_mem hmem, h.cnt_eq,
          Int32.ofNat_sub _ _ hcard]
        rfl }

omit [ComparableValue α] [DecidableEq α] in
/-- The loop of `clear` on a bucket whose nodes are `l`. -/
theorem clearLoop_eq (i : ℕ) {l : List ℕ} {fuel : ℕ} {before : Option ℕ} {t : HashObjects α}
    (hseg : Segment t.links.next t.links.prev before l none) (hfirst : t.links.first i = l.head?)
    (hcnt : t.elmCnt i = Int32.ofNat l.length) (hfuel : l.length ≤ fuel) :
    t.clearLoop i fuel = some
      { t with
        links := { t.links with
          first := update t.links.first i none
          last := update t.links.last i none }
        elmCnt := update t.elmCnt i 0 } := by
  induction l generalizing fuel before t with
  | nil =>
      have hzero : update t.elmCnt i 0 = t.elmCnt := by
        rw [show (0 : Int32) = t.elmCnt i from hcnt.symm, update_eq_self]
      unfold HashObjects.clearLoop
      rw [hfirst, hzero]
      cases fuel <;> rfl
  | cons n l ih =>
      obtain ⟨fuel, rfl⟩ : ∃ k, fuel = k + 1 := ⟨fuel - 1, by simp at hfuel; omega⟩
      obtain ⟨-, hnext, hrest⟩ := hseg
      rw [Option.or_none] at hnext
      have hless : t.elmCnt i - 1 = Int32.ofNat l.length := by
        rw [hcnt, List.length_cons, ofNat_succ, Int32.add_sub_cancel]
      unfold HashObjects.clearLoop
      rw [hfirst, List.head?_cons]
      dsimp only
      have hstep := @ih fuel (some n) { t with
        links := { t.links with first := update t.links.first i (t.links.next n) }
        elmCnt := update t.elmCnt i (t.elmCnt i - 1) } hrest (by simp [hnext])
        (by simpa using hless) (by simpa using hfuel)
      rw [hstep]
      simp

omit [ComparableValue α] [DecidableEq α] in
/-- The loops of `clear` on the buckets `is`, one after the other. -/
theorem clearBuckets_eq (is : List ℕ) {t : HashObjects α} {chain : ℕ → List ℕ}
    (hlinked : t.links.Linked chain) (hcnt : ∀ i, t.elmCnt i = Int32.ofNat (chain i).length)
    (hfuel : ∀ i, (chain i).length ≤ t.fresh) :
    ∃ t', run (fun t i => t.clearLoop i t.fresh) t is = some t' ∧ t'.cnt = t.cnt ∧
      t'.links.Linked (Buckets.without chain is) ∧
      ∀ i, t'.elmCnt i = Int32.ofNat (Buckets.without chain is i).length := by
  induction is generalizing t chain with
  | nil =>
      rw [Buckets.without_nil]
      exact ⟨t, rfl, rfl, hlinked, hcnt⟩
  | cons i is ih =>
      have hbucket := clearLoop_eq i (hlinked.segment i) (hlinked.first_eq i) (hcnt i) (hfuel i)
      obtain ⟨t', hrun, hcnt', hlinked', helm'⟩ := ih
        (t := { t with
          links := { t.links with
            first := update t.links.first i none
            last := update t.links.last i none }
          elmCnt := update t.elmCnt i 0 })
        (hlinked.emptied i)
        (by
          intro j
          by_cases hj : j = i
          · subst hj
            simp
          · simp [hj, hcnt])
        (by
          intro j
          by_cases hj : j = i
          · subst hj
            simp
          · simpa [hj] using hfuel j)
      rw [Buckets.without_cons]
      refine ⟨t', ?_, hcnt', hlinked', helm'⟩
      rw [run_cons, hbucket]
      exact hrun

omit [DecidableEq α] in
/-- `clear` empties all buckets. -/
theorem clear_eq (h : HoldsNumbers t chain number) :
    ∃ t', t.clear = some t' ∧ HoldsNumbers t' (fun _ => []) fun _ => 0 := by
  obtain ⟨t', hrun, hcnt, hlinked, helm⟩ := clearBuckets_eq (List.range Hash.size)
    (t := { t with cnt := 0 }) h.linked h.elmCnt_eq h.length_le
  have hnil : Buckets.without chain (List.range Hash.size) = fun _ => [] := by
    apply Buckets.without_eq_nil
    intro j n hn
    rw [List.mem_range, ← h.key_eq j n hn]
    exact Hash.key_lt _
  rw [hnil] at hlinked helm
  exact ⟨t', hrun,
    { linked := hlinked
      elmCnt_eq := helm
      bucketOf_eq := by simp
      key_eq := by simp
      lt_fresh := by simp
      distinct := by simp
      counted := by simp
      listed := fun key hkey => absurd hkey (Nat.lt_irrefl 0)
      finite := by simp [present]
      cnt_eq := by simp [present, hcnt] }⟩

/-! ### Any call -/

/-- `add` answers whether the key was there, and counts it. -/
theorem add_eq (h : HoldsNumbers t chain number) (hroom : HasRoom number) (key : α) :
    ∃ t' chain', t.add key = some (t', if number key = 0 then 0 else 1) ∧
      HoldsNumbers t' chain' (update number key (number key + 1)) := by
  rcases Nat.eq_zero_or_pos (number key) with hzero | hpos
  · obtain ⟨t', hcreate, h'⟩ := h.create_eq hroom hzero
    refine ⟨t', _, ?_, by rwa [hzero]⟩
    rw [HashObjects.add, h.find_absent hroom hzero, Option.bind_some]
    simp [hcreate, hzero]
  · obtain ⟨n, hn, hvalue, hfind⟩ := h.find_present hroom hpos
    refine ⟨_, chain, ?_, h.count hn hvalue⟩
    rw [HashObjects.add, hfind, Option.bind_some]
    simp [hpos.ne']

/-- Every call has a result, which represents the numbers after it. -/
theorem step_eq (h : HoldsNumbers t chain number) (hroom : HasRoom number) (c : HashCall α) :
    ∃ t' chain', t.step c = some t' ∧ HoldsNumbers t' chain' (c.number number) := by
  cases c with
  | add key =>
      obtain ⟨t', chain', hadd, h'⟩ := h.add_eq hroom key
      exact ⟨t', chain', by rw [HashObjects.step, hadd, Option.map_some], h'⟩
  | remove key =>
      rcases Nat.eq_zero_or_pos (number key) with hzero | hpos
      · have hsame : update number key 0 = number := by rw [← hzero, update_eq_self]
        refine ⟨t, chain, ?_, ?_⟩
        · rw [HashObjects.step, HashObjects.remove, h.find_absent hroom hzero]
          rfl
        · rw [HashCall.number, hsame]
          exact h
      · obtain ⟨t', chain', n, hremove, h'⟩ := h.remove_eq hroom hpos
        exact ⟨t', chain', by rw [HashObjects.step, hremove, Option.map_some], h'⟩
  | find key => exact ⟨t, chain, by rw [HashObjects.step, h.find_eq hroom, Option.map_some], h⟩
  | clear =>
      obtain ⟨t', hclear, h'⟩ := h.clear_eq
      exact ⟨t', _, hclear, h'⟩

end HoldsNumbers

/-- Any calls, none of which finds a bucket too full. -/
theorem run_holdsNumbers {α : Type*} [ComparableValue α] [DecidableEq α] [Inhabited α]
    (calls : List (HashCall α)) (hroom : ∀ before, before <+: calls → HasRoom (numbers before)) :
    ∃ t chain, run HashObjects.step .new calls = some t ∧ HoldsNumbers t chain (numbers calls) := by
  induction calls using List.reverseRecOn with
  | nil => exact ⟨_, _, rfl, HoldsNumbers.new⟩
  | append_singleton calls c ih =>
      obtain ⟨t, chain, hrun, h⟩ := ih fun before hbefore =>
        hroom before (hbefore.trans (List.prefix_append calls [c]))
      obtain ⟨t', chain', hstep, h'⟩ := h.step_eq (hroom calls (List.prefix_append calls [c])) c
      refine ⟨t', chain', ?_, ?_⟩
      · rw [run_append, hrun]
        simpa using hstep
      · rw [numbers, List.foldl_append]
        exact h'

/-! ## The buckets as lists of nodes -/

/-- The contents of a node object. -/
def HashObjects.node {α : Type*} (t : HashObjects α) (n : ℕ) : Node α := ⟨t.value n, t.nodeCnt n⟩

/-- Bucket `i` of the table of lists. -/
def Hash.nodesAt {α : Type*} [HashableValue α] (h : Hash α) (i : ℕ) : List (Node α) :=
  (h.buckets[i]?).getD []

/-- The lists of `h` are those of the objects. -/
def AsLists {α : Type*} [HashableValue α] (t : HashObjects α) (chain : ℕ → List ℕ) (h : Hash α) :
    Prop :=
  ∀ i, (chain i).map t.node = h.nodesAt i

section AsLists

variable {α : Type*} [ComparableValue α] {t : HashObjects α} {chain : ℕ → List ℕ} {number : α → ℕ}
  {h : Hash α}

theorem Hash.nodesAt_new (i : ℕ) : (Hash.new : Hash α).nodesAt i = [] := by
  unfold Hash.nodesAt Hash.new
  rw [List.getElem?_replicate]
  split <;> rfl

theorem Hash.nodesAt_setBucket (h : Hash α) (value : α) (nodes : List (Node α))
    (hnodes : ∀ e ∈ nodes, Hash.key e.value = Hash.key value) :
    (h.setBucket value nodes hnodes).nodesAt = update h.nodesAt (Hash.key value) nodes := by
  have hlt : Hash.key value < h.buckets.length := h.length_buckets ▸ Hash.key_lt value
  funext i
  unfold Hash.nodesAt Hash.setBucket
  by_cases hi : i = Hash.key value
  · subst hi
    rw [update_self, List.getElem?_set_self hlt, Option.getD_some]
  · rw [update_of_ne hi, List.getElem?_set_ne (Ne.symm hi)]

/-- A new node is the last of its list. -/
theorem AsLists.create (hl : AsLists t chain h) (hn : HoldsNumbers t chain number) {key : α}
    {t' : HashObjects α} {n : ℕ} (hcreate : t.create key = some (t', n)) :
    AsLists t' (update chain (Hash.key key) (chain (Hash.key key) ++ [t.fresh]))
      (h.create key) := by
  obtain ⟨links, -, heq⟩ := Option.map_eq_some_iff.mp hcreate
  obtain ⟨rfl, -⟩ := Prod.mk.inj heq
  have hold : ∀ i, (chain i).map (HashObjects.node ({ t with
      value := update t.value t.fresh key
      nodeCnt := update t.nodeCnt t.fresh 1 } : HashObjects α)) = h.nodesAt i := by
    intro i
    rw [← hl i]
    refine List.map_congr_left fun m hm => ?_
    have hne : m ≠ t.fresh := (hn.lt_fresh i m hm).ne
    unfold HashObjects.node
    dsimp only
    rw [update_of_ne hne, update_of_ne hne]
  intro i
  rw [Hash.create, Hash.nodesAt_setBucket]
  by_cases hi : i = Hash.key key
  · subst hi
    rw [update_self, update_self, List.map_append]
    refine congrArg₂ (· ++ ·) (hold _) ?_
    simp [HashObjects.node]
  · rw [update_of_ne hi, update_of_ne hi]
    exact hold i

/-- Counting in a node counts at its place. -/
theorem AsLists.count (hl : AsLists t chain h) (hn : HoldsNumbers t chain number) {key : α}
    {place n : ℕ} (hplace : (chain (Hash.key key))[place]? = some n) :
    AsLists { t with nodeCnt := update t.nodeCnt n (t.nodeCnt n + 1) } chain
      (h.count key place) := by
  have hmem : n ∈ chain (Hash.key key) := List.mem_of_getElem? hplace
  have hsame : ∀ m, m ≠ n → HashObjects.node
      { t with nodeCnt := update t.nodeCnt n (t.nodeCnt n + 1) } m = t.node m := by
    intro m hm
    unfold HashObjects.node
    dsimp only
    rw [update_of_ne hm]
  intro i
  rw [Hash.count, Hash.nodesAt_setBucket]
  by_cases hi : i = Hash.key key
  · subst hi
    have hbucket : h.bucket key = (chain (Hash.key key)).map t.node := (hl _).symm
    rw [update_self, hbucket]
    apply List.ext_getElem?
    intro j
    rw [List.getElem?_modify, List.getElem?_map, List.getElem?_map]
    by_cases hj : place = j
    · subst hj
      simp [hplace, HashObjects.node]
    · simp only [if_neg hj, id_map']
      cases hm : (chain (Hash.key key))[j]? with
      | none => rfl
      | some m =>
          have hne : m ≠ n := by
            rintro rfl
            have hlt : place < (chain (Hash.key key)).length :=
              (List.getElem?_eq_some_iff.mp hplace).1
            exact hj ((List.getElem?_inj hlt (hn.linked.nodup _)).mp (hplace.trans hm.symm))
          rw [Option.map_some, Option.map_some, hsame m hne]
  · rw [update_of_ne hi, ← hl i]
    refine List.map_congr_left fun m hm => hsame m ?_
    rintro rfl
    exact hi (hn.linked.apart i _ m hm hmem)

variable [DecidableEq α]

/-- The search in the list is one in the bucket of the objects. -/
theorem AsLists.find (hl : AsLists t chain h) (key : α) :
    h.find key = (chain (Hash.key key)).findIdx? fun n =>
      ComparableValue.same key (t.value n) := by
  have hbucket : h.bucket key = (chain (Hash.key key)).map t.node := (hl _).symm
  rw [Hash.find, hbucket, List.findIdx?_map]
  congr 1
  funext n
  rw [Bool.eq_iff_iff, comp_apply, decide_eq_true_iff, ComparableValue.same_iff]
  rfl

/-- `add` of the objects is `add` of the lists. -/
theorem AsLists.add (hl : AsLists t chain h) (hn : HoldsNumbers t chain number)
    (hroom : HasRoom number) (key : α) :
    ∃ t' chain', t.add key = some (t', (h.add key).2) ∧ AsLists t' chain' (h.add key).1 ∧
      HoldsNumbers t' chain' (update number key (number key + 1)) := by
  rw [Hash.add, hl.find key]
  rcases Nat.eq_zero_or_pos (number key) with hzero | hpos
  · obtain ⟨t', hcreate, hn'⟩ := hn.create_eq hroom hzero
    have habsent := hn.find_absent hroom hzero
    have hnone : ((chain (Hash.key key)).findIdx? fun n =>
        ComparableValue.same key (t.value n)) = none := by
      rw [hn.find_eq hroom, Option.some.injEq, List.find?_eq_none] at habsent
      rw [List.findIdx?_eq_none_iff]
      exact fun n hmem => Bool.eq_false_iff.mpr (habsent n hmem)
    rw [hnone]
    refine ⟨t', _, ?_, hl.create hn hcreate, by rwa [hzero]⟩
    rw [HashObjects.add, hn.find_absent hroom hzero, Option.bind_some]
    simp [hcreate]
  · obtain ⟨n, hmem, hvalue, hfound⟩ := hn.find_present hroom hpos
    have hbind := hfound
    rw [hn.find_eq hroom, List.find?_eq_bind_findIdx?_getElem?] at hbind
    obtain ⟨place, hplace, hat⟩ := Option.bind_eq_some_iff.mp (Option.some.inj hbind)
    rw [hplace]
    refine ⟨_, chain, ?_, hl.count hn hat, hn.count hmem hvalue⟩
    rw [HashObjects.add, hfound, Option.bind_some]

/-- **The lists of the table.**  However many values are added, as long as no bucket has
2^31 nodes, the buckets hold the nodes of the table of lists in its order. -/
theorem adds_asLists [Inhabited α] (values : List α)
    (hroom : ∀ before, before <+: values → HasRoom (numbers (before.map HashCall.add))) :
    ∃ t, run HashObjects.step .new (values.map .add) = some t ∧
      ∀ i, (t.bucket i).map t.node =
        (values.foldl (fun h value => (h.add value).1) (Hash.new : Hash α)).nodesAt i := by
  suffices hrun : ∃ t chain, run HashObjects.step .new (values.map HashCall.add) = some t ∧
      HoldsNumbers t chain (numbers (values.map HashCall.add)) ∧
      AsLists t chain (values.foldl (fun h value => (h.add value).1) (Hash.new : Hash α)) by
    obtain ⟨t, chain, hrun, hn, hl⟩ := hrun
    exact ⟨t, hrun, fun i => by rw [hn.bucket_eq, hl i]⟩
  induction values using List.reverseRecOn with
  | nil => exact ⟨_, _, rfl, HoldsNumbers.new, fun i => (Hash.nodesAt_new i).symm⟩
  | append_singleton values value ih =>
      obtain ⟨t, chain, hrun, hn, hl⟩ := ih fun before hbefore =>
        hroom before (hbefore.trans (List.prefix_append values [value]))
      obtain ⟨t', chain', hadd, hl', hn'⟩ :=
        hl.add hn (hroom values (List.prefix_append values [value])) value
      refine ⟨t', chain', ?_, ?_, ?_⟩
      · rw [List.map_append, run_append, hrun]
        simp [HashObjects.step, hadd]
      · rw [List.map_append, numbers, List.foldl_append]
        exact hn'
      · rw [List.foldl_append]
        exact hl'

end AsLists

/-! ## The counting map -/

/-- What the table is for: the map from the keys to their numbers. -/
structure CountingMap {α : Type*} [ComparableValue α] (t : HashObjects α) (number : α → ℕ) :
    Prop where
  find_present : ∀ key, 0 < number key →
    ∃ n, t.find key = some (some n) ∧ t.value n = key ∧ t.nodeCnt n = Int32.ofNat (number key)
  find_absent : ∀ key, number key = 0 → t.find key = some none
  once : ∀ i j n m, n ∈ t.bucket i → m ∈ t.bucket j → t.value n = t.value m → n = m
  cnt_eq : t.cnt = Int32.ofNat (present number).ncard
  add_answer : ∀ key, (t.add key).map Prod.snd = some (if number key = 0 then 0 else 1)
  linked : t.links.Linked t.bucket
  elmCnt_eq : ∀ i, (t.elmCnt i).toInt = (t.bucket i).length
  key_eq : ∀ i, ∀ n ∈ t.bucket i, Hash.key (t.value n) = i

/-- **A `Hash` is a counting map.**  After any calls, as long as no bucket has 2^31 nodes,
it gives each key the number of times it was added since it was last removed or the table
last cleared; a number is that of an `int`, and so right below 2^31. -/
theorem hash_counts {α : Type*} [ComparableValue α] [DecidableEq α] [Inhabited α]
    (calls : List (HashCall α)) (hroom : ∀ before, before <+: calls → HasRoom (numbers before)) :
    ∃ t, run HashObjects.step .new calls = some t ∧ CountingMap t (numbers calls) := by
  obtain ⟨t, chain, hrun, h⟩ := run_holdsNumbers calls hroom
  have hroom := hroom calls (List.prefix_refl calls)
  have hbucket : t.bucket = chain := funext h.bucket_eq
  refine ⟨t, hrun, ?_⟩
  exact
    { find_present := by
        intro key hpos
        obtain ⟨n, hn, hvalue, hfind⟩ := h.find_present hroom hpos
        exact ⟨n, hfind, hvalue, hvalue ▸ (h.counted _ n hn).2⟩
      find_absent := fun key hzero => h.find_absent hroom hzero
      once := by
        rw [hbucket]
        intro i j n m hn hm heq
        have hij : i = j := by rw [← h.key_eq i n hn, ← h.key_eq j m hm, heq]
        exact h.distinct i n hn m (hij ▸ hm) heq
      cnt_eq := h.cnt_eq
      add_answer := by
        intro key
        obtain ⟨t', chain', hadd, -⟩ := h.add_eq hroom key
        rw [hadd, Option.map_some]
      linked := hbucket ▸ h.linked
      elmCnt_eq := by
        intro i
        rw [hbucket, h.elmCnt_eq, Int32.toInt_ofNat_of_lt (h.length_lt hroom i)]
      key_eq := hbucket ▸ h.key_eq }

/-! ### Addresses -/

/-- The addresses of a bucket differ by multiples of its 13200, so that there are few. -/
theorem hasRoom_addr2 (number : Addr2 → ℕ) : HasRoom number := by
  intro i
  have hle : (presentIn number i).ncard ≤ ((Finset.range 325377 : Finset ℕ) : Set ℕ).ncard := by
    refine Set.ncard_le_ncard_of_injOn (fun key => key.value.toNat / Hash.size) ?_ ?_
    · intro key _
      have hlt : key.value.toNat < 2 ^ 32 := key.value.toNat_lt
      rw [Finset.mem_coe, Finset.mem_range, Hash.size]
      omega
    · intro key hkey key' hkey' hdiv
      have hmod : key.value.toNat % Hash.size = key'.value.toNat % Hash.size :=
        hkey.2.trans hkey'.2.symm
      have hvalue : key.value.toNat = key'.value.toNat := by
        rw [← Nat.div_add_mod key.value.toNat Hash.size, hmod]
        dsimp only at hdiv
        rw [hdiv, Nat.div_add_mod]
      obtain ⟨value⟩ := key
      obtain ⟨value'⟩ := key'
      exact congrArg Addr2.mk (UInt32.toNat_inj.mp hvalue)
  rw [Set.ncard_coe_finset, Finset.card_range] at hle
  omega

theorem hash_counts_clients :
    (∀ before, before <+: [HashCall.add (⟨7⟩ : Addr2), .add ⟨13207⟩, .add ⟨7⟩, .remove ⟨13207⟩] →
        HasRoom (numbers before)) ∧
      ∃ t, run HashObjects.step .new
          [HashCall.add (⟨7⟩ : Addr2), .add ⟨13207⟩, .add ⟨7⟩, .remove ⟨13207⟩] = some t ∧
        CountingMap t
          (numbers [HashCall.add (⟨7⟩ : Addr2), .add ⟨13207⟩, .add ⟨7⟩, .remove ⟨13207⟩]) :=
  ⟨fun before _ => hasRoom_addr2 (numbers before),
    hash_counts _ fun before _ => hasRoom_addr2 (numbers before)⟩

theorem numbers_replicate {α : Type*} [DecidableEq α] (key : α) (n : ℕ) :
    numbers (List.replicate n (.add key)) key = n := by
  induction n with
  | zero => rfl
  | succ n ih =>
      rw [List.replicate_succ', numbers, List.foldl_append, ← numbers, List.foldl_cons,
        List.foldl_nil, HashCall.number, update_self, ih]

/-- The counter of a node is an `int`: the 2^31st `add` of a key makes it negative. -/
theorem hash_count_overflows :
    ¬ ∀ calls : List (HashCall Addr2), ∃ t, run HashObjects.step .new calls = some t ∧
      ∀ key n, t.find key = some (some n) → (t.nodeCnt n).toInt = numbers calls key := by
  intro hall
  obtain ⟨t, hrun, hcnt⟩ := hall (List.replicate (2 ^ 31) (.add ⟨7⟩))
  obtain ⟨t', chain, hrun', h⟩ := run_holdsNumbers (List.replicate (2 ^ 31) (.add (⟨7⟩ : Addr2)))
    fun before _ => hasRoom_addr2 (numbers before)
  obtain rfl : t = t' := Option.some.inj (hrun.symm.trans hrun')
  have hnumber := numbers_replicate (⟨7⟩ : Addr2) (2 ^ 31)
  obtain ⟨n, hn, hvalue, hfind⟩ := h.find_present (hasRoom_addr2 _)
    (show 0 < numbers (List.replicate (2 ^ 31) (.add (⟨7⟩ : Addr2))) ⟨7⟩ by
      rw [hnumber]
      exact Nat.two_pow_pos 31)
  have hnode := (h.counted _ n hn).2
  have hint := hcnt ⟨7⟩ n hfind
  rw [hnode, hvalue, hnumber] at hint
  exact absurd hint (by decide)

end MonitoringTool.Sniffer
