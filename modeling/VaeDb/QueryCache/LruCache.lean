import Mathlib.Logic.Function.Basic
import VaeDb.Schemes.Recency

/-! The LRU cache: a list of nodes, an index of iterators into it, and a running size.

    An iterator of a `std::list` is the identity of a node: it stays good while nodes move, and goes
    bad when its node is erased. The index has one iterator for each key. Following an iterator whose
    node is gone, following `end()` and stepping back from the `end()` of an empty list are undefined
    (`none`). Sizes are `unsigned long`.

        _list    [ #7 k ↦ d ] ─ [ #3 k' ↦ d' ] ─ [ #5 k'' ↦ d'' ]
        _index     k ──▶ #7        k' ──▶ #3         k'' ──▶ #5

    The index never holds a bad iterator, so every run of the operations is defined; and each
    operation answers as it would on the plain list of entries, the one used last in front. -/

namespace VaeDb.LruCache
open Schemes

structure Node (Key Data : Type) where
  id : ℕ
  first : Key
  second : Data
  deriving DecidableEq

structure LRUCache (Key Data : Type) where
  _list : List (Node Key Data)
  _index : Key → Option ℕ
  _max_size : UInt64
  _curr_size : UInt64
  /-- the number of nodes made so far -/
  made : ℕ

namespace LRUCache

variable {Key Data : Type}

def new (Size : UInt64) : LRUCache Key Data := ⟨[], fun _ => none, Size, 0, 0⟩

/-- `*it`. -/
def node (c : LRUCache Key Data) (it : ℕ) : Option (Node Key Data) := c._list.find? fun n => n.id = it

/-- `_list.splice(_list.begin(), _list, it)`. -/
def splice (c : LRUCache Key Data) (it : ℕ) : Option (LRUCache Key Data) := do
  let n ← c.node it
  pure { c with _list := n :: c._list.filter fun n => n.id ≠ it }

/-- `_list.erase(it)`. -/
def erase (c : LRUCache Key Data) (it : ℕ) : Option (LRUCache Key Data) := do
  let _ ← c.node it
  pure { c with _list := c._list.filter fun n => n.id ≠ it }

def clear (c : LRUCache Key Data) : LRUCache Key Data :=
  { c with _list := [], _index := fun _ => none, _curr_size := 0 }

def existsKey (c : LRUCache Key Data) (key : Key) : Bool := (c._index key).isSome

def get_all_keys (c : LRUCache Key Data) : List Key := c._list.map Node.first

/-- `_touch`, and the iterator that the index has for the key. -/
def _touch (c : LRUCache Key Data) (key : Key) : Option (LRUCache Key Data × Option ℕ) :=
  match c._index key with
  | none => some (c, none)
  | some it => do
    let c ← c.splice it
    pure (c, some it)

def touch (c : LRUCache Key Data) (key : Key) : Option (LRUCache Key Data) :=
  (c._touch key).map Prod.fst

/-- `fetch_ptr`, whose second argument is not used: the data at the pointer. -/
def fetch_ptr (c : LRUCache Key Data) (key : Key) (_touch : Bool) :
    Option (Option Data × LRUCache Key Data) :=
  match c._index key with
  | none => some (none, c)
  | some it => do
    let (c, _) ← c._touch key
    let n ← c.node it
    pure (some n.second, c)

/-- The `fetch` that returns a copy, or `Data()`. -/
def fetch [Inhabited Data] (c : LRUCache Key Data) (key : Key) (touch_data : Bool) :
    Option (Data × LRUCache Key Data) :=
  match c._index key with
  | none => some (default, c)
  | some it => do
    let n ← c.node it
    if touch_data then
      let (c, _) ← c._touch key
      pure (n.second, c)
    else pure (n.second, c)

/-- The `fetch` that fills `data` in, or leaves it. -/
def fetchInto (c : LRUCache Key Data) (key : Key) (touch_data : Bool) :
    Option (Option Data × LRUCache Key Data) :=
  match c._index key with
  | none => some (none, c)
  | some it => do
    let c ← if touch_data then c.splice it else pure c
    let n ← c.node it
    pure (some n.second, c)

section Operations

variable [DecidableEq Key] (Sizefn : Data → UInt64)

/-- `_remove`, of the entry of the index for `key`. -/
def _remove (c : LRUCache Key Data) (key : Key) : Option (LRUCache Key Data) := do
  let it ← c._index key
  let n ← c.node it
  let c ← { c with _curr_size := c._curr_size - Sizefn n.second }.erase it
  pure { c with _index := Function.update c._index key none }

def remove (c : LRUCache Key Data) (key : Key) : Option (LRUCache Key Data) :=
  match c._index key with
  | none => some c
  | some _ => c._remove Sizefn key

/-- `_list.push_front`, and its iterator in the index unless the index has one for the key. -/
def push_front (c : LRUCache Key Data) (key : Key) (data : Data) : LRUCache Key Data :=
  { c with
    _list := ⟨c.made, key, data⟩ :: c._list
    _index := match c._index key with
      | some _ => c._index
      | none => Function.update c._index key (some c.made)
    _curr_size := c._curr_size + Sizefn data
    made := c.made + 1 }

/-- The loop of `insert`: while the size is exceeded, remove the last node. Each turn erases one of
    the `n` nodes, so after that many `_list.end()` has none before it. -/
def evict : ℕ → LRUCache Key Data → Option (LRUCache Key Data)
  | 0, c => if c._max_size < c._curr_size then none else some c
  | n + 1, c =>
    if c._max_size < c._curr_size then do
      let last ← c._list.getLast?
      let c ← c._remove Sizefn last.first
      evict n c
    else some c

def insert (c : LRUCache Key Data) (key : Key) (data : Data) : Option (LRUCache Key Data) := do
  let (c, miter) ← c._touch key
  let c ← if miter.isSome then c._remove Sizefn key else pure c
  let c := c.push_front Sizefn key data
  evict Sizefn c._list.length c

/-! ### Runs -/

inductive Op (Key Data : Type) where
  | size
  | clear
  | existsKey (key : Key)
  | remove (key : Key)
  | touch (key : Key)
  | fetch_ptr (key : Key) (touch : Bool)
  | fetch (key : Key) (touch_data : Bool)
  | fetchInto (key : Key) (touch_data : Bool)
  | insert (key : Key) (data : Data)
  | get_all_keys

inductive Answer (Key Data : Type) where
  | done
  | size (n : ℕ)
  | bool (b : Bool)
  | pointer (data : Option Data)
  | data (data : Data)
  | keys (keys : List Key)
  deriving DecidableEq

def call [Inhabited Data] (c : LRUCache Key Data) :
    Op Key Data → Option (Answer Key Data × LRUCache Key Data)
  | .size => some (.size c._curr_size.toNat, c)
  | .clear => some (.done, c.clear)
  | .existsKey key => some (.bool (c.existsKey key), c)
  | .remove key => (c.remove Sizefn key).map fun c => (.done, c)
  | .touch key => (c.touch key).map fun c => (.done, c)
  | .fetch_ptr key touch => (c.fetch_ptr key touch).map fun (d, c) => (.pointer d, c)
  | .fetch key touch_data => (c.fetch key touch_data).map fun (d, c) => (.data d, c)
  | .fetchInto key touch_data => (c.fetchInto key touch_data).map fun (d, c) => (.pointer d, c)
  | .insert key data => (c.insert Sizefn key data).map fun c => (.done, c)
  | .get_all_keys => some (.keys c.get_all_keys, c)

def calls [Inhabited Data] (c : LRUCache Key Data) :
    List (Op Key Data) → Option (List (Answer Key Data) × LRUCache Key Data)
  | [] => some ([], c)
  | op :: ops => do
    let (answer, c) ← c.call Sizefn op
    let (answers, c) ← c.calls ops
    pure (answer :: answers, c)

/-! ### The plain list of entries -/

/-- What an operation answers and leaves on the list of entries, the one used last in front. -/
def onList [Inhabited Data] (size : Data → ℕ) (room : ℕ) (l : List (Key × Data)) :
    Op Key Data → Answer Key Data × List (Key × Data)
  | .size => (.size (Recency.total size l), l)
  | .clear => (.done, [])
  | .existsKey key => (.bool (Recency.lookup l key).isSome, l)
  | .remove key => (.done, Recency.without key l)
  | .touch key => (.done, Recency.toFront key l)
  | .fetch_ptr key _ => (.pointer (Recency.lookup l key), Recency.toFront key l)
  | .fetch key touch_data =>
    (.data ((Recency.lookup l key).getD default), if touch_data then Recency.toFront key l else l)
  | .fetchInto key touch_data =>
    (.pointer (Recency.lookup l key), if touch_data then Recency.toFront key l else l)
  | .insert key data =>
    (.done, Recency.fitting size room ((key, data) :: Recency.without key l))
  | .get_all_keys => (.keys (l.map Prod.fst), l)

def onLists [Inhabited Data] (size : Data → ℕ) (room : ℕ) (l : List (Key × Data)) :
    List (Op Key Data) → List (Answer Key Data) × List (Key × Data)
  | [] => ([], l)
  | op :: ops =>
    let (answer, l) := onList size room l op
    let (answers, l) := onLists size room l ops
    (answer :: answers, l)

end Operations

/-! ### The invariant -/

variable {Sizefn : Data → UInt64} {c : LRUCache Key Data} {key : Key} {data : Data} {it : ℕ}

def entry (n : Node Key Data) : Key × Data := (n.first, n.second)

def entries (c : LRUCache Key Data) : List (Key × Data) := c._list.map entry

/-- The index has an iterator to the node of each key, and no others; the size is the sum. -/
structure Linked (Sizefn : Data → UInt64) (c : LRUCache Key Data) : Prop where
  ids : (c._list.map Node.id).Nodup
  keys : (c._list.map Node.first).Nodup
  made : ∀ n ∈ c._list, n.id < c.made
  index : ∀ key it, c._index key = some it ↔ ∃ n ∈ c._list, n.first = key ∧ n.id = it
  curr_size : c._curr_size.toNat = Recency.total (fun d => (Sizefn d).toNat) c.entries

/-- The cache between two operations: the size is within its bound. -/
structure Sound (Sizefn : Data → UInt64) (c : LRUCache Key Data) : Prop extends Linked Sizefn c where
  size_le : c._curr_size ≤ c._max_size

theorem sound_new (Size : UInt64) : Sound Sizefn (new Size : LRUCache Key Data) where
  ids := List.nodup_nil
  keys := List.nodup_nil
  made := by simp [new]
  index := by simp [new]
  curr_size := rfl
  size_le := by simp [new]

theorem sound_clear (c : LRUCache Key Data) : Sound Sizefn c.clear where
  ids := List.nodup_nil
  keys := List.nodup_nil
  made := by simp [clear]
  index := by simp [clear]
  curr_size := rfl
  size_le := by simp [clear]

theorem keys_entries (c : LRUCache Key Data) : c.entries.map Prod.fst = c._list.map Node.first := by
  rw [entries, List.map_map]
  rfl

namespace Linked

variable (h : Linked Sizefn c)

include h

theorem nodup_entries : (c.entries.map Prod.fst).Nodup := by
  rw [keys_entries]
  exact h.keys

theorem node_eq {n : Node Key Data} (hn : n ∈ c._list) : c.node n.id = some n := by
  rw [node]
  cases hf : c._list.find? fun m => m.id = n.id with
  | none => simpa using List.find?_eq_none.mp hf n hn
  | some m =>
    have hid : m.id = n.id := by simpa using List.find?_some hf
    rw [List.inj_on_of_nodup_map h.ids (List.mem_of_find?_eq_some hf) hn hid]

/-- An iterator of the index can be followed, and leads to the node of its key. -/
theorem follow (hit : c._index key = some it) :
    ∃ n ∈ c._list, n.first = key ∧ n.id = it ∧ c.node it = some n := by
  obtain ⟨n, hn, hfirst, rfl⟩ := (h.index key it).mp hit
  exact ⟨n, hn, hfirst, rfl, h.node_eq hn⟩

theorem index_eq_none : c._index key = none ↔ key ∉ c.entries.map Prod.fst := by
  rw [keys_entries, ← not_iff_not, not_not, ← ne_eq, Option.ne_none_iff_exists']
  simp only [h.index, List.mem_map]
  constructor
  · rintro ⟨_, n, hn, hfirst, -⟩
    exact ⟨n, hn, hfirst⟩
  · rintro ⟨n, hn, hfirst⟩
    exact ⟨n.id, n, hn, hfirst, rfl⟩

variable [DecidableEq Key]

theorem lookup_none (hit : c._index key = none) : Recency.lookup c.entries key = none :=
  Recency.lookup_eq_none.mpr (h.index_eq_none.mp hit)

theorem lookup_some {n : Node Key Data} (hn : n ∈ c._list) :
    Recency.lookup c.entries n.first = some n.second :=
  (Recency.lookup_eq_some h.nodup_entries).mpr (List.mem_map_of_mem hn)

/-- The nodes other than one are the nodes of the other keys. -/
theorem filter_ids {n : Node Key Data} (hn : n ∈ c._list) :
    (c._list.filter fun m => m.id ≠ n.id) = c._list.filter fun m => m.first ≠ n.first := by
  refine List.filter_congr fun m hm => ?_
  have hiff : m.id = n.id ↔ m.first = n.first :=
    ⟨fun heq => by rw [List.inj_on_of_nodup_map h.ids hm hn heq],
      fun heq => by rw [List.inj_on_of_nodup_map h.keys hm hn heq]⟩
  simp [hiff]

theorem entries_filter {n : Node Key Data} (hn : n ∈ c._list) :
    (c._list.filter fun m => m.id ≠ n.id).map entry = Recency.without n.first c.entries := by
  rw [h.filter_ids hn, Recency.without, entries, List.filter_map]
  rfl

end Linked

/-! ### What each operation does -/

/-- The outcome is defined, linked again, and its entries are `l`. -/
def Leaves (Sizefn : Data → UInt64) (c : LRUCache Key Data) (l : List (Key × Data))
    (out : Option (LRUCache Key Data)) : Prop :=
  ∃ c', out = some c' ∧ Linked Sizefn c' ∧ c'.entries = l ∧ c'._max_size = c._max_size

section Specifications

variable [DecidableEq Key]

theorem Linked.splice (h : Linked Sizefn c) {n : Node Key Data} (hn : n ∈ c._list) :
    ∃ c', c.splice n.id = some c' ∧ Linked Sizefn c' ∧ c'._max_size = c._max_size ∧
      c'._curr_size = c._curr_size ∧ n ∈ c'._list ∧
      c'.entries = Recency.toFront n.first c.entries := by
  have hentries : (n :: c._list.filter fun m => m.id ≠ n.id).map entry
      = Recency.toFront n.first c.entries := by
    rw [List.map_cons, h.entries_filter hn]
    exact (Recency.toFront_of_mem h.nodup_entries (List.mem_map_of_mem hn)).symm
  have hmem : ∀ m, m ∈ n :: c._list.filter (fun m => m.id ≠ n.id) ↔ m ∈ c._list := by
    intro m
    simp only [List.mem_cons, List.mem_filter, decide_eq_true_eq, ne_eq]
    constructor
    · rintro (rfl | ⟨hm, -⟩) <;> assumption
    · intro hm
      by_cases hid : m.id = n.id
      · exact .inl (List.inj_on_of_nodup_map h.ids hm hn hid)
      · exact .inr ⟨hm, hid⟩
  refine ⟨{ c with _list := n :: c._list.filter fun m => m.id ≠ n.id }, ?_, ?_, rfl, rfl,
    List.mem_cons_self, hentries⟩
  · rw [LRUCache.splice, h.node_eq hn]
    rfl
  · exact {
      ids := by
        rw [List.map_cons, List.nodup_cons]
        refine ⟨fun hid => ?_, h.ids.sublist (List.filter_sublist.map _)⟩
        obtain ⟨m, hm, heq⟩ := List.mem_map.mp hid
        exact of_decide_eq_true (List.mem_filter.mp hm).2 heq
      keys := by
        rw [List.map_cons, List.nodup_cons, h.filter_ids hn]
        refine ⟨fun hkey => ?_, h.keys.sublist (List.filter_sublist.map _)⟩
        obtain ⟨m, hm, heq⟩ := List.mem_map.mp hkey
        exact of_decide_eq_true (List.mem_filter.mp hm).2 heq
      made := fun m hm => h.made m ((hmem m).mp hm)
      index := fun key it => by
        rw [h.index]
        exact exists_congr fun m => and_congr_left fun _ => (hmem m).symm
      curr_size := by
        rw [entries, hentries, Recency.total_toFront h.nodup_entries]
        exact h.curr_size }

/-- Using a node: what `_touch` and `splice` do to the key of a node that is there. -/
theorem Sound.used (h : Sound Sizefn c) {n : Node Key Data} (hn : n ∈ c._list) :
    ∃ c', c.splice n.id = some c' ∧ c._touch n.first = some (c', some n.id) ∧ Sound Sizefn c' ∧
      c'.node n.id = some n ∧ c'._max_size = c._max_size ∧
      c'.entries = Recency.toFront n.first c.entries := by
  obtain ⟨c', hc', hlinked, hmax, hcurr, hn', hentries⟩ := h.splice hn
  refine ⟨c', hc', ?_, ⟨hlinked, by rw [hmax, hcurr]; exact h.size_le⟩, hlinked.node_eq hn', hmax,
    hentries⟩
  rw [_touch, (h.index _ _).mpr ⟨n, hn, rfl, rfl⟩]
  simp only [hc', Option.bind_eq_bind, Option.bind_some, Option.pure_def]

/-- Either the index has nothing for a key, or it leads to the node of the key. -/
theorem Linked.found (h : Linked Sizefn c) (key : Key) :
    (c._index key = none ∧ Recency.lookup c.entries key = none ∧
      Recency.toFront key c.entries = c.entries ∧ Recency.without key c.entries = c.entries) ∨
    ∃ n ∈ c._list, n.first = key ∧ c._index key = some n.id ∧ c.node n.id = some n ∧
      Recency.lookup c.entries key = some n.second := by
  cases hit : c._index key with
  | none =>
    have hnot := h.index_eq_none.mp hit
    exact .inl ⟨rfl, h.lookup_none hit, Recency.toFront_of_not_mem hnot,
      Recency.without_of_not_mem hnot⟩
  | some it =>
    obtain ⟨n, hn, rfl, rfl, hnode⟩ := h.follow hit
    exact .inr ⟨n, hn, rfl, rfl, hnode, h.lookup_some hn⟩

theorem Linked.touched (h : Linked Sizefn c) (key : Key) :
    ∃ c', c._touch key = some (c', c._index key) ∧ Linked Sizefn c' ∧
      c'._max_size = c._max_size ∧ c'._curr_size = c._curr_size ∧ c'._index = c._index ∧
      c'.entries = Recency.toFront key c.entries := by
  rw [_touch]
  cases hit : c._index key with
  | none =>
    refine ⟨c, rfl, h, rfl, rfl, rfl, ?_⟩
    rw [Recency.toFront_of_not_mem (h.index_eq_none.mp hit)]
  | some it =>
    obtain ⟨n, hn, rfl, rfl, -⟩ := h.follow hit
    obtain ⟨c', hc', hlinked, hmax, hcurr, -, hentries⟩ := h.splice hn
    refine ⟨c', ?_, hlinked, hmax, hcurr, ?_, hentries⟩
    · simp only [hc', Option.bind_eq_bind, Option.bind_some, Option.pure_def]
    · rw [LRUCache.splice, h.node_eq hn] at hc'
      exact (Option.some.inj hc') ▸ rfl

theorem Linked.removed (h : Linked Sizefn c) {n : Node Key Data} (hn : n ∈ c._list) :
    Leaves Sizefn c (Recency.without n.first c.entries) (c._remove Sizefn n.first) := by
  have hindex : c._index n.first = some n.id := (h.index _ _).mpr ⟨n, hn, rfl, rfl⟩
  have htotal := Recency.total_without (fun d => (Sizefn d).toNat) h.nodup_entries
    (List.mem_map_of_mem hn : entry n ∈ c.entries)
  have hle : Sizefn n.second ≤ c._curr_size := by
    rw [UInt64.le_iff_toNat_le, h.curr_size, ← htotal]
    exact Nat.le_add_right _ _
  have hcurr : (c._curr_size - Sizefn n.second).toNat
      = Recency.total (fun d => (Sizefn d).toNat) (Recency.without n.first c.entries) := by
    rw [UInt64.toNat_sub_of_le _ _ hle, h.curr_size, ← htotal]
    exact Nat.add_sub_cancel_left _ _
  refine ⟨{ c with
    _list := c._list.filter fun m => m.id ≠ n.id
    _index := Function.update c._index n.first none
    _curr_size := c._curr_size - Sizefn n.second }, ?_, ?_, h.entries_filter hn, rfl⟩
  · rw [_remove, hindex, Option.bind_eq_bind, Option.bind_some, h.node_eq hn]
    simp only [Option.bind_eq_bind, Option.bind_some, LRUCache.erase]
    have hnode : LRUCache.node { c with _curr_size := c._curr_size - Sizefn n.second } n.id
        = some n := h.node_eq hn
    rw [hnode]
    rfl
  · exact {
      ids := h.ids.sublist (List.filter_sublist.map _)
      keys := h.keys.sublist (List.filter_sublist.map _)
      made := fun m hm => h.made m (List.mem_of_mem_filter hm)
      index := fun key it => by
        rw [h.filter_ids hn]
        simp only [List.mem_filter, decide_eq_true_eq]
        rcases eq_or_ne key n.first with rfl | hne
        · rw [Function.update_self]
          constructor
          · intro h
            cases h
          · rintro ⟨m, ⟨-, hm⟩, heq, -⟩
            exact absurd heq hm
        · rw [Function.update_of_ne hne, h.index]
          constructor
          · rintro ⟨m, hm, rfl, rfl⟩
            exact ⟨m, ⟨hm, hne⟩, rfl, rfl⟩
          · rintro ⟨m, ⟨hm, -⟩, rfl, rfl⟩
            exact ⟨m, hm, rfl, rfl⟩
      curr_size := hcurr.trans (congrArg _ (h.entries_filter hn).symm) }

theorem Linked.pushed (h : Linked Sizefn c) (hkey : c._index key = none)
    (hsize : c._curr_size.toNat + (Sizefn data).toNat < 2 ^ 64) :
    Linked Sizefn (c.push_front Sizefn key data) := by
  have hnot : ∀ n ∈ c._list, n.first ≠ key := by
    rintro n hn rfl
    rw [(h.index _ _).mpr ⟨n, hn, rfl, rfl⟩] at hkey
    cases hkey
  have hindex : (c.push_front Sizefn key data)._index
      = Function.update c._index key (some c.made) := by
    simp only [push_front, hkey]
  exact {
    ids := by
      refine List.nodup_cons.mpr ⟨fun hid => ?_, h.ids⟩
      obtain ⟨n, hn, heq⟩ := List.mem_map.mp hid
      exact absurd heq (h.made n hn).ne
    keys := by
      refine List.nodup_cons.mpr ⟨fun hk => ?_, h.keys⟩
      obtain ⟨n, hn, heq⟩ := List.mem_map.mp hk
      exact hnot n hn heq
    made := fun n hn => by
      rcases List.mem_cons.mp hn with rfl | hn
      · exact Nat.lt_succ_self _
      · exact Nat.lt_succ_of_lt (h.made n hn)
    index := fun key' it => by
      rw [hindex]
      simp only [push_front, List.mem_cons, exists_eq_or_imp]
      rcases eq_or_ne key' key with rfl | hne
      · rw [Function.update_self, Option.some.injEq]
        constructor
        · exact fun hit => .inl ⟨rfl, hit⟩
        · rintro (⟨-, hit⟩ | ⟨n, hn, heq, -⟩)
          · exact hit
          · exact absurd heq (hnot n hn)
      · rw [Function.update_of_ne hne, h.index]
        simp only [hne.symm, false_and, false_or]
    curr_size := by
      have hcurr : (c._curr_size + Sizefn data).toNat
          = c._curr_size.toNat + (Sizefn data).toNat := by
        rw [UInt64.toNat_add, Nat.mod_eq_of_lt hsize]
      rw [push_front, entries, List.map_cons, Recency.total_cons, hcurr, h.curr_size]
      exact Nat.add_comm _ _ }

/-- The loop leaves what fits. -/
theorem Linked.evicted : ∀ (n : ℕ) {c : LRUCache Key Data}, Linked Sizefn c →
    c._list.length ≤ n → ∃ c', evict Sizefn n c = some c' ∧ Sound Sizefn c' ∧
      c'.entries = Recency.fitting (fun d => (Sizefn d).toNat) c._max_size.toNat c.entries ∧
      c'._max_size = c._max_size
  | n, c, h, hn => by
      by_cases hlt : c._max_size < c._curr_size
      · rcases List.eq_nil_or_concat' c._list with hnil | ⟨l, last, hlist⟩
        · rw [UInt64.lt_iff_toNat_lt, h.curr_size, entries, hnil] at hlt
          exact absurd hlt (Nat.not_lt_zero _)
        · have hlen : c._list.length = l.length + 1 := by simp [hlist]
          have hmem : last ∈ c._list := by simp [hlist]
          have hentries : c.entries = l.map entry ++ [entry last] := by simp [entries, hlist]
          cases n with
          | zero => omega
          | succ n =>
            obtain ⟨c', hc', hlinked, hrest, hmax⟩ := h.removed hmem
            have hl : c'.entries = l.map entry := by
              have hkeys := h.nodup_entries
              rw [hentries] at hrest hkeys
              exact hrest.trans (Recency.without_concat hkeys)
            have hlen' : c'._list.length = l.length := by
              simpa [entries] using congrArg List.length hl
            obtain ⟨c₂, hc₂, hsound, hfits, hmax₂⟩ := hlinked.evicted n (by omega)
            refine ⟨c₂, ?_, hsound, ?_, hmax₂.trans hmax⟩
            · rw [evict, if_pos hlt, hlist, List.getLast?_concat]
              simp only [Option.bind_eq_bind, Option.bind_some, hc', hc₂]
            · rw [UInt64.lt_iff_toNat_lt, h.curr_size, hentries] at hlt
              rw [hfits, hmax, hl, hentries, Recency.fitting_concat hlt]
      · have hle : c._curr_size ≤ c._max_size := UInt64.not_lt.mp hlt
        have hfits := Recency.fitting_eq_self
          (h.curr_size.symm.le.trans (UInt64.le_iff_toNat_le.mp hle))
        refine ⟨c, ?_, ⟨h, hle⟩, hfits.symm, rfl⟩
        cases n <;> rw [evict, if_neg hlt]

theorem Sound.inserted (h : Sound Sizefn c) (key : Key) {data : Data}
    (hsize : c._max_size.toNat + (Sizefn data).toNat < 2 ^ 64) :
    ∃ c', c.insert Sizefn key data = some c' ∧ Sound Sizefn c' ∧
      c'.entries = Recency.fitting (fun d => (Sizefn d).toNat) c._max_size.toNat
        ((key, data) :: Recency.without key c.entries) ∧ c'._max_size = c._max_size := by
  -- the entry of an older insert is out before the new node goes in
  have hout : ∃ c₁, ((c._touch key).bind fun (c, miter) =>
      if miter.isSome then c._remove Sizefn key else pure c) = some c₁ ∧ Linked Sizefn c₁ ∧
      c₁.entries = Recency.without key c.entries ∧ c₁._max_size = c._max_size := by
    obtain ⟨c₀, hc₀, hlinked, hmax, -, hindex, hentries⟩ := h.touched key
    rw [hc₀, Option.bind_some]
    cases hit : c._index key with
    | none =>
      have hnot := h.index_eq_none.mp hit
      refine ⟨c₀, rfl, hlinked, ?_, hmax⟩
      rw [hentries, Recency.toFront_of_not_mem hnot, Recency.without_of_not_mem hnot]
    | some it =>
      obtain ⟨n, hn, rfl, -, -⟩ := hlinked.follow (hindex ▸ hit)
      obtain ⟨c₁, hc₁, hlinked₁, hentries₁, hmax₁⟩ := hlinked.removed hn
      refine ⟨c₁, hc₁, hlinked₁, ?_, hmax₁.trans hmax⟩
      rw [hentries₁, hentries, Recency.without_toFront]
  obtain ⟨c₁, hc₁, hlinked, hentries, hmax⟩ := hout
  have hkey : c₁._index key = none := by
    rw [hlinked.index_eq_none, hentries, List.mem_map]
    rintro ⟨e, he, rfl⟩
    exact (Recency.mem_without.mp he).2 rfl
  have hcurr : c₁._curr_size.toNat + (Sizefn data).toNat < 2 ^ 64 := by
    have hle := UInt64.le_iff_toNat_le.mp h.size_le
    have hsum := Recency.total_without_le (fun d => (Sizefn d).toNat) key c.entries
    rw [h.curr_size] at hle
    rw [hlinked.curr_size, hentries]
    omega
  obtain ⟨c', hc', hsound, hfits, hmax'⟩ := (hlinked.pushed hkey hcurr).evicted _ le_rfl
  refine ⟨c', ?_, hsound, ?_, hmax'.trans hmax⟩
  · rw [LRUCache.insert]
    rw [Option.bind_eq_some_iff] at hc₁
    obtain ⟨⟨c₀, miter⟩, hc₀, hc₁⟩ := hc₁
    dsimp only at hc₁
    simp only [Option.bind_eq_bind, hc₀, Option.bind_some]
    by_cases hm : miter.isSome
    · rw [if_pos hm] at hc₁ ⊢
      rw [hc₁]
      exact hc'
    · rw [if_neg hm] at hc₁ ⊢
      rw [hc₁]
      exact hc'
  · rw [hfits, ← hentries, ← hmax]
    rfl

/-! ### Every operation, and every run -/

theorem Sound.call [Inhabited Data] (h : Sound Sizefn c) (op : Op Key Data)
    (hsize : ∀ key data, op = .insert key data →
      c._max_size.toNat + (Sizefn data).toNat < 2 ^ 64) :
    ∃ c', c.call Sizefn op = some
        ((onList (fun d => (Sizefn d).toNat) c._max_size.toNat c.entries op).1, c') ∧
      Sound Sizefn c' ∧ c'._max_size = c._max_size ∧
      c'.entries = (onList (fun d => (Sizefn d).toNat) c._max_size.toNat c.entries op).2 := by
  cases op with
  | size => exact ⟨c, by rw [LRUCache.call, h.curr_size]; rfl, h, rfl, rfl⟩
  | clear => exact ⟨c.clear, rfl, sound_clear c, rfl, rfl⟩
  | get_all_keys => exact ⟨c, by rw [onList, keys_entries]; rfl, h, rfl, rfl⟩
  | existsKey key =>
    refine ⟨c, ?_, h, rfl, rfl⟩
    rw [LRUCache.call, LRUCache.existsKey, onList]
    rcases h.found key with ⟨hit, hlook, -, -⟩ | ⟨n, -, -, hit, -, hlook⟩
    · rw [hit, hlook]
      rfl
    · rw [hit, hlook]
      rfl
  | remove key =>
    rw [LRUCache.call, LRUCache.remove, onList]
    rcases h.found key with ⟨hit, -, -, hout⟩ | ⟨n, hn, rfl, hit, -, -⟩
    · exact ⟨c, by rw [hit]; rfl, h, rfl, hout.symm⟩
    · obtain ⟨c', hc', hlinked, hentries, hmax⟩ := h.removed hn
      refine ⟨c', by rw [hit]; simp only [hc', Option.map_some], ⟨hlinked, ?_⟩, hmax, hentries⟩
      have hle := UInt64.le_iff_toNat_le.mp h.size_le
      have hsum := Recency.total_without_le (fun d => (Sizefn d).toNat) n.first c.entries
      rw [UInt64.le_iff_toNat_le, hlinked.curr_size, hentries, hmax]
      rw [h.curr_size] at hle
      exact hsum.trans hle
  | touch key =>
    rw [LRUCache.call, LRUCache.touch, onList]
    rcases h.found key with ⟨hit, -, hfront, -⟩ | ⟨n, hn, rfl, hit, -, -⟩
    · exact ⟨c, by rw [_touch, hit]; rfl, h, rfl, hfront.symm⟩
    · obtain ⟨c', -, htouch, hsound, -, hmax, hentries⟩ := h.used hn
      exact ⟨c', by rw [htouch]; rfl, hsound, hmax, hentries⟩
  | fetch_ptr key touch =>
    rw [LRUCache.call, LRUCache.fetch_ptr, onList]
    rcases h.found key with ⟨hit, hlook, hfront, -⟩ | ⟨n, hn, rfl, hit, -, hlook⟩
    · exact ⟨c, by rw [hit, hlook]; rfl, h, rfl, hfront.symm⟩
    · obtain ⟨c', -, htouch, hsound, hnode, hmax, hentries⟩ := h.used hn
      refine ⟨c', ?_, hsound, hmax, hentries⟩
      rw [hit, hlook]
      simp only [htouch, hnode, Option.bind_eq_bind, Option.bind_some, Option.pure_def,
        Option.map_some]
  | fetch key touch_data =>
    rw [LRUCache.call, LRUCache.fetch, onList]
    rcases h.found key with ⟨hit, hlook, hfront, -⟩ | ⟨n, hn, rfl, hit, hnode, hlook⟩
    · refine ⟨c, by rw [hit, hlook]; rfl, h, rfl, ?_⟩
      rw [hfront, ite_self]
    · cases touch_data with
      | false =>
        refine ⟨c, ?_, h, rfl, rfl⟩
        rw [hit, hlook]
        simp only [hnode, Option.bind_eq_bind, Option.bind_some]
        rfl
      | true =>
        obtain ⟨c', -, htouch, hsound, -, hmax, hentries⟩ := h.used hn
        refine ⟨c', ?_, hsound, hmax, hentries⟩
        rw [hit, hlook]
        simp only [hnode, htouch, Option.bind_eq_bind, Option.bind_some]
        rfl
  | fetchInto key touch_data =>
    rw [LRUCache.call, LRUCache.fetchInto, onList]
    rcases h.found key with ⟨hit, hlook, hfront, -⟩ | ⟨n, hn, rfl, hit, hnode, hlook⟩
    · refine ⟨c, by rw [hit, hlook]; rfl, h, rfl, ?_⟩
      rw [hfront, ite_self]
    · cases touch_data with
      | false =>
        refine ⟨c, ?_, h, rfl, rfl⟩
        rw [hit, hlook]
        simp only [Bool.false_eq_true, if_false, Option.bind_eq_bind, Option.pure_def,
          Option.bind_some, hnode, Option.map_some]
      | true =>
        obtain ⟨c', hsplice, -, hsound, hnode', hmax, hentries⟩ := h.used hn
        refine ⟨c', ?_, hsound, hmax, hentries⟩
        rw [hit, hlook]
        simp only [if_true, hsplice, Option.bind_eq_bind, Option.bind_some, hnode', Option.pure_def,
          Option.map_some]
  | insert key data =>
    obtain ⟨c', hc', hsound, hentries, hmax⟩ := h.inserted key (hsize key data rfl)
    exact ⟨c', by rw [LRUCache.call, hc']; rfl, hsound, hmax, hentries⟩

theorem Sound.calls [Inhabited Data] : ∀ (ops : List (Op Key Data)) {c : LRUCache Key Data},
    Sound Sizefn c → (∀ key data, Op.insert key data ∈ ops →
      c._max_size.toNat + (Sizefn data).toNat < 2 ^ 64) →
    ∃ c', c.calls Sizefn ops = some
        ((onLists (fun d => (Sizefn d).toNat) c._max_size.toNat c.entries ops).1, c') ∧
      Sound Sizefn c' ∧
      c'.entries = (onLists (fun d => (Sizefn d).toNat) c._max_size.toNat c.entries ops).2
  | [], c, h, _ => ⟨c, rfl, h, rfl⟩
  | op :: ops, c, h, hsize => by
      obtain ⟨c₁, hc₁, hsound, hmax, hentries⟩ := h.call op fun key data hop =>
        hsize key data (hop ▸ List.mem_cons_self)
      obtain ⟨c₂, hc₂, hsound₂, hentries₂⟩ := hsound.calls ops fun key data hop =>
        hmax ▸ hsize key data (List.mem_cons_of_mem _ hop)
      rw [hmax, hentries] at hc₂ hentries₂
      refine ⟨c₂, ?_, hsound₂, hentries₂⟩
      rw [LRUCache.calls, hc₁]
      simp only [Option.bind_eq_bind, Option.bind_some, hc₂, Option.pure_def]
      rfl

/-- CORRECT: no run of the operations follows a bad iterator, and after every run index and list
    agree and the size, which is the sum of the sizes, is within its bound. -/
theorem calls_sound [Inhabited Data] (Size : UInt64) (Sizefn : Data → UInt64)
    (ops : List (Op Key Data)) (hsize : ∀ key data, Op.insert key data ∈ ops →
      Size.toNat + (Sizefn data).toNat < 2 ^ 64) :
    ∃ answers c, (new Size).calls Sizefn ops = some (answers, c) ∧ Sound Sizefn c := by
  obtain ⟨c, hc, hsound, -⟩ := (sound_new Size).calls ops hsize
  exact ⟨_, c, hc, hsound⟩

theorem calls_sound_two_keys : ∃ answers c, (new 1 : LRUCache ℕ ℕ).calls (fun _ => 1)
    [.insert 1 10, .insert 2 20, .fetch_ptr 1 true] = some (answers, c) ∧ Sound (fun _ => 1) c :=
  calls_sound 1 (fun _ => 1) _ fun _ _ _ => by decide

/-- CORRECT: every run answers as on the plain list of entries, where a use moves an entry to the
    front and an insert keeps the longest front part that fits. -/
theorem calls_eq_onLists [Inhabited Data] (Size : UInt64) (Sizefn : Data → UInt64)
    (ops : List (Op Key Data)) (hsize : ∀ key data, Op.insert key data ∈ ops →
      Size.toNat + (Sizefn data).toNat < 2 ^ 64) :
    ∃ c, (new Size).calls Sizefn ops
        = some ((onLists (fun d => (Sizefn d).toNat) Size.toNat [] ops).1, c) ∧
      c.entries = (onLists (fun d => (Sizefn d).toNat) Size.toNat [] ops).2 := by
  obtain ⟨c, hc, -, hentries⟩ := (sound_new Size).calls ops hsize
  exact ⟨c, hc, hentries⟩

theorem calls_eq_onLists_two_keys : ∃ c, (new 1 : LRUCache ℕ ℕ).calls (fun _ => 1)
      [.insert 1 10, .insert 2 20, .fetch_ptr 1 true]
        = some ((onLists (fun _ => 1) 1 [] [.insert 1 10, .insert 2 20, .fetch_ptr 1 true]).1, c) ∧
      c.entries = (onLists (fun _ => 1) 1 []
        [.insert 1 10, .insert 2 20, .fetch_ptr (1 : ℕ) true]).2 :=
  calls_eq_onLists 1 (fun _ => 1) _ fun _ _ _ => by decide

/-- Room for two entries and three keys: the one not used since its insert goes. -/
example : ((new 2 : LRUCache ℕ ℕ).calls (fun _ => 1) [.insert 1 10, .insert 2 20, .touch 1,
    .insert 3 30, .get_all_keys, .fetch 2 false, .size]).map Prod.fst
    = some [.done, .done, .done, .done, .keys [3, 1], .data 0, .size 2] := by decide

end Specifications
end LRUCache
end VaeDb.LruCache
