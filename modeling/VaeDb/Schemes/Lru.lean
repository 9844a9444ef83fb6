import VaeDb.Schemes.Table

/-! A cache of bounded size that evicts from the back.

    The entries are a keyed table, the newest in front. An insert takes an older entry of its key
    out and goes to the front; entries past the maximal size fall off the back. A fetch that does
    not touch its entry leaves the order alone.

        insert k:   k ▸ [ a, b, k, c ]  ──▶  [ k, a, b, c ] -/

namespace Schemes

structure LRUCache (κ α : Type) (maxSize : ℕ) extends Table (κ × α) Prod.fst where
  size_le : rows.length ≤ maxSize

namespace LRUCache

variable {κ α : Type} {maxSize : ℕ} [DecidableEq κ]

def empty : LRUCache κ α maxSize := ⟨Table.empty, Nat.zero_le _⟩

/-- `fetch` without a touch. -/
def fetch (cache : LRUCache κ α maxSize) (k : κ) : Option α := (cache.rowAt k).map Prod.snd

/-- The entries after an insert. -/
def inserted (cache : LRUCache κ α maxSize) (k : κ) (a : α) : List (κ × α) :=
  ((k, a) :: (cache.deleteWhere fun e => e.1 = k).rows).take maxSize

theorem nodup_inserted (cache : LRUCache κ α maxSize) (k : κ) (a : α) :
    ((cache.inserted k a).map Prod.fst).Nodup := by
  refine List.Nodup.sublist ((List.take_sublist _ _).map _) ?_
  rw [List.map_cons, List.nodup_cons]
  refine ⟨fun hk => ?_, (cache.deleteWhere _).nodup⟩
  obtain ⟨e, he, hek⟩ := List.mem_map.mp hk
  simpa [hek] using (Table.mem_deleteWhere.mp he).2

def insert (cache : LRUCache κ α maxSize) (k : κ) (a : α) : LRUCache κ α maxSize :=
  ⟨⟨cache.inserted k a, cache.nodup_inserted k a⟩, List.length_take_le _ _⟩

@[simp] theorem fetch_empty (k : κ) : (empty : LRUCache κ α maxSize).fetch k = none := rfl

theorem fetch_eq_some {cache : LRUCache κ α maxSize} {k : κ} {a : α} :
    cache.fetch k = some a ↔ (k, a) ∈ cache.rows := by
  simp only [fetch, Option.map_eq_some_iff, Table.rowAt_eq_some]
  constructor
  · rintro ⟨⟨k', a'⟩, ⟨hmem, rfl⟩, rfl⟩
    exact hmem
  · exact fun h => ⟨_, ⟨h, rfl⟩, rfl⟩

/-- After an insert, a fetch finds the new entry or what it found before. -/
theorem fetch_insert {cache : LRUCache κ α maxSize} {k k' : κ} {a a' : α}
    (h : (cache.insert k a).fetch k' = some a') :
    (k' = k ∧ a' = a) ∨ cache.fetch k' = some a' := by
  rw [fetch_eq_some] at h ⊢
  rcases List.mem_cons.mp (List.mem_of_mem_take h) with heq | hmem
  · exact Or.inl (Prod.mk.inj heq)
  · exact Or.inr (Table.mem_deleteWhere.mp hmem).1

end LRUCache

end Schemes
