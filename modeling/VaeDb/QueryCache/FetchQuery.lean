import VaeDb.QueryCache.LruCache
import VaeDb.Site.Caches

/-! `Site::fetch_query`, over the LRU cache of the program.

    The cache holds `shared_ptr`s to queries; a null pointer (`none`) is what `fetch` gives for a key
    that is not there. A lookup passes `touch_data = false`, so a hit leaves the order alone: the
    entries stand in the order in which their queries were constructed, and the oldest one goes.

        fetch ──▶ q            return q
        fetch ──▶ null         new Query ──▶ insert, return it
                                         ──▶ an exception, nothing inserted

    The table that stands for this cache in the model of the Site answers and holds the same. -/

namespace VaeDb.LruCache
open Schemes Xml

variable {Key Query ε : Type}

def Countfn {Data : Type} (_ : Data) : UInt64 := 1

/-- The query cache, and the keys whose query was constructed, the last one in front. -/
structure QueryCache (Key Query : Type) where
  query_cache : LRUCache Key (Option Query)
  constructed : List Key

def QueryCache.new (Size : UInt64) : QueryCache Key Query := ⟨.new Size, []⟩

section

variable [DecidableEq Key]

/-- `Site::fetch_query`, with `build` for the constructor of a query. -/
def fetch_query (build : Key → Except ε Query) (site : QueryCache Key Query) (key : Key) :
    Option (Except ε Query × QueryCache Key Query) := do
  let (p_query, query_cache) ← site.query_cache.fetch key false
  match p_query with
  | some query => pure (.ok query, { site with query_cache })
  | none => match build key with
    | .error e => pure (.error e, { site with query_cache })
    | .ok query => do
      let query_cache ← query_cache.insert Countfn key (some query)
      pure (.ok query, ⟨query_cache, key :: site.constructed⟩)

/-- The keys constructed after a request for `key`, if its query is one of the last `n` or not. -/
def constructedAfter (build : Key → Except ε Query) (n : ℕ) (constructed : List Key) (key : Key) :
    List Key :=
  if key ∈ constructed.take n then constructed
  else match build key with
    | .ok _ => key :: constructed
    | .error _ => constructed

def fetch_queries (build : Key → Except ε Query) (site : QueryCache Key Query) :
    List Key → Option (List (Except ε Query) × QueryCache Key Query)
  | [] => some ([], site)
  | key :: keys => do
    let (answer, site) ← fetch_query build site key
    let (answers, site) ← fetch_queries build site keys
    pure (answer :: answers, site)

end

/-! ### What the cache holds -/

variable {build : Key → Except ε Query} {site : QueryCache Key Query} {n : ℕ}

/-- The entries are the queries constructed last, as they were constructed. -/
structure Holds (build : Key → Except ε Query) (n : ℕ) (site : QueryCache Key Query) : Prop where
  sound : site.query_cache.Sound Countfn
  max_size : site.query_cache._max_size.toNat = n
  keys : site.query_cache.entries.map Prod.fst = site.constructed.take n
  fresh : ∀ key p_query, (key, p_query) ∈ site.query_cache.entries →
    ∃ query, p_query = some query ∧ build key = .ok query

theorem LRUCache.Linked.fetched {Data : Type} [Inhabited Data] [DecidableEq Key] {c : LRUCache Key Data}
    {Sizefn : Data → UInt64} (h : c.Linked Sizefn) (key : Key) :
    c.fetch key false = some ((Recency.lookup c.entries key).getD default, c) := by
  rw [LRUCache.fetch]
  rcases h.found key with ⟨hit, hlook, -, -⟩ | ⟨n, hn, rfl, hit, hnode, hlook⟩
  · rw [hit, hlook]
    rfl
  · rw [hit, hlook]
    simp only [hnode, Option.bind_eq_bind, Option.bind_some]
    rfl

namespace Holds

theorem new {Size : UInt64} (hsize : Size.toNat = n) :
    Holds build n (QueryCache.new Size : QueryCache Key Query) where
  sound := LRUCache.sound_new Size
  max_size := hsize
  keys := by simp [QueryCache.new, LRUCache.new, LRUCache.entries]
  fresh := by simp [QueryCache.new, LRUCache.new, LRUCache.entries]

theorem nodup (h : Holds build n site) : (site.constructed.take n).Nodup :=
  h.keys ▸ h.sound.nodup_entries

variable [DecidableEq Key]

/-- A key that is not among the last constructed is not in the cache, and a query for it goes in at
    the front. -/
theorem miss (h : Holds build n site) (hn : n + 1 < 2 ^ 64) {key : Key}
    (hkey : key ∉ site.constructed.take n) (query : Query) :
    site.query_cache.fetch key false = some (none, site.query_cache) ∧
    ∃ c, site.query_cache.insert Countfn key (some query) = some c ∧ c.Sound Countfn ∧
      c._max_size.toNat = n ∧ c.entries = ((key, some query) :: site.query_cache.entries).take n := by
  have hroom : site.query_cache._max_size.toNat + (Countfn (some query)).toNat < 2 ^ 64 := by
    rw [h.max_size]
    exact hn
  rw [← h.keys] at hkey
  obtain ⟨c, hc, hsound, hentries, hmax⟩ := h.sound.inserted key hroom
  refine ⟨?_, c, hc, hsound, hmax ▸ h.max_size, ?_⟩
  · rw [h.sound.fetched key, Recency.lookup_eq_none.mpr hkey]
    rfl
  · rw [hentries, h.max_size, Recency.without_of_not_mem hkey]
    exact Recency.fitting_one n _

/-- A request for a key is answered as the constructor answers; the query is constructed unless
    it is one of those constructed last. -/
theorem request (h : Holds build n site) (hn : n + 1 < 2 ^ 64) (key : Key) :
    ∃ site', fetch_query build site key = some (build key, site') ∧ Holds build n site' ∧
      site'.constructed = constructedAfter build n site.constructed key := by
  by_cases hkey : key ∈ site.constructed.take n
  · have hmem := hkey
    rw [← h.keys] at hmem
    obtain ⟨⟨_, p_query⟩, hentry, rfl⟩ := List.mem_map.mp hmem
    obtain ⟨query, rfl, hbuild⟩ := h.fresh _ _ hentry
    refine ⟨site, ?_, h, by rw [constructedAfter, if_pos hkey]⟩
    rw [fetch_query, h.sound.fetched, (Recency.lookup_eq_some h.sound.nodup_entries).mpr hentry,
      hbuild]
    rfl
  · cases hbuild : build key with
    | error e =>
      have hlook := Recency.lookup_eq_none.mpr (h.keys ▸ hkey)
      refine ⟨site, ?_, h, by rw [constructedAfter, if_neg hkey, hbuild]⟩
      rw [fetch_query, h.sound.fetched, hlook]
      simp only [Option.bind_eq_bind, Option.bind_some, Option.getD_none]
      simp only [hbuild]
      rfl
    | ok query =>
      obtain ⟨hfetch, c, hc, hsound, hmax, hentries⟩ := h.miss hn hkey query
      refine ⟨⟨c, key :: site.constructed⟩, ?_, ⟨hsound, hmax, ?_, ?_⟩, ?_⟩
      · rw [fetch_query, hfetch]
        simp only [Option.bind_eq_bind, Option.bind_some]
        simp only [hbuild, hc, Option.bind_some]
        rfl
      · rw [hentries, List.map_take, List.map_cons, h.keys]
        cases n with
        | zero => rfl
        | succ n => rw [List.take_succ_cons, List.take_take, min_eq_left (Nat.le_succ n),
            List.take_succ_cons]
      · intro key' p_query hmem
        rw [hentries] at hmem
        rcases List.mem_cons.mp (List.mem_of_mem_take hmem) with heq | hold
        · obtain ⟨rfl, rfl⟩ := Prod.mk.inj heq
          exact ⟨query, rfl, hbuild⟩
        · exact h.fresh _ _ hold
      · rw [constructedAfter, if_neg hkey, hbuild]

theorem requests (hn : n + 1 < 2 ^ 64) : ∀ (keys : List Key) {site : QueryCache Key Query},
    Holds build n site → ∃ site', fetch_queries build site keys = some (keys.map build, site') ∧
      Holds build n site'
  | [], site, h => ⟨site, rfl, h⟩
  | key :: keys, site, h => by
      obtain ⟨site₁, h₁, hholds₁, -⟩ := h.request hn key
      obtain ⟨site₂, h₂, hholds₂⟩ := hholds₁.requests hn keys
      refine ⟨site₂, ?_, hholds₂⟩
      rw [fetch_queries, h₁]
      simp only [Option.bind_eq_bind, Option.bind_some, h₂, Option.pure_def, List.map_cons]

end Holds

/-! ### The query cache of a Site -/

variable (lib : Libxml) (site : Site)

/-- The constructor of a query, for the key of a context and a text. -/
def newQuery (key : Option NodeId × String) : Except Failure VaeDb.Query :=
  VaeDb.Query.new lib site key.1 key.2

/-- CORRECT: after any requests, a further one is answered as the constructor answers; and its query
    is constructed exactly if its key is not among the last 384 that were constructed. A hit does not
    make an entry younger. -/
theorem fetch_query_fifo (keys : List (Option NodeId × String)) (key : Option NodeId × String) :
    ∃ s s', fetch_queries (newQuery lib site) (QueryCache.new 384) keys
        = some (keys.map (newQuery lib site), s) ∧
      s.query_cache.get_all_keys = s.constructed.take 384 ∧ (s.constructed.take 384).Nodup ∧
      fetch_query (newQuery lib site) s key = some (newQuery lib site key, s') ∧
      s'.constructed = constructedAfter (newQuery lib site) 384 s.constructed key := by
  have hnew : Holds (newQuery lib site) 384 (QueryCache.new 384) := .new rfl
  obtain ⟨s, hs, h⟩ := hnew.requests (by decide) keys
  obtain ⟨s', hs', -, hconstructed⟩ := h.request (by decide) key
  refine ⟨s, s', hs, ?_, h.nodup, hs', hconstructed⟩
  rw [← h.keys, LRUCache.keys_entries]
  rfl

/-- The same requests, to the table that stands for the cache in the model of the Site. -/
def remembered (c : Caches) :
    List (Option NodeId × String) → List (Except Failure VaeDb.Query) × Caches
  | [] => ([], c)
  | key :: keys =>
    let (answer, c) := (Cached.fetch_query lib site key.1 key.2).go c
    let (answers, c) := remembered c keys
    (answer :: answers, c)

variable {lib site}

/-- The cache and the table hold the same queries in the same order. -/
def Same (s : QueryCache (Option NodeId × String) VaeDb.Query) (c : Caches) : Prop :=
  s.query_cache.entries = c.query_cache.rows.map fun e => (e.1, some e.2)

theorem Same.lookup {s : QueryCache (Option NodeId × String) VaeDb.Query} {c : Caches}
    (h : Same s c) (key : Option NodeId × String) :
    Recency.lookup s.query_cache.entries key = (c.query_cache.fetch key).map some := by
  rw [h, Recency.lookup, List.find?_map, Option.map_map, Schemes.LRUCache.fetch, Option.map_map]
  rfl

theorem remembered_hit {c : Caches} {key : Option NodeId × String} {query : VaeDb.Query}
    (hrow : c.query_cache.fetch key = some query) :
    (Cached.fetch_query lib site key.1 key.2).go c = (.ok query, c) :=
  memo_hit (by exact hrow) _ _

theorem remembered_miss {c : Caches} {key : Option NodeId × String}
    (hrow : c.query_cache.fetch key = none) :
    (Cached.fetch_query lib site key.1 key.2).go c = match newQuery lib site key with
      | .ok query => (.ok query, { c with query_cache := c.query_cache.insert key query })
      | .error e => (.error e, c) := by
  refine (memo_miss (by exact hrow) _ _).trans ?_
  rw [newQuery]
  cases VaeDb.Query.new lib site key.1 key.2 <;> rfl

/-- A query for a key without one goes in at the front of the table. -/
theorem rows_insert {c : Caches} {key : Option NodeId × String}
    (hrow : c.query_cache.fetch key = none) (query : VaeDb.Query) :
    (c.query_cache.insert key query).rows = ((key, query) :: c.query_cache.rows).take 384 := by
  have hnot : ∀ e ∈ c.query_cache.rows, e.1 ≠ key :=
    Table.rowAt_eq_none.mp (Option.map_eq_none_iff.mp hrow)
  have hrest : (c.query_cache.deleteWhere fun e => e.1 = key).rows = c.query_cache.rows := by
    rw [Table.deleteWhere, List.filter_eq_self]
    intro e he
    simpa using hnot e he
  change ((key, query) :: (c.query_cache.deleteWhere fun e => e.1 = key).rows).take 384 = _
  rw [hrest]

/-- One request is answered alike, and leaves the same. -/
theorem Same.request {s s' : QueryCache (Option NodeId × String) VaeDb.Query} {c : Caches}
    (hsame : Same s c) (h : Holds (newQuery lib site) 384 s) {key : Option NodeId × String}
    {answer : Except Failure VaeDb.Query}
    (hs' : fetch_query (newQuery lib site) s key = some (answer, s')) :
    ((Cached.fetch_query lib site key.1 key.2).go c).1 = answer ∧
      Same s' ((Cached.fetch_query lib site key.1 key.2).go c).2 := by
  have hlook := hsame.lookup key
  have hfetch := h.sound.fetched key
  rw [fetch_query] at hs'
  cases hrow : c.query_cache.fetch key with
  | some query =>
    rw [hlook, hrow] at hfetch
    rw [remembered_hit hrow]
    rw [hfetch] at hs'
    cases hs'
    exact ⟨rfl, hsame⟩
  | none =>
    have hkey : key ∉ s.constructed.take 384 := by
      rw [← h.keys]
      exact Recency.lookup_eq_none.mp (by rw [hlook, hrow]; rfl)
    rw [remembered_miss hrow]
    cases hbuild : newQuery lib site key with
    | error e =>
      rw [hfetch, hlook, hrow] at hs'
      simp only [Option.bind_eq_bind, Option.bind_some, Option.map_none, Option.getD_none] at hs'
      simp only [hbuild] at hs'
      cases hs'
      exact ⟨rfl, hsame⟩
    | ok query =>
      obtain ⟨hfetch, q, hq, -, -, hentries⟩ := h.miss (by decide) hkey query
      rw [hfetch] at hs'
      simp only [Option.bind_eq_bind, Option.bind_some] at hs'
      simp only [hbuild, hq, Option.bind_some] at hs'
      cases hs'
      refine ⟨rfl, ?_⟩
      rw [Same, hentries, hsame, rows_insert hrow, List.map_take, List.map_cons]

theorem Same.requests : ∀ (keys : List (Option NodeId × String))
    {s : QueryCache (Option NodeId × String) VaeDb.Query} {c : Caches}, Same s c →
    Holds (newQuery lib site) 384 s → ∃ s', fetch_queries (newQuery lib site) s keys
      = some ((remembered lib site c keys).1, s') ∧ Same s' (remembered lib site c keys).2
  | [], s, c, hsame, _ => ⟨s, rfl, hsame⟩
  | key :: keys, s, c, hsame, h => by
      obtain ⟨s₁, hs₁, h₁, -⟩ := h.request (by decide) key
      obtain ⟨hanswer, hsame₁⟩ := hsame.request h hs₁
      obtain ⟨s₂, hs₂, hsame₂⟩ := hsame₁.requests keys h₁
      refine ⟨s₂, ?_, hsame₂⟩
      rw [fetch_queries, hs₁]
      simp only [Option.bind_eq_bind, Option.bind_some, hs₂, Option.pure_def]
      rw [← hanswer]
      rfl

/-- CORRECT: on every run of requests the cache of the program and the table in the model of the
    Site give the same answers, and hold the same queries in the same order. -/
theorem fetch_queries_eq_remembered (lib : Libxml) (site : Site)
    (keys : List (Option NodeId × String)) :
    ∃ s, fetch_queries (newQuery lib site) (QueryCache.new 384) keys
        = some ((remembered lib site Caches.empty keys).1, s) ∧
      s.query_cache.entries
        = (remembered lib site Caches.empty keys).2.query_cache.rows.map fun e => (e.1, some e.2) :=
  Same.requests keys rfl (.new rfl)

end VaeDb.LruCache
