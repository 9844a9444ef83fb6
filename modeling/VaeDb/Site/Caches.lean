import VaeDb.Schemes.Lru
import VaeDb.Schemes.Memo
import VaeDb.Site.Query

/-! What a loaded Site answers, with its caches and without.

    A Site keeps the node sets of the last queries (`query_cache`), and every Context remembers the
    counts, the data fields and the query results it was asked for. `Lookups` are the operations that
    go through these caches; `Lookups.cached` are the ones of the program, `Lookups.fresh` compute
    every answer anew. A cache is coherent if each entry is the fresh answer for its key. From a
    coherent cache both give the same answers, and the cache stays coherent.

        query_cache     (context, query) ──▶ node set      384 entries
        cachedCounts    context, query   ──▶ size of the node set
        data            context          ──▶ its fields, filled at the first use
        cachedQueries   context, query   ──▶ text of the first node -/

namespace VaeDb
open Schemes Xml

abbrev DataMap := String → Option String

/-! ### The data of a Context -/

/-- `for (child = first; child; child = child->next)`. The list ends, so no more than all nodes come
    by; in a circular list the loop would not end. -/
def Site.forSiblings {β : Type} (site : Site) (f : β → Cell NodeId Info → Result β) :
    ℕ → Option NodeId → β → Result β
  | _, none, b => pure b
  | 0, some _, _ => throw .undefined
  | fuel + 1, some child, b => do
    let cell ← deref (site.doc child)
    let b ← f b cell
    site.forSiblings f fuel cell.next b

/-- The inner loop of `populateData`: the last text, or `(collection)` for anything else. -/
def Site.contentFrom (site : Site) : ℕ → Option NodeId → Option String → Result (Option String)
  | _, none, content => pure content
  | 0, some _, _ => throw .undefined
  | fuel + 1, some child2, _ => do
    let cell ← deref (site.doc child2)
    if cell.data.type = .text then site.contentFrom fuel cell.next (some cell.data.content)
    else pure (some "(collection)")

/-- What one child adds to the data. -/
def Site.populateField (site : Site) (data : DataMap) (child : Cell NodeId Info) :
    Result DataMap :=
  if child.data.type = .element then do
    match ← site.contentFrom site.allocated child.children none with
    | some content => pure (Function.update data child.data.name (some content))
    | none => pure data
  else pure data

/-- `Context::populateData`. -/
def Site.populateData (site : Site) (context : NodeId) : Result DataMap := do
  let ctxt ← deref (site.contexts context)
  let cell ← deref (site.doc ctxt.node)
  site.forSiblings site.populateField site.allocated cell.children fun _ => none

/-! ### Lookups -/

/-- The operations that go through the caches. -/
structure Lookups (m : Type → Type) where
  fetch_query : Option NodeId → String → m Query
  getCount : NodeId → String → m ℤ
  getData : NodeId → String → m String
  toVaeDbDataForContext : NodeId → m DataMap

/-- The size of the node set of a query. -/
def Site.count (lib : Libxml) (site : Site) (context : NodeId) (query : String) : Result ℤ := do
  let nodes ← Query.new lib site (some context) query
  pure nodes.getSize

/-- The text of the first node of a query. -/
def Site.single (lib : Libxml) (site : Site) (context : NodeId) (query : String) :
    Result String := do
  let nodes ← Query.new lib site (some context) query
  nodes.getSingleData site

section Operations

variable {m : Type → Type} [Monad m] [MonadLiftT Result m]

/-- `Context::getCount`, over what remembers counts. -/
def Site.getCount (site : Site) (count : NodeId → String → m ℤ) (context : NodeId)
    (query : String) : m ℤ := do
  let _ ← deref (site.contexts context)
  count context query

/-- `Context::getData`, over what remembers the data and the results. -/
def Site.getData (populateData : NodeId → m DataMap) (single : NodeId → String → m String)
    (context : NodeId) (query : String) : m String := do
  let data ← populateData context
  if query = "" then
    liftM (throw (.internalError "Empty query passed to Context::getData") : Result String)
  else match data query with
    | some value => pure value
    | none => single context query

end Operations

def Lookups.fresh (lib : Libxml) (site : Site) : Lookups Result where
  fetch_query := Query.new lib site
  getCount := site.getCount (site.count lib)
  getData := Site.getData site.populateData (site.single lib)
  toVaeDbDataForContext := site.populateData

/-! ### Caches -/

structure Caches where
  query_cache : LRUCache (Option NodeId × String) Query 384
  cachedCounts : NodeId × String → Option ℤ
  cachedQueries : NodeId × String → Option String
  data : NodeId → Option DataMap

def Caches.empty : Caches := ⟨.empty, fun _ => none, fun _ => none, fun _ => none⟩

namespace Cached

variable (lib : Libxml) (site : Site)

/-- `Site::fetch_query`. -/
def fetch_query (context : Option NodeId) (q : String) : Memo Caches Failure Query :=
  memo (fun c => c.query_cache.fetch (context, q))
    (fun nodes c => { c with query_cache := c.query_cache.insert (context, q) nodes })
    (Query.new lib site context q)

def count (context : NodeId) (query : String) : Memo Caches Failure ℤ :=
  memo (fun c => c.cachedCounts (context, query))
    (fun n c => { c with cachedCounts := Function.update c.cachedCounts (context, query) (some n) })
    (site.count lib context query)

def single (context : NodeId) (query : String) : Memo Caches Failure String :=
  memo (fun c => c.cachedQueries (context, query))
    (fun s c =>
      { c with cachedQueries := Function.update c.cachedQueries (context, query) (some s) })
    (site.single lib context query)

def populateData (context : NodeId) : Memo Caches Failure DataMap :=
  memo (fun c => c.data context)
    (fun d c => { c with data := Function.update c.data context (some d) })
    (site.populateData context)

end Cached

def Lookups.cached (lib : Libxml) (site : Site) : Lookups (Memo Caches Failure) where
  fetch_query := Cached.fetch_query lib site
  getCount := site.getCount (Cached.count lib site)
  getData := Site.getData (Cached.populateData site) (Cached.single lib site)
  toVaeDbDataForContext := Cached.populateData site

/-! ### Coherence -/

/-- Every entry is the fresh answer for its key. -/
structure Coherent (lib : Libxml) (site : Site) (c : Caches) : Prop where
  query_cache : ∀ context q nodes, c.query_cache.fetch (context, q) = some nodes →
    Query.new lib site context q = .ok nodes
  cachedCounts : ∀ context query n, c.cachedCounts (context, query) = some n →
    site.count lib context query = .ok n
  cachedQueries : ∀ context query s, c.cachedQueries (context, query) = some s →
    site.single lib context query = .ok s
  data : ∀ context d, c.data context = some d → site.populateData context = .ok d

theorem coherent_empty (lib : Libxml) (site : Site) : Coherent lib site Caches.empty where
  query_cache _ _ _ h := by cases h
  cachedCounts _ _ _ h := by cases h
  cachedQueries _ _ _ h := by cases h
  data _ _ h := by cases h

/-- What is found in a table after an update is the new entry or an old one. -/
theorem update_eq_some {κ α : Type} [DecidableEq κ] {f : κ → Option α} {k k' : κ} {a a' : α}
    (h : Function.update f k (some a) k' = some a') : (k' = k ∧ a' = a) ∨ f k' = some a' := by
  rcases eq_or_ne k' k with rfl | hne
  · rw [Function.update_self, Option.some.injEq] at h
    exact Or.inl ⟨rfl, h.symm⟩
  · rw [Function.update_of_ne hne] at h
    exact Or.inr h

section

variable {lib : Libxml} {site : Site}

theorem computes_fetch_query (context : Option NodeId) (q : String) :
    Computes (Coherent lib site) (Cached.fetch_query lib site context q)
      (Query.new lib site context q) := by
  refine Computes.memo (Computes.lift _) (fun c nodes hc => hc.query_cache context q nodes)
    fun c nodes hc hfresh => { hc with query_cache := fun context' q' nodes' h => ?_ }
  rcases LRUCache.fetch_insert h with ⟨heq, rfl⟩ | h
  · cases heq
    exact hfresh
  · exact hc.query_cache _ _ _ h

/-- A table of its own, filled one answer after the other. -/
theorem computes_table {κ α : Type} [DecidableEq κ] (table : Caches → κ → Option α)
    (put : (κ → Option α) → Caches → Caches) (fresh : κ → Result α) (k : κ)
    (hold : ∀ c, Coherent lib site c → ∀ k a, table c k = some a → fresh k = .ok a)
    (hput : ∀ c t, Coherent lib site c → (∀ k a, t k = some a → fresh k = .ok a) →
      Coherent lib site (put t c)) :
    Computes (Coherent lib site) (memo (fun c => table c k)
      (fun a c => put (Function.update (table c) k (some a)) c) (liftM (fresh k))) (fresh k) := by
  refine Computes.memo (Computes.lift _) (fun c a hc => hold c hc k a)
    fun c a hc hfresh => hput c _ hc fun k' a' h => ?_
  rcases update_eq_some h with ⟨rfl, rfl⟩ | h
  · exact hfresh
  · exact hold c hc k' a' h

theorem computes_count (context : NodeId) (query : String) :
    Computes (Coherent lib site) (Cached.count lib site context query)
      (site.count lib context query) :=
  computes_table Caches.cachedCounts (fun t c => { c with cachedCounts := t })
    (fun k => site.count lib k.1 k.2) (context, query) (fun _ hc k => hc.cachedCounts k.1 k.2)
    fun _ _ hc ht => { hc with cachedCounts := fun context query => ht (context, query) }

theorem computes_single (context : NodeId) (query : String) :
    Computes (Coherent lib site) (Cached.single lib site context query)
      (site.single lib context query) :=
  computes_table Caches.cachedQueries (fun t c => { c with cachedQueries := t })
    (fun k => site.single lib k.1 k.2) (context, query) (fun _ hc k => hc.cachedQueries k.1 k.2)
    fun _ _ hc ht => { hc with cachedQueries := fun context query => ht (context, query) }

theorem computes_populateData (context : NodeId) :
    Computes (Coherent lib site) (Cached.populateData site context)
      (site.populateData context) :=
  computes_table Caches.data (fun t c => { c with data := t }) site.populateData context
    (fun _ hc => hc.data) fun _ _ hc ht => { hc with data := ht }

end

/-- The two kinds of lookups agree, as long as the cache is good. -/
structure Lookups.Agree {κ : Type} (I : κ → Prop) (x : Lookups (Memo κ Failure))
    (p : Lookups Result) : Prop where
  fetch_query : ∀ context q, Computes I (x.fetch_query context q) (p.fetch_query context q)
  getCount : ∀ context query, Computes I (x.getCount context query) (p.getCount context query)
  getData : ∀ context query, Computes I (x.getData context query) (p.getData context query)
  toVaeDbDataForContext : ∀ context,
    Computes I (x.toVaeDbDataForContext context) (p.toVaeDbDataForContext context)

/-- From a coherent cache, every lookup gives the fresh answer and keeps the cache coherent. -/
theorem cached_agree (lib : Libxml) (site : Site) :
    Lookups.Agree (Coherent lib site) (Lookups.cached lib site) (Lookups.fresh lib site) where
  fetch_query := computes_fetch_query
  getCount context query :=
    (Computes.lift (deref (site.contexts context))).bind fun _ _ => computes_count context query
  getData context query := by
    refine (computes_populateData context).bind fun data _ => ?_
    split
    · exact Computes.lift _
    · split
      · exact Computes.pure _
      · exact computes_single context query
  toVaeDbDataForContext := computes_populateData

end VaeDb
