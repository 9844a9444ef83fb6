import VaeDb.Session.Request
import VaeDb.Site.Caches
import VaeDb.Util

/-! Responses: `Response::query`, `Response::createInfo` and the answers written from them.

    A Response runs its query once for each context of its parent, or once for the root. The node set
    is filtered, made unique, cut to the asked window and sorted; what is kept are the Contexts of
    the nodes. Everything that needs the data of a site goes through `Lookups`, so the same code runs
    with the caches of the program and without any.

        parent ──▶ contexts ──▶ fetch_query ──▶ filter, unique ──▶ sort ──▶ window ──▶ contexts -/

namespace VaeDb
open Schemes Xml Cpp

/-- What the program takes from its surroundings: libxml2, `std::sort`, the rounding of `float`. -/
structure Runtime where
  lib : Libxml
  sort : (n : ℕ) → SortTree n
  float : ℚ → ℚ

structure ResponseContext where
  contexts : List NodeId
  total : ℤ

structure Response where
  contexts : List ResponseContext

structure VaeDbCreateInfo where
  structure_id : ℤ
  row_id : ℤ
  deriving DecidableEq

structure VaeDbResponseForContext where
  contexts : List VaeDbContext
  totalItems : ℤ
  deriving DecidableEq

structure VaeDbResponse where
  id : ℤ
  contexts : List VaeDbResponseForContext
  deriving DecidableEq

namespace Response

/-! ### Filter -/

/-- The terms that a text does not contain. -/
def filterText (remaining : List String) (content : String) : List String :=
  remaining.filter fun term => !strcasestr content term

/-- `filterMatchRecursive`, with the number of levels it may still go down. -/
def filterMatchRecursive (site : Site) : ℕ → Option NodeId → List String → Result (List String)
  | 0, first, remaining =>
    site.forSiblings (fun remaining child =>
      pure (if child.data.type = .text then filterText remaining child.data.content else remaining))
      site.allocated first remaining
  | levels + 1, first, remaining =>
    site.forSiblings (fun remaining child => match child.data.type with
      | .element => filterMatchRecursive site levels child.children remaining
      | .text => pure (filterText remaining child.data.content)
      | .other => pure remaining)
      site.allocated first remaining

/-- An attribute has its value as its only child. -/
def filterMatch (site : Site) (filterTerms : List String) : XmlNode → Result Bool
  | .attr none => pure filterTerms.isEmpty
  | .attr (some value) => pure (filterText filterTerms value).isEmpty
  | .node n => do
    let cell ← deref (site.doc n)
    let remaining ← filterMatchRecursive site 1 cell.children filterTerms
    pure remaining.isEmpty

section Operations

variable {m : Type → Type} [Monad m] [MonadLiftT Result m] (ops : Lookups m) (rt : Runtime)
  (site : Site)

/-! ### Unique -/

/-- `uniqueMatch`: whether the node is new, and the values found so far. -/
def uniqueMatch (uniqueFields : List String) (uniqueFound : List String) (node : XmlNode) :
    m (Bool × List String) := do
  let ptr ← Query.privateOf site node
  let context ← deref ptr
  let val ← uniqueFields.foldlM (fun val field => do
    let data ← ops.getData context field
    pure (val ++ (data ++ "~!~"))) ""
  pure (if val ∈ uniqueFound then (false, uniqueFound) else (true, val :: uniqueFound))

/-- `(!filter || filterMatch(node)) && (!unique || uniqueMatch(node))`. -/
def nodeMatch (o : Request) (uniqueFound : List String) (node : XmlNode) :
    m (Bool × List String) := do
  let matched ← (if o.filter then filterMatch site o.filterTerms node else pure true)
  if !matched then pure (false, uniqueFound)
  else if o.unique then uniqueMatch ops site o.uniqueFields uniqueFound node
  else pure (true, uniqueFound)

/-! ### Sort -/

def getId (context : NodeId) : Result ℤ := do
  let ctxt ← deref (site.contexts context)
  pure ctxt.id

/-- A descending field turns the comparison around. -/
def directed (direction : SortOrder) (comp : Bool) : Bool :=
  match direction with
  | .asc => comp
  | .desc => !comp

/-- `sortCallback`: the first field that tells the two apart decides. -/
def sortCallback (lhs rhs : NodeId) : List SortField → m Bool
  | [] => pure false
  | f :: fields =>
    if f.field = "id" then do
      let lid ← getId site lhs
      let rid ← getId site rhs
      pure (directed f.direction (lid < rid))
    else if f.count then do
      let lcount ← ops.getCount lhs f.field
      let rcount ← ops.getCount rhs f.field
      if lcount = rcount then sortCallback lhs rhs fields
      else pure (directed f.direction (lcount < rcount))
    else do
      let ldata ← ops.getData lhs f.field
      let rdata ← ops.getData rhs f.field
      let icomp := Util.str_compare_nat ldata rdata
      if icomp = 0 then sortCallback lhs rhs fields
      else pure (directed f.direction (0 < icomp))

/-- `sort(contexts.begin(), contexts.end(), sortCallback)`. -/
def sortContexts (fields : List SortField) (contexts : List NodeId) : m (List NodeId) := do
  let order ← (rt.sort contexts.length).run fun i j =>
    sortCallback ops site (contexts.get i) (contexts.get j) fields
  let order ← deref order
  pure (List.ofFn fun i => contexts.get (order i))

/-! ### Query -/

/-- The variables of the loop that filters. -/
structure Tally where
  total : ℤ := 0
  skipped : ℤ := 0
  included : ℤ := 0
  uniqueFound : List String := []
  contexts : List NodeId := []

/-- One node in the loop that filters. -/
def tallyNode (o : Request) (w : Request.Window) (t : Tally) (node : XmlNode) : m Tally := do
  let (matched, uniqueFound) ← nodeMatch ops site o t.uniqueFound node
  let t := { t with uniqueFound := uniqueFound }
  if !matched then pure t
  else
    let t := { t with total := t.total + 1 }
    if t.skipped < w.start then pure { t with skipped := t.skipped + 1 }
    else if t.included + t.skipped < w.stop then do
      match ← (Query.privateOf site node : Result (Option NodeId)) with
      | some ctxt => pure { t with
          contexts := t.contexts ++ [ctxt], included := t.included + 1 }
      | none => pure t
    else pure t

/-- One index in the loop that does not filter. -/
def pushNode (p_query : Query) (contexts : List NodeId) (i : ℕ) : Result (List NodeId) := do
  let node ← Query.getNode p_query i
  match ← Query.privateOf site node with
  | some ctxt => pure (contexts ++ [ctxt])
  | none => pure contexts

/-- The contexts of the node set and their total, before sorting. -/
def collect (o : Request) (w : Request.Window) (p_query : Query) : m ResponseContext :=
  if o.filter || o.unique then do
    let t ← p_query.foldlM (tallyNode ops site o w) {}
    pure ⟨t.contexts, t.total⟩
  else do
    let contexts ← ((List.range' w.start.toNat (w.stop - w.start).toNat).foldlM
      (pushNode site p_query) [] : Result (List NodeId))
    pure ⟨contexts, p_query.getSize⟩

/-- The order of the contexts. -/
def orderContexts (shuffle : List NodeId → List NodeId) (o : Request) (contexts : List NodeId) :
    m (List NodeId) :=
  match o.sortType with
  | .none => pure contexts
  | .reverse => pure contexts.reverse
  | .shuffle => pure (shuffle contexts)
  | .specific => sortContexts ops rt site o.sortFields contexts

/-- Only an ordered result still has to be cut. -/
def cut (o : Request) (w : Request.Window) (contexts : List NodeId) : List NodeId :=
  if o.sortType = .none then contexts
  else (contexts.drop w.skip.toNat).take w.paginate.toNat

/-- `Response::query`. `shuffle` is what `random_shuffle` does to a list. -/
def query (shuffle : List NodeId → List NodeId) (o : Request) (context : Option NodeId)
    (q : String) : m ResponseContext := do
  let p_query ← ops.fetch_query context q
  let w ← o.window rt.float p_query.getSize
  let found ← collect ops site o w p_query
  let contexts ← orderContexts ops rt site shuffle o found.contexts
  pure ⟨cut o w contexts, found.total⟩

/-- The contexts that a query is run for. -/
def parents : Option Response → List (Option NodeId)
  | none => [none]
  | some parent => parent.contexts.flatMap fun c => c.contexts.map some

/-- `Response::Response` of a `get`. -/
def new (shuffle : ℕ → List NodeId → List NodeId) (parent : Option Response) (q : String)
    (options : Options) : m Response := do
  let contexts ← (parents parent).zipIdx.mapM fun (context, i) =>
    query ops rt site (shuffle i) (Request.parse options) context q
  pure ⟨contexts⟩

/-! ### createInfo -/

/-- One attribute in the loop that looks for the `id`. -/
def readId (id : ℤ) : String × Option String → Result ℤ
  | (name, value) => if name = "id" then do pure (atoi (← deref value)) else pure id

/-- The `id` attribute of a design node; the last one counts. -/
def structureId (site : Site) (node : XmlNode) : Result ℤ := do
  let n ← XmlNode.toNode node
  let properties ← site.properties n
  properties.foldlM readId 0

/-- The context of the main part of the query. -/
def mainContext (context : Option NodeId) (queryParts : List String) (lastPart : String) :
    m (Option NodeId) :=
  let mainQuery := join queryParts "/"
  if mainQuery = "" && lastPart ≠ "" && 0 < queryParts.length then pure none
  else if mainQuery ≠ "" then do
    match ← ops.fetch_query context mainQuery with
    | [] => pure context
    | node :: _ => liftM (Query.privateOf site node)
  else pure context

def createInfo (query : String) (context : Option NodeId) : m VaeDbCreateInfo := do
  let queryParts := split ['/'] query
  let lastPart := queryParts.getLastD ""
  let context ← mainContext ops site context queryParts.dropLast lastPart
  let row_id ← (match context with
    | some context => getId site context
    | none => pure 0 : Result ℤ)
  if atoi lastPart ≠ 0 then
    liftM (throw (.queryError (cStr ("invalid path for creating: '" ++ query ++ "'"))) :
      Result VaeDbCreateInfo)
  else do
    match ← (Query.runDesignQuery rt.lib site context lastPart : Result Query) with
    | node :: _ => do
      let structure_id ← structureId site node
      pure ⟨structure_id, row_id⟩
    | [] => liftM (throw (.queryError
        (cStr ("could not find path for creating: '" ++ query ++ "'"))) : Result VaeDbCreateInfo)

/-- `Response::Response` of a `createInfo`, and what it writes. -/
def createInfos (parent : Option Response) (query : String) : m (List VaeDbCreateInfo) :=
  (parents parent).mapM (createInfo ops rt site query)

/-! ### Answers -/

/-- All contexts of a response, one list after another. -/
def allContexts (response : Response) : List NodeId :=
  response.contexts.flatMap ResponseContext.contexts

def writeVaeDbDataResponse (response : Response) : m (List DataMap) :=
  response.allContexts.mapM ops.toVaeDbDataForContext

def toVaeDbContext (context : NodeId) : Result VaeDbContext := do
  let ctxt ← deref (site.contexts context)
  pure ctxt.vaeDbContext

def writeVaeDbResponse (id : ℤ) (response : Response) : Result VaeDbResponse := do
  let contexts ← response.contexts.mapM fun c => do
    let contexts ← c.contexts.mapM (toVaeDbContext site)
    pure ⟨contexts, c.total⟩
  pure ⟨id, contexts⟩

def toVaeDbStructureForContext (context : NodeId) : Result VaeDbStructure := do
  let ctxt ← deref (site.contexts context)
  pure (ctxt.struct.getD ⟨0, "", "", ""⟩)

def writeVaeDbStructureResponse (response : Response) : Result (List VaeDbStructure) :=
  response.allContexts.mapM (toVaeDbStructureForContext site)

end Operations

end Response

end VaeDb
