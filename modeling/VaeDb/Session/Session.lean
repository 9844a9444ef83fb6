import VaeDb.Session.Response

/-! Sessions: the responses of one client, and the calls that refer to them.

    A session keeps the responses of its `get` calls; a client names a response by its number,
    counted from 1, and 0 is the root of the site. `get` and `createInfo` start from a response,
    `data` and `structure` tell more about one. Only a `get` that succeeds adds a response.

        get 0 "page" ──▶ 1      get 1 "title" ──▶ 2      data 2

    What a session answers depends on its site and its responses, not on what is cached: from a
    coherent cache every call computes what it would compute without one. -/

namespace VaeDb
open Schemes Xml Cpp

/-- A call of a client. `shuffle` is what `random_shuffle` does to the contexts of each parent. -/
inductive Call where
  | get (responseId : ℤ) (query : String) (options : Options)
      (shuffle : ℕ → List NodeId → List NodeId)
  | data (responseId : ℤ)
  | struct (responseId : ℤ)
  | createInfo (responseId : ℤ) (query : String)

inductive Answer where
  | get (response : VaeDbResponse)
  | data (contexts : List DataMap)
  | struct (contexts : List VaeDbStructure)
  | createInfo (contexts : List VaeDbCreateInfo)

/-- A session holds on to its Site object. -/
structure Session where
  site : ℕ
  createdAt : ℤ
  responses : List Response

namespace Session

/-- `responses[responseId - 1]`, after the comparison with the number of responses. Both convert to
    `size_t`. -/
def response (responses : List Response) (responseId : ℤ) : Result Response :=
  if responseId % 2 ^ 64 ≤ responses.length then
    deref responses[((responseId - 1) % 2 ^ 64).toNat]?
  else throw (.internalError "Invalid responseId")

/-- The parent of a new response; 0 is the root. -/
def parent (responses : List Response) (responseId : ℤ) : Result (Option Response) :=
  if responseId ≠ 0 then do
    let response ← response responses responseId
    pure (some response)
  else pure none

section Operations

variable {m : Type → Type} [Monad m] [MonadLiftT Result m] (ops : Lookups m) (rt : Runtime)
  (site : Site)

/-- One call: its answer, and the responses after it. -/
def call (responses : List Response) : Call → m (Answer × List Response)
  | .get responseId query options shuffle => do
    let parent ← parent responses responseId
    let response ← Response.new ops rt site shuffle parent query options
    let answer ← Response.writeVaeDbResponse site (int32 (responses.length + 1)) response
    pure (.get answer, responses ++ [response])
  | .data responseId => do
    let response ← response responses responseId
    let answer ← Response.writeVaeDbDataResponse ops response
    pure (.data answer, responses)
  | .struct responseId => do
    let response ← response responses responseId
    let answer ← Response.writeVaeDbStructureResponse site response
    pure (.struct answer, responses)
  | .createInfo responseId query => do
    let parent ← parent responses responseId
    let answer ← Response.createInfos ops rt site parent query
    pure (.createInfo answer, responses)

end Operations

/-! ### The cache does not show -/

section Computes

variable {κ : Type} {I : κ → Prop} {x : Lookups (Memo κ Failure)} {p : Lookups Result}
  (h : Lookups.Agree I x p) (rt : Runtime) (site : Site)

include h

theorem computes_uniqueMatch (uniqueFields uniqueFound : List String) (node : XmlNode) :
    Computes I (Response.uniqueMatch x site uniqueFields uniqueFound node)
      (Response.uniqueMatch p site uniqueFields uniqueFound node) := by
  refine (Computes.lift _).bind fun ptr _ => (Computes.lift _).bind fun context _ => ?_
  refine (Computes.foldlM (fun val field => ?_) _ _).bind fun val _ => Computes.pure _
  exact (h.getData context field).bind fun data _ => Computes.pure _

theorem computes_nodeMatch (o : Request) (uniqueFound : List String) (node : XmlNode) :
    Computes I (Response.nodeMatch x site o uniqueFound node)
      (Response.nodeMatch p site o uniqueFound node) := by
  refine Computes.bind (p := if o.filter then Response.filterMatch site o.filterTerms node
    else pure true) ?_ fun matched _ => ?_
  · split
    · exact Computes.lift _
    · exact Computes.pure _
  · split
    · exact Computes.pure _
    · split
      · exact computes_uniqueMatch h site _ _ node
      · exact Computes.pure _

theorem computes_sortCallback (lhs rhs : NodeId) : ∀ fields : List SortField,
    Computes I (Response.sortCallback x site lhs rhs fields)
      (Response.sortCallback p site lhs rhs fields)
  | [] => Computes.pure _
  | f :: fields => by
      rw [Response.sortCallback, Response.sortCallback]
      split
      · exact (Computes.lift _).bind fun _ _ => (Computes.lift _).bind fun _ _ => Computes.pure _
      · split
        · refine (h.getCount lhs _).bind fun lcount _ => (h.getCount rhs _).bind fun rcount _ => ?_
          split
          · exact computes_sortCallback lhs rhs fields
          · exact Computes.pure _
        · refine (h.getData lhs _).bind fun ldata _ => (h.getData rhs _).bind fun rdata _ => ?_
          dsimp only
          split
          · exact computes_sortCallback lhs rhs fields
          · exact Computes.pure _

omit h in
theorem computes_sortTree {n : ℕ} {comp : Fin n → Fin n → Memo κ Failure Bool}
    {comp' : Fin n → Fin n → Result Bool} (hcomp : ∀ i j, Computes I (comp i j) (comp' i j)) :
    ∀ t : SortTree n, Computes I (t.run comp) (t.run comp')
  | .done order => Computes.pure _
  | .less i j yes no => by
      refine (hcomp i j).bind fun b _ => ?_
      cases b
      · exact computes_sortTree hcomp no
      · exact computes_sortTree hcomp yes
  | .overrun => Computes.pure _

theorem computes_orderContexts (shuffle : List NodeId → List NodeId) (o : Request)
    (contexts : List NodeId) :
    Computes I (Response.orderContexts x rt site shuffle o contexts)
      (Response.orderContexts p rt site shuffle o contexts) := by
  rw [Response.orderContexts, Response.orderContexts]
  split
  · exact Computes.pure _
  · exact Computes.pure _
  · exact Computes.pure _
  · refine (computes_sortTree (fun i j => ?_) _).bind fun order _ => ?_
    · exact computes_sortCallback h site _ _ o.sortFields
    · exact (Computes.lift _).bind fun order _ => Computes.pure _

theorem computes_tallyNode (o : Request) (w : Request.Window) (t : Response.Tally)
    (node : XmlNode) :
    Computes I (Response.tallyNode x site o w t node) (Response.tallyNode p site o w t node) := by
  refine (computes_nodeMatch h site o _ node).bind fun (matched, uniqueFound) _ => ?_
  dsimp only
  split
  · exact Computes.pure _
  · split
    · exact Computes.pure _
    · split
      · refine (Computes.lift _).bind fun ptr _ => ?_
        cases ptr <;> exact Computes.pure _
      · exact Computes.pure _

theorem computes_collect (o : Request) (w : Request.Window) (p_query : Query) :
    Computes I (Response.collect x site o w p_query) (Response.collect p site o w p_query) := by
  rw [Response.collect, Response.collect]
  split
  · exact (Computes.foldlM (computes_tallyNode h site o w) _ _).bind fun t _ => Computes.pure _
  · exact (Computes.lift _).bind fun contexts _ => Computes.pure _

theorem computes_query (shuffle : List NodeId → List NodeId) (o : Request)
    (context : Option NodeId) (q : String) :
    Computes I (Response.query x rt site shuffle o context q)
      (Response.query p rt site shuffle o context q) := by
  refine (h.fetch_query context q).bind fun p_query _ => (Computes.lift _).bind fun w _ => ?_
  refine (computes_collect h site o w p_query).bind fun found _ => ?_
  exact (computes_orderContexts h rt site shuffle o _).bind fun contexts _ => Computes.pure _

theorem computes_mainContext (context : Option NodeId) (queryParts : List String)
    (lastPart : String) :
    Computes I (Response.mainContext x site context queryParts lastPart)
      (Response.mainContext p site context queryParts lastPart) := by
  rw [Response.mainContext, Response.mainContext]
  split
  · exact Computes.pure _
  · split
    · refine (h.fetch_query context _).bind fun nodes _ => ?_
      cases nodes
      · exact Computes.pure _
      · exact Computes.lift _
    · exact Computes.pure _

theorem computes_createInfo (query : String) (context : Option NodeId) :
    Computes I (Response.createInfo x rt site query context)
      (Response.createInfo p rt site query context) := by
  refine (computes_mainContext h site context _ _).bind fun context _ => ?_
  refine (Computes.lift _).bind fun row_id _ => ?_
  split
  · exact Computes.lift _
  · refine (Computes.lift _).bind fun nodes _ => ?_
    cases nodes
    · exact Computes.lift _
    · exact (Computes.lift _).bind fun structure_id _ => Computes.pure _

/-- Every call of a session computes the same with a good cache as without. -/
theorem computes_call (responses : List Response) (c : Call) :
    Computes I (call x rt site responses c) (call p rt site responses c) := by
  cases c with
  | get responseId query options shuffle =>
    refine (Computes.lift _).bind fun parent _ => ?_
    refine Computes.bind ?_ fun response _ => (Computes.lift _).bind fun answer _ => Computes.pure _
    refine (Computes.mapM (fun (context, i) => ?_) _).bind fun contexts _ => Computes.pure _
    exact computes_query h rt site (shuffle i) _ context query
  | data responseId =>
    refine (Computes.lift _).bind fun response _ => ?_
    exact (Computes.mapM h.toVaeDbDataForContext _).bind fun answer _ => Computes.pure _
  | struct responseId =>
    refine (Computes.lift _).bind fun response _ => ?_
    exact (Computes.lift _).bind fun answer _ => Computes.pure _
  | createInfo responseId query =>
    refine (Computes.lift _).bind fun parent _ => ?_
    refine (Computes.mapM (fun context => ?_) _).bind fun answer _ => Computes.pure _
    exact computes_createInfo h rt site query context

end Computes

end Session

end VaeDb
