import VaeDb.Schemes.Pattern
import VaeDb.Site.Load

/-! `Query::Query`: from the text of a query to a node set.

    A query is resolved in steps. A leading slash drops the context; `permalink/...` and a leading id
    pick a new context from the two indexes of the site; `prev()` and `next()` become sibling axes.
    What is left is rewritten, outside of quotes, into XPath: numeric steps become id predicates, and
    names at the end of a predicate get `/text()`. libxml2 evaluates the result.

        /permalink/a/b/c ──▶ context of a/b, c
        7/name           ──▶ context of item 7, name
        a/7/b[x='y']     ──▶ a[@id='7']/b[x/text()='y'] -/

namespace VaeDb
open Schemes Xml Cpp

namespace Query

/-- A step of the constructor ends with a node set, or goes on with a context and a query text. -/
inductive Resolved where
  | result (query : Query)
  | rest (context : Option NodeId) (query : String)

/-- `(Context *)node->_private`. Attributes have none. -/
def privateOf (site : Site) : XmlNode → Result (Option NodeId)
  | .attr _ => pure none
  | .node n => do
    let cell ← deref (site.doc n)
    pure cell.data.priv

/-! ### Permalinks and ids -/

/-- The loop over the prefixes of a permalink path, from the one with `i` parts down. -/
def findPermalink (site : Site) (pathParts : List String) : ℕ → Result Resolved
  | 0 => pure (.result (result none))
  | i + 1 =>
    match site.permalinks (join (pathParts.take (i + 1)) "/") with
    | none => findPermalink site pathParts i
    | some node =>
      if i + 1 = pathParts.length then pure (.result (result (some node)))
      else do
        let context ← privateOf site (.node node)
        pure (.rest context (join (pathParts.drop (i + 1)) "/"))

/-- The text after `permalink/`, if the query is of that form; `.` matches no newline. -/
def permalinkPath (query : String) : Option String :=
  let path := query.toList.drop "permalink/".length
  if "permalink/".toList.isPrefixOf query.toList && !path.contains '\n' then
    some (String.ofList path)
  else none

def resolvePermalink (site : Site) (context : Option NodeId) (query : String) : Result Resolved :=
  match permalinkPath query with
  | none => pure (.rest context query)
  | some permalink =>
    let pathParts := split ['/'] permalink
    findPermalink site pathParts pathParts.length

/-- `([0-9]+)(/.*|)` against the whole query: the digits and the rest. -/
def leadingId (query : String) : Option (String × String) :=
  let digits := query.toList.takeWhile isdigit
  let rest := query.toList.dropWhile isdigit
  if digits ≠ [] && (rest.isEmpty || rest.head? = some '/' && !rest.contains '\n') then
    some (String.ofList digits, String.ofList rest)
  else none

def resolveId (site : Site) (context : Option NodeId) (query : String) : Result Resolved :=
  match leadingId query with
  | none => pure (.rest context query)
  | some (id, query) =>
    match find site (atoi id) with
    | node :: nodes =>
      if 0 < query.length then do
        let context ← privateOf site node
        pure (.rest context (String.ofList (query.toList.drop 1)))
      else pure (.result (node :: nodes))
    | [] => pure (.result [])

/-! ### prev() and next() -/

/-- `context->getNodeName()`. -/
def getNodeName (site : Site) (context : NodeId) : Result String := do
  let context ← deref (site.contexts context)
  let cell ← deref (site.doc context.node)
  pure cell.data.name

/-- `prev()` or `next()` becomes a step along the given axis. -/
def sibling (site : Site) (context : Option NodeId) (function axis message query : String) :
    Result String :=
  if strcasecmp function query then
    match context with
    | none => throw (.queryError message)
    | some context => do
      let name ← getNodeName site context
      pure (axis ++ "::" ++ name ++ "[1]")
  else pure query

def siblings (site : Site) (context : Option NodeId) (query : String) : Result String := do
  let query ← sibling site context "prev()" "preceding-sibling"
    "You cannot use PREV() outside of a context." query
  sibling site context "next()" "following-sibling"
    "You cannot use NEXT() outside of a context." query

/-! ### Rewriting -/

/-- `[_a-z]`. -/
def nameStart (c : Char) : Bool := c == '_' || ('a' ≤ c && c ≤ 'z')

/-- `[a-z0-9_/]`. -/
def nameChar (c : Char) : Bool := nameStart c || isdigit c || c == '/'

/-- `[^(a-z0-9_/]`. -/
def nameEnd (c : Char) : Bool := !(c == '(' || nameChar c)

/-- `/([0-9]+)` to `[@id='\1']`. -/
def idStep : Pattern × Rewrite :=
  ([.words ["/"], .run isdigit], [.text "[@id='", .atom 1, .text "']"])

/-- `\[([_a-z])([a-z0-9_/]+)([^(a-z0-9_/])` to `[\1\2/text()\3`. -/
def openText : Pattern × Rewrite :=
  ([.words ["["], .one nameStart, .run nameChar, .one nameEnd],
    [.text "[", .atom 1, .atom 2, .text "/text()", .atom 3])

/-- ` (or|and) ([_a-z])([a-z0-9_/]+)([^(a-z0-9_/])` to ` \1 \2\3/text()\4`. -/
def rightText : Pattern × Rewrite :=
  ([.words [" "], .words ["or", "and"], .words [" "], .one nameStart, .run nameChar, .one nameEnd],
    [.text " ", .atom 1, .text " ", .atom 3, .atom 4, .text "/text()", .atom 5])

/-- `([^@])([_a-z])([0-9a-z_/]+) (or|and) ` to `\1\2\3/text() \4 `. -/
def leftText : Pattern × Rewrite :=
  ([.one (· ≠ '@'), .one nameStart, .run nameChar, .words [" "], .words ["or", "and"],
      .words [" "]],
    [.atom 0, .atom 1, .atom 2, .text "/text() ", .atom 4, .text " "])

/-- `([^@])([_a-z])([0-9a-z_/]+)\]` to `\1\2\3/text()]`. -/
def closeText : Pattern × Rewrite :=
  ([.one (· ≠ '@'), .one nameStart, .run nameChar, .words ["]"]],
    [.atom 0, .atom 1, .atom 2, .text "/text()]"])

/-- `while (pcrecpp::RE(..).Replace(.., &part)) { }`. -/
def replaceAll (r : Pattern × Rewrite) (part : List Char) : Result (List Char) :=
  deref (replaceWhile r.1 r.2 (part.length + 1) part)

/-- The five loops and the double-slash check, on one part outside of quotes. -/
def rewritePart (part : String) : Result String := do
  let part ← [idStep, openText, rightText, leftText, closeText].foldlM
    (fun part r => replaceAll r part) part.toList
  if strstr (String.ofList part) "//" then
    throw (.queryError "Double-slashes are not supported in Vae queries.")
  else pure (String.ofList part)

/-- The loop over the parts with an even index. -/
def rewriteParts : List String → Result (List String)
  | [] => pure []
  | [part] => do pure [← rewritePart part]
  | part :: quoted :: parts => do
    let part ← rewritePart part
    let parts ← rewriteParts parts
    pure (part :: quoted :: parts)

/-- A path without predicates gets one on its first step. -/
def idPredicate (query : String) : String :=
  if strstr query "/" && !strstr query "[" then
    match split ['/'] query with
    | first :: rest => if strstr first "." then query else join ((first ++ "[@id!='']") :: rest) "/"
    | [] => query
  else query

def rewrite (query : String) : Result String := do
  let parts ← rewriteParts (split ['\''] query)
  pure (idPredicate (join parts "'"))

/-! ### Evaluation -/

def runQuery (lib : Libxml) (site : Site) (context : Option NodeId) (q displayQuery : String) :
    Result Query :=
  match context with
  | some context => do
    let context ← deref (site.contexts context)
    runRawQuery lib site (some context.node) q displayQuery
  | none => runRawQuery lib site site.rootNode q displayQuery

/-- `Query::Query(site, context, q)`. -/
def new (lib : Libxml) (site : Site) (context : Option NodeId) (q : String) : Result Query := do
  let slash := q.toList.head? = some '/'
  let context := if slash then none else context
  let query := if slash then String.ofList (q.toList.drop 1) else q
  match ← resolvePermalink site context query with
  | .result query => pure query
  | .rest context query => do
    match ← resolveId site context query with
    | .result query => pure query
    | .rest context query => do
      let query ← siblings site context query
      let query ← rewrite query
      runQuery lib site context query q

def getSize (query : Query) : ℤ := query.length

/-- `context->getStructureId()`. -/
def getStructureId (site : Site) (context : NodeId) : Result ℤ := do
  let context ← deref (site.contexts context)
  let struct ← deref context.struct
  pure struct.id

def runDesignQuery (lib : Libxml) (site : Site) (context : Option NodeId) (query : String) :
    Result Query :=
  match context with
  | none => runRawQuery lib site site.rootDesignNode query query
  | some context => do
    let id ← getStructureId site context
    let q := "/website/design//*[@id=" ++ toString id ++ "]"
    let nodes ← runRawQuery lib site none q q
    let node ← XmlNode.toNode (← getNode nodes 0)
    runRawQuery lib site (some node) query query

end Query

end VaeDb
