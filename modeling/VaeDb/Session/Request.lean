import Mathlib.Data.Rat.Floor
import VaeDb.Site.Query

/-! The options of a `get`, and the window of the result that they ask for.

    The options come as texts and are read into a `Request`. For a result of a given size the paging
    options then give a window: how many items to skip and how many to return. An unordered result is
    cut while it is collected, from `start` to `stop`; an ordered one is collected whole and cut
    after sorting.

        skip   │ page 1 │ page 2 │ page 3 │
        ───────┴────────┴────────┴────────┴──▶ items

    `int` arithmetic out of range, a division by zero and a conversion that does not fit are
    undefined behaviour. `(float)` is a parameter: the identity for exact arithmetic. -/

namespace VaeDb
open Schemes Cpp

inductive SortType where
  | none
  | reverse
  | shuffle
  | specific
  deriving DecidableEq

inductive SortOrder where
  | asc
  | desc
  deriving DecidableEq

structure SortField where
  field : String
  count : Bool
  direction : SortOrder
  deriving DecidableEq

abbrev Options := String → Option String

/-- The members of a Response that its options set. -/
structure Request where
  filter : Bool := false
  filterTerms : List String := []
  groups : ℤ := 0
  page : ℤ := 1
  paginate : ℤ := 99999999
  skip : ℤ := 0
  sortFields : List SortField := []
  sortType : SortType := .none
  unique : Bool := false
  uniqueFields : List String := []

namespace Request

/-! ### Order -/

/-- `[.A-Za-z0-9_()\/]`. -/
def orderChar (c : Char) : Bool :=
  ('a' ≤ tolower c && tolower c ≤ 'z') || isdigit c || c ∈ ['.', '_', '(', ')', '/']

/-- `keyword\(([.A-Za-z0-9_()\/]+)\)`, ignoring case, against the whole text. -/
def unwrap (keyword s : String) : Option String :=
  let body := (s.toList.drop (keyword.length + 1)).dropLast
  if (caseless (keyword ++ "(")).isPrefixOf (caseless s) && s.toList.getLast? = some ')' &&
      body ≠ [] && body.all orderChar then
    some (String.ofList body)
  else none

def sortField (term : String) : SortField :=
  let (field, direction) := match unwrap "DESC" term with
    | some field => (field, SortOrder.desc)
    | none => (term, SortOrder.asc)
  match unwrap "COUNT" field with
  | some field => ⟨field, true, direction⟩
  | none => ⟨field, false, direction⟩

/-- `REVERSE\(`, ignoring case, to `DESC(`, once. -/
def replaceReverse (order : String) : String :=
  let pattern := "REVERSE(".toList.map fun c => Atom.one fun d => tolower d == tolower c
  match replace pattern [.text "DESC("] order.toList with
  | some order => String.ofList order
  | none => order

def readOrder (o : Request) (order : String) : Request :=
  if order = "" then o
  else
    let order := replaceReverse order
    if strcasecmp order "DESC()" then { o with sortType := .reverse }
    else if strcasecmp order "RAND()" then { o with sortType := .shuffle }
    else { o with sortType := .specific, sortFields := (split [','] order).map sortField }

/-! ### The other options -/

def readPage (o : Request) (page : String) : Request :=
  if page = "last()" || page = "last" then { o with page := -1 }
  else if page = "all" || page = "all()" then { o with paginate := 999999999 }
  else { o with page := atoi page }

/-- An option that is not given changes nothing. -/
def readOption (options : Options) (name : String) (read : Request → String → Request)
    (o : Request) : Request :=
  match options name with
  | some value => read o value
  | none => o

/-- The option part of `Response::Response`, in its order. -/
def parse (options : Options) : Request :=
  [("skip", fun o value => { o with skip := atoi value }),
    ("groups", fun o value => { o with groups := atoi value }),
    ("limit", fun o value => { o with paginate := atoi value }),
    ("paginate", fun o value => { o with paginate := atoi value }),
    ("unique", fun o value => { o with unique := true, uniqueFields := split [','] value }),
    ("page", readPage),
    ("filter", fun o value => { o with filter := true, filterTerms := (words value).map cStr }),
    ("order", readOrder)].foldl (fun o (name, read) => readOption options name read o) {}

/-- What every option keeps, all of them keep. -/
theorem readAll {P : Request → Prop} {options : Options}
    {readers : List (String × (Request → String → Request))} {o : Request}
    (hreaders : ∀ r ∈ readers, ∀ o value, P o → P (r.2 o value)) (ho : P o) :
    P (readers.foldl (fun o r => readOption options r.1 r.2 o) o) := by
  induction readers generalizing o with
  | nil => exact ho
  | cons r readers ih =>
    obtain ⟨hr, hreaders⟩ := List.forall_mem_cons.mp hreaders
    refine ih hreaders ?_
    dsimp only [readOption]
    split
    · exact hr _ _ ho
    · exact ho

/-! ### Paging -/

/-- A value of type `int`. -/
def int (n : ℤ) : Result ℤ :=
  if -2147483648 ≤ n ∧ n ≤ 2147483647 then pure n else throw .undefined

/-- `(int)ceil((float)a / b)`. -/
def ceilDiv (float : ℚ → ℚ) (a b : ℤ) : Result ℤ :=
  if b = 0 then throw .undefined else int ⌈float (float a / float b)⌉

structure Page where
  skip : ℤ
  paginate : ℤ

/-- The loop over the groups, `n` rounds from group `j` on. -/
def groupPage (float : ℚ → ℚ) (groups size : ℤ) : ℕ → ℤ → Page → Result Page
  | 0, _, page => pure page
  | n + 1, j, page => do
    let skip ← (if 0 < j then int (page.skip + page.paginate) else pure page.skip)
    let left ← int (size - skip)
    let parts ← int (groups - j)
    let paginate ← ceilDiv float left parts
    groupPage float groups size n (j + 1) ⟨skip, paginate⟩

/-- The number of the last page. -/
def lastPage (float : ℚ → ℚ) (o : Request) (size : ℤ) : Result ℤ := do
  let left ← int (size - o.skip)
  ceilDiv float left o.paginate

def plainPage (float : ℚ → ℚ) (o : Request) (size : ℤ) : Result Page := do
  let page ← (if o.page = -1 then o.lastPage float size else pure o.page)
  let page := if page ≤ 0 then 1 else page
  let before ← int ((page - 1) * o.paginate)
  let skip ← int (o.skip + before)
  pure ⟨skip, o.paginate⟩

def choosePage (float : ℚ → ℚ) (o : Request) (size : ℤ) : Result Page :=
  if o.groups ≠ 0 then
    let page := if o.page ≤ 0 then 1 else o.page
    groupPage float o.groups size page.toNat 0 ⟨o.skip, o.paginate⟩
  else o.plainPage float size

structure Window where
  skip : ℤ
  paginate : ℤ
  start : ℤ
  stop : ℤ

/-- `skip_`, `paginate_`, `start` and `end` of `Response::query`. -/
def window (float : ℚ → ℚ) (o : Request) (size : ℤ) : Result Window := do
  let page ← o.choosePage float size
  let paginate := if page.paginate < 1 then 1 else page.paginate
  let skip := if page.skip < 0 then 0 else page.skip
  if o.sortType = .none then do
    let reach ← int (paginate + skip)
    let stop := if reach < size then reach else size
    pure ⟨skip, paginate, skip, if size < stop then size else stop⟩
  else pure ⟨skip, paginate, 0, size⟩

end Request

end VaeDb
