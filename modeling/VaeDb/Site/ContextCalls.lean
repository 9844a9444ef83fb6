import VaeDb.Schemes.Mutex
import VaeDb.Schemes.Runs
import VaeDb.Site.Caches

/-! One Context, asked by any number of threads at the same time.

    The data fields of a Context are filled at the first use, one field after the other, under its
    mutex. `dataPopulated` is set when they are all there, and is looked at before the mutex is taken
    and once more after. A count and a query result are remembered under the mutex, which is held
    while the query is evaluated. `toVaeDbDataForContext` copies the data without the mutex.

        test ── populated ──────────────────────────────────▶ getData: lock ─ look ─ (query) ─ unlock
          └── not yet ──▶ lock ─ test ─ fill … fill ─ set ─ unlock ──▶ toVaeDbDataForContext: copy

    `Lookups.fresh` says what each of the calls answers on its own. -/

namespace VaeDb.ContextCalls
open Schemes Xml

inductive Call where
  | getCount (query : String)
  | getData (query : String)
  | toVaeDbDataForContext

inductive Answer where
  | count (result : Result ℤ)
  | text (result : Result String)
  | data (result : Result DataMap)

/-- The next step of a call. -/
inductive Pc where
  | idle
  /-- `if (!dataPopulated)` -/
  | test (call : Call)
  -- `populateData`
  | lockFill (call : Call)
  | checkFill (call : Call)
  | fill (call : Call) (fuel : ℕ) (child : Option NodeId)
  | setPopulated (call : Call)
  | unlockFill (call : Call)
  -- `getCount` and `getData`
  | lock (call : Call)
  | look (call : Call)
  | storeCount (query : String) (n : ℤ)
  | storeQuery (query : String) (s : String)
  | unlock (call : Call) (answer : Answer)
  /-- `_return.data = data` -/
  | copy

/-- What the threads share: the mutex of the Context and the members that it guards. `returned` is
    history. -/
structure Shared where
  mutex : Unit → Option ℕ
  dataPopulated : Bool
  data : DataMap
  cachedCounts : String → Option ℤ
  cachedQueries : String → Option String
  returned : List (Call × Answer)

def Shared.init : Shared :=
  ⟨fun _ => none, false, fun _ => none, fun _ => none, fun _ => none, []⟩

def Shared.take (w : Shared) (t : ℕ) : Option Shared :=
  match w.mutex () with
  | some _ => none
  | none => some { w with mutex := Function.update w.mutex () (some t) }

def Shared.giveBack (w : Shared) : Shared := { w with mutex := Function.update w.mutex () none }

def Call.first : Call → Pc
  | .getCount query => .lock (.getCount query)
  | .getData query => .test (.getData query)
  | .toVaeDbDataForContext => .test .toVaeDbDataForContext

/-- Where a call goes on once the data are there. -/
def Call.populated : Call → Pc
  | .toVaeDbDataForContext => .copy
  | call => .lock call

/-- The calls that need the data fields. -/
def Call.usesData : Call → Bool
  | .getCount _ => false
  | .getData _ | .toVaeDbDataForContext => true

section Steps

variable (lib : Libxml) (site : Site) (context : NodeId)

/-- The first child of the Context's node. -/
def firstChild : Result (Option NodeId) := do
  let ctxt ← deref (site.contexts context)
  let cell ← deref (site.doc ctxt.node)
  pure cell.children

/-- What a call finds, or evaluates, under the mutex. -/
def lookUp (w : Shared) : Call → Pc
  | .getCount query => match w.cachedCounts query with
    | some n => .unlock (.getCount query) (.count (.ok n))
    | none => match site.count lib context query with
      | .ok n => .storeCount query n
      | .error e => .unlock (.getCount query) (.count (.error e))
  | .getData query =>
    if query = "" then .unlock (.getData query)
      (.text (.error (.internalError "Empty query passed to Context::getData")))
    else match w.data query with
      | some value => .unlock (.getData query) (.text (.ok value))
      | none => match w.cachedQueries query with
        | some value => .unlock (.getData query) (.text (.ok value))
        | none => match site.single lib context query with
          | .ok s => .storeQuery query s
          | .error e => .unlock (.getData query) (.text (.error e))
  -- takes no mutex: not looked up
  | .toVaeDbDataForContext => .copy

/-- One turn of the loop in `populateData`, or its end. -/
def fillStep (w : Shared) (call : Call) : ℕ → Option NodeId → Option (Shared × Pc)
  | _, none => some (w, .setPopulated call)
  | 0, some _ => none
  | fuel + 1, some child => match site.doc child with
    | none => none
    | some cell => match site.populateField w.data cell with
      | .ok data => some ({ w with data }, .fill call fuel cell.next)
      | .error _ => none

/-- One step of thread `t`, and where it goes on. -/
def advance (t : ℕ) (w : Shared) : Pc → Option (Shared × Pc)
  | .idle => none
  | .test call => some (w, if w.dataPopulated then call.populated else .lockFill call)
  | .lockFill call => (w.take t).map fun w => (w, .checkFill call)
  | .checkFill call =>
    if w.dataPopulated then some (w, .unlockFill call)
    else match firstChild site context with
      | .ok child => some (w, .fill call site.allocated child)
      | .error _ => none
  | .fill call fuel child => fillStep site w call fuel child
  | .setPopulated call => some ({ w with dataPopulated := true }, .unlockFill call)
  | .unlockFill call => some (w.giveBack, call.populated)
  | .lock call => (w.take t).map fun w => (w, .look call)
  | .look call => some (w, lookUp lib site context w call)
  | .storeCount query n =>
    some ({ w with cachedCounts := Function.update w.cachedCounts query (some n) },
      .unlock (.getCount query) (.count (.ok n)))
  | .storeQuery query s =>
    some ({ w with cachedQueries := Function.update w.cachedQueries query (some s) },
      .unlock (.getData query) (.text (.ok s)))
  | .unlock call answer =>
    some ({ w.giveBack with returned := (call, answer) :: w.returned }, .idle)
  | .copy =>
    some ({ w with returned := (.toVaeDbDataForContext, .data (.ok w.data)) :: w.returned }, .idle)

structure State where
  shared : Shared
  threads : ℕ → Pc

def State.init : State := ⟨Shared.init, fun _ => .idle⟩

/-- The start of a call, or the next step of one. -/
inductive Act where
  | call (t : ℕ) (call : Call)
  | next (t : ℕ)

def step (s : State) : Act → Option State
  | .call t call => match s.threads t with
    | .idle => some { s with threads := Function.update s.threads t call.first }
    | _ => none
  | .next t => (advance lib site context t s.shared (s.threads t)).map fun (w, pc) =>
      ⟨w, Function.update s.threads t pc⟩

/-- What a call answers on its own. -/
def fresh : Call → Answer
  | .getCount query => .count (site.count lib context query)
  | .getData query => .text (Site.getData site.populateData (site.single lib) context query)
  | .toVaeDbDataForContext => .data (site.populateData context)

end Steps

namespace Pc

/-- The thread has the mutex. -/
def held : Pc → List Unit
  | .checkFill _ | .fill _ _ _ | .setPopulated _ | .unlockFill _ | .look _ | .storeCount _ _
  | .storeQuery _ _ | .unlock _ _ => [()]
  | .idle | .test _ | .lockFill _ | .lock _ | .copy => []

/-- The next step writes to the data fields. -/
def writesData : Pc → Bool
  | .fill _ _ _ => true
  | _ => false

/-- The next step reads them. -/
def readsData : Pc → Bool
  | .look (.getData _) | .copy => true
  | _ => false

/-- The thread has begun to fill in the data, and has not said yet that they are there. -/
def fills : Pc → Bool
  | .fill _ _ _ | .setPopulated _ => true
  | _ => false

theorem held_of_fills {pc : Pc} (h : pc.fills = true) : () ∈ pc.held := by
  cases pc <;> simp [fills, held] at h ⊢

end Pc

/-! ### What a thread knows -/

variable {lib : Libxml} {site : Site} {context : NodeId} {t : ℕ} {w w' : Shared} {pc pc' : Pc}

/-- What is remembered is the answer that a query gives anew, and the data are there once
    `dataPopulated` is set. -/
structure Good (lib : Libxml) (site : Site) (context : NodeId) (w : Shared) : Prop where
  counts : ∀ query n, w.cachedCounts query = some n → site.count lib context query = .ok n
  queries : ∀ query s, w.cachedQueries query = some s → site.single lib context query = .ok s
  populated : w.dataPopulated = true → site.populateData context = .ok w.data
  returned : ∀ r ∈ w.returned, r.2 = fresh lib site context r.1

/-- What the place of a thread says about the members of the Context. -/
def Knows (lib : Libxml) (site : Site) (context : NodeId) (w : Shared) : Pc → Prop
  | .idle | .lock (.getCount _) | .look (.getCount _) => True
  | .test call | .lockFill call | .checkFill call => call.usesData = true
  -- the fields filled in so far, and those to come
  | .fill call fuel child => call.usesData = true ∧ w.dataPopulated = false ∧
    site.forSiblings site.populateField fuel child w.data = site.populateData context
  | .setPopulated call =>
    call.usesData = true ∧ w.dataPopulated = false ∧ site.populateData context = .ok w.data
  | .unlockFill call => call.usesData = true ∧ w.dataPopulated = true
  | .lock (.getData _) | .look (.getData _) | .copy => w.dataPopulated = true
  | .lock .toVaeDbDataForContext | .look .toVaeDbDataForContext => False
  | .storeCount query n => site.count lib context query = .ok n
  | .storeQuery query s => site.single lib context query = .ok s ∧
    fresh lib site context (.getData query) = .text (.ok s)
  | .unlock call answer => answer = fresh lib site context call

theorem knows_first (call : Call) : Knows lib site context w call.first := by
  cases call <;> simp [Call.first, Call.usesData, Knows]

theorem knows_populated {call : Call} (hcall : call.usesData = true) (h : w.dataPopulated = true) :
    Knows lib site context w call.populated := by
  cases call with
  | getCount query => cases hcall
  | getData query => exact h
  | toVaeDbDataForContext => exact h

/-- What a query of the data answers, once they are there. -/
theorem fresh_getData {query : String} {data : DataMap} (hdata : site.populateData context = .ok data)
    (hquery : query ≠ "") : fresh lib site context (.getData query) = .text (match data query with
      | some value => .ok value
      | none => site.single lib context query) := by
  rw [fresh, Site.getData, hdata]
  simp only [ok_bind, if_neg hquery]
  cases data query <;> rfl

theorem knows_lookUp (hw : Good lib site context w) {call : Call}
    (h : Knows lib site context w (.look call)) :
    Knows lib site context w (lookUp lib site context w call) := by
  cases call with
  | toVaeDbDataForContext => exact h.elim
  | getCount query =>
    rw [lookUp]
    cases hfound : w.cachedCounts query with
    | some n => exact congrArg Answer.count (hw.counts query n hfound).symm
    | none =>
      cases hcount : site.count lib context query with
      | ok n => exact hcount
      | error e => exact congrArg Answer.count hcount.symm
  | getData query =>
    have hdata := hw.populated h
    rw [lookUp]
    by_cases hquery : query = ""
    · rw [if_pos hquery]
      change _ = fresh lib site context (.getData query)
      rw [fresh, Site.getData, hdata]
      simp only [ok_bind, if_pos hquery]
      rfl
    · rw [if_neg hquery]
      have hfresh := @fresh_getData lib site context query w.data hdata hquery
      cases hfield : w.data query with
      | some value =>
        rw [hfield] at hfresh
        exact hfresh.symm
      | none =>
        rw [hfield] at hfresh
        cases hfound : w.cachedQueries query with
        | some value =>
          dsimp only
          rw [hw.queries query value hfound] at hfresh
          exact hfresh.symm
        | none =>
          cases hsingle : site.single lib context query with
          | ok s =>
            rw [hsingle] at hfresh
            exact ⟨hsingle, hfresh⟩
          | error e =>
            rw [hsingle] at hfresh
            exact hfresh.symm

/-! ### What a step does -/

theorem take_eq_some (h : w.take t = some w') :
    w.mutex () = none ∧ w' = { w with mutex := Function.update w.mutex () (some t) } := by
  rw [Shared.take] at h
  split at h
  · cases h
  · next hfree => exact ⟨hfree, (Option.some.inj h).symm⟩

/-- A step takes the mutex, gives it back, or does neither. -/
inductive Moves (t : ℕ) (w : Shared) (pc : Pc) (w' : Shared) (pc' : Pc) : Prop
  | acquire (free : w.mutex () = none) (mutex : w'.mutex = Function.update w.mutex () (some t))
      (held : pc'.held = () :: pc.held)
  | release (mutex : w'.mutex = Function.update w.mutex () none) (held : pc.held = [()])
      (free : pc'.held = [])
  | keep (mutex : w'.mutex = w.mutex) (held : pc'.held = pc.held)

theorem populated_held (call : Call) : call.populated.held = [] := by
  cases call <;> rfl

theorem fillStep_eq_some {call : Call} {fuel : ℕ} {child : Option NodeId}
    (h : fillStep site w call fuel child = some (w', pc')) :
    (child = none ∧ w' = w ∧ pc' = .setPopulated call) ∨
      ∃ n child' cell data, fuel = n + 1 ∧ child = some child' ∧ site.doc child' = some cell ∧
        site.populateField w.data cell = .ok data ∧ w' = { w with data } ∧
        pc' = .fill call n cell.next := by
  cases child with
  | none =>
    rw [fillStep] at h
    cases h
    exact .inl ⟨rfl, rfl, rfl⟩
  | some child' =>
    cases fuel with
    | zero => cases h
    | succ n =>
      rw [fillStep] at h
      split at h
      · cases h
      next cell hcell =>
      split at h
      · next data hdata =>
        cases h
        exact .inr ⟨n, child', cell, data, rfl, rfl, hcell, hdata, rfl, rfl⟩
      · cases h

theorem lookUp_held {call : Call} (h : Knows lib site context w (.look call)) :
    (lookUp lib site context w call).held = [()] := by
  cases call with
  | toVaeDbDataForContext => exact h.elim
  | getCount query =>
    rw [lookUp]
    cases w.cachedCounts query <;> cases site.count lib context query <;> rfl
  | getData query =>
    rw [lookUp]
    split
    · rfl
    · cases w.data query <;> cases w.cachedQueries query <;> cases site.single lib context query <;>
        rfl

theorem advance_moves (hk : Knows lib site context w pc)
    (h : advance lib site context t w pc = some (w', pc')) : Moves t w pc w' pc' := by
  cases pc with
  | idle => cases h
  | lockFill call | lock call =>
    obtain ⟨w₁, hw₁, heq⟩ := Option.map_eq_some_iff.mp h
    obtain ⟨hfree, rfl⟩ := take_eq_some hw₁
    cases heq
    exact .acquire hfree rfl rfl
  | test call =>
    cases h
    refine .keep rfl ?_
    split
    · exact populated_held call
    · rfl
  | checkFill call =>
    rw [advance] at h
    split at h
    · cases h
      exact .keep rfl rfl
    · split at h <;> cases h
      exact .keep rfl rfl
  | fill call fuel child =>
    obtain ⟨-, rfl, rfl⟩ | ⟨n, child', cell, data, -, -, -, -, rfl, rfl⟩ := fillStep_eq_some h
    · exact .keep rfl rfl
    · exact .keep rfl rfl
  | setPopulated call | storeCount query n | storeQuery query s | copy =>
    cases h
    exact .keep rfl rfl
  | unlockFill call =>
    cases h
    exact .release rfl rfl (populated_held call)
  | look call =>
    cases h
    exact .keep rfl (lookUp_held hk)
  | unlock call answer =>
    cases h
    exact .release rfl rfl rfl

/-- Nobody but a thread that fills in the data changes them, and `dataPopulated` is never reset. -/
theorem advance_data (h : advance lib site context t w pc = some (w', pc')) :
    (pc.fills = false → w'.data = w.data ∧ w'.dataPopulated = w.dataPopulated) ∧
      (w.dataPopulated = true → w'.dataPopulated = true) := by
  cases pc with
  | idle => cases h
  | lockFill call | lock call =>
    obtain ⟨w₁, hw₁, heq⟩ := Option.map_eq_some_iff.mp h
    obtain ⟨-, rfl⟩ := take_eq_some hw₁
    cases heq
    exact ⟨fun _ => ⟨rfl, rfl⟩, id⟩
  | checkFill call =>
    rw [advance] at h
    split at h
    · cases h
      exact ⟨fun _ => ⟨rfl, rfl⟩, id⟩
    · split at h <;> cases h
      exact ⟨fun _ => ⟨rfl, rfl⟩, id⟩
  | fill call fuel child =>
    obtain ⟨-, rfl, -⟩ | ⟨n, child', cell, data, -, -, -, -, rfl, -⟩ := fillStep_eq_some h
    · exact ⟨by simp [Pc.fills], id⟩
    · exact ⟨by simp [Pc.fills], id⟩
  | setPopulated call =>
    cases h
    exact ⟨by simp [Pc.fills], fun _ => rfl⟩
  | test call | unlockFill call | storeCount query n | storeQuery query s | copy | look call
  | unlock call answer =>
    cases h
    exact ⟨fun _ => ⟨rfl, rfl⟩, id⟩

theorem Good.congr (hw : Good lib site context w) (hcounts : w'.cachedCounts = w.cachedCounts)
    (hqueries : w'.cachedQueries = w.cachedQueries) (hpopulated : w'.dataPopulated = w.dataPopulated)
    (hdata : w'.data = w.data) (hreturned : ∀ r ∈ w'.returned, r.2 = fresh lib site context r.1) :
    Good lib site context w' where
  counts := by rw [hcounts]; exact hw.counts
  queries := by rw [hqueries]; exact hw.queries
  populated := by rw [hpopulated, hdata]; exact hw.populated
  returned := hreturned

/-- The loop over the children, with one child less to come. -/
theorem forSiblings_next {n : ℕ} {child : NodeId} {cell : Cell NodeId Info} {data : DataMap}
    (hcell : site.doc child = some cell) (hdata : site.populateField w.data cell = .ok data) :
    site.forSiblings site.populateField (n + 1) (some child) w.data =
      site.forSiblings site.populateField n cell.next data := by
  rw [Site.forSiblings, hcell]
  change (site.populateField w.data cell >>= _) = _
  rw [hdata, ok_bind]

theorem forSiblings_none (n : ℕ) (data : DataMap) :
    site.forSiblings site.populateField n none data = .ok data := by
  cases n <;> rfl

theorem populateData_eq {child : Option NodeId} (h : firstChild site context = .ok child) :
    site.populateData context =
      site.forSiblings site.populateField site.allocated child fun _ => none := by
  obtain ⟨ctxt, hctxt, h₁⟩ := bind_eq_ok.mp h
  obtain ⟨cell, hcell, h₂⟩ := bind_eq_ok.mp h₁
  rw [Site.populateData, hctxt, ok_bind, hcell, ok_bind]
  rw [pure_eq_ok] at h₂
  rw [h₂]

/-- A step keeps what is remembered good, and the thread knows what its new place says. -/
theorem advance_good (hw : Good lib site context w) (hk : Knows lib site context w pc)
    (hempty : ∀ call, pc = .checkFill call → w.dataPopulated = false → w.data = fun _ => none)
    (h : advance lib site context t w pc = some (w', pc')) :
    Good lib site context w' ∧ Knows lib site context w' pc' := by
  cases pc with
  | idle => cases h
  | test call =>
    cases h
    refine ⟨hw, ?_⟩
    split
    · next hpopulated => exact knows_populated hk hpopulated
    · exact hk
  | lockFill call =>
    obtain ⟨w₁, hw₁, heq⟩ := Option.map_eq_some_iff.mp h
    obtain ⟨-, rfl⟩ := take_eq_some hw₁
    cases heq
    exact ⟨hw.congr rfl rfl rfl rfl hw.returned, hk⟩
  | lock call =>
    obtain ⟨w₁, hw₁, heq⟩ := Option.map_eq_some_iff.mp h
    obtain ⟨-, rfl⟩ := take_eq_some hw₁
    cases heq
    exact ⟨hw.congr rfl rfl rfl rfl hw.returned, by cases call <;> exact hk⟩
  | checkFill call =>
    rw [advance] at h
    split at h
    · next hpopulated =>
      cases h
      exact ⟨hw, hk, hpopulated⟩
    · next hnot =>
      have hfalse : w.dataPopulated = false := by simpa using hnot
      split at h
      · next child hchild =>
        cases h
        refine ⟨hw, hk, hfalse, ?_⟩
        rw [hempty call rfl hfalse, populateData_eq hchild]
      · cases h
  | fill call fuel child =>
    obtain ⟨huses, hfalse, hloop⟩ := hk
    obtain ⟨rfl, rfl, rfl⟩ | ⟨n, child', cell, data, rfl, rfl, hcell, hdata, rfl, rfl⟩ :=
      fillStep_eq_some h
    · rw [forSiblings_none] at hloop
      exact ⟨hw, huses, hfalse, hloop.symm⟩
    · rw [forSiblings_next hcell hdata] at hloop
      refine ⟨⟨hw.counts, hw.queries, fun htrue => ?_, hw.returned⟩, huses, hfalse, hloop⟩
      rw [hfalse] at htrue
      cases htrue
  | setPopulated call =>
    cases h
    obtain ⟨huses, -, hdata⟩ := hk
    exact ⟨⟨hw.counts, hw.queries, fun _ => hdata, hw.returned⟩, huses, rfl⟩
  | unlockFill call =>
    cases h
    exact ⟨hw.congr rfl rfl rfl rfl hw.returned, knows_populated hk.1 hk.2⟩
  | look call =>
    cases h
    exact ⟨hw, knows_lookUp hw hk⟩
  | storeCount query n =>
    cases h
    refine ⟨⟨fun query' n' hn' => ?_, hw.queries, hw.populated, hw.returned⟩,
      congrArg Answer.count hk.symm⟩
    rcases update_eq_some hn' with ⟨rfl, rfl⟩ | hold
    · exact hk
    · exact hw.counts query' n' hold
  | storeQuery query s =>
    cases h
    refine ⟨⟨hw.counts, fun query' s' hs' => ?_, hw.populated, hw.returned⟩, hk.2.symm⟩
    rcases update_eq_some hs' with ⟨rfl, rfl⟩ | hold
    · exact hk.1
    · exact hw.queries query' s' hold
  | unlock call answer =>
    cases h
    exact ⟨hw.congr rfl rfl rfl rfl (List.forall_mem_cons.mpr ⟨hk, hw.returned⟩), trivial⟩
  | copy =>
    cases h
    refine ⟨hw.congr rfl rfl rfl rfl (List.forall_mem_cons.mpr ⟨?_, hw.returned⟩), trivial⟩
    exact congrArg Answer.data (hw.populated hk).symm

/-! ### The invariant -/

structure Inv (lib : Libxml) (site : Site) (context : NodeId) (s : State) : Prop where
  owns : Owns s.shared.mutex fun t => (s.threads t).held
  good : Good lib site context s.shared
  knows : ∀ t, Knows lib site context s.shared (s.threads t)
  empty : s.shared.dataPopulated = false → (∀ t, (s.threads t).fills = false) →
    s.shared.data = fun _ => none

/-- What another thread knows is still so. -/
theorem knows_other {pc₂ : Pc} (hk : Knows lib site context w pc₂)
    (hdata : pc₂.fills = true → w'.data = w.data ∧ w'.dataPopulated = w.dataPopulated)
    (hpopulated : w.dataPopulated = true → w'.dataPopulated = true) :
    Knows lib site context w' pc₂ := by
  cases pc₂ with
  | fill call fuel child =>
    obtain ⟨hsame, hflag⟩ := hdata rfl
    rw [Knows, hsame, hflag]
    exact hk
  | setPopulated call =>
    obtain ⟨hsame, hflag⟩ := hdata rfl
    rw [Knows, hsame, hflag]
    exact hk
  | lock call | look call =>
    cases call with
    | getCount query => trivial
    | getData query => exact hpopulated hk
    | toVaeDbDataForContext => exact hk.elim
  | copy => exact hpopulated hk
  | unlockFill call => exact ⟨hk.1, hpopulated hk.2⟩
  | idle | test | lockFill | checkFill | storeCount | storeQuery | unlock => exact hk

/-- While a thread has the mutex, no other one fills in the data. -/
theorem Inv.alone {s : State} (hs : Inv lib site context s) (hheld : () ∈ (s.threads t).held)
    {t' : ℕ} (hne : t' ≠ t) : (s.threads t').fills = false := by
  cases hfills : (s.threads t').fills with
  | false => rfl
  | true => exact absurd (hs.owns.exclusive (Pc.held_of_fills hfills) hheld) hne

theorem inv_advance {s : State} (hs : Inv lib site context s)
    (h : advance lib site context t s.shared (s.threads t) = some (w', pc')) :
    Inv lib site context ⟨w', Function.update s.threads t pc'⟩ := by
  obtain ⟨hsame, hpopulated⟩ := advance_data h
  have hempty : ∀ call, s.threads t = .checkFill call → s.shared.dataPopulated = false →
      s.shared.data = fun _ => none := by
    intro call hcall hfalse
    refine hs.empty hfalse fun t' => ?_
    rcases eq_or_ne t' t with rfl | hne
    · rw [hcall]
      rfl
    · exact hs.alone (by simp [hcall, Pc.held]) hne
  obtain ⟨hgood, hknows⟩ := advance_good hs.good (hs.knows t) hempty h
  refine ⟨?_, hgood, fun t' => ?_, fun hfalse hnobody => ?_⟩
  · have hheld : (fun t' => (Function.update s.threads t pc' t').held) =
        Function.update (fun t' => (s.threads t').held) t pc'.held :=
      Function.comp_update Pc.held s.threads t pc'
    dsimp only
    rw [hheld]
    cases advance_moves (hs.knows t) h with
    | acquire hfree hmutex hheld =>
      rw [hmutex, hheld]
      exact hs.owns.acquire hfree
    | release hmutex hheld hfree =>
      rw [hmutex, hfree]
      exact hs.owns.release hheld (List.not_mem_nil)
    | keep hmutex hheld =>
      rw [hmutex]
      exact hs.owns.keep hheld
  · dsimp only
    rcases eq_or_ne t' t with rfl | hne
    · rw [Function.update_self]
      exact hknows
    · rw [Function.update_of_ne hne]
      refine knows_other (hs.knows t') (fun hfills => hsame ?_) hpopulated
      exact hs.alone (Pc.held_of_fills hfills) hne.symm
  · have hnot : (s.threads t).fills = false := by
      have hpc' : pc'.fills = false := by
        have hself := hnobody t
        dsimp only at hself
        rwa [Function.update_self] at hself
      cases hpc : s.threads t with
      | fill call fuel child =>
        rw [hpc] at h
        obtain ⟨-, -, rfl⟩ | ⟨n, child', cell, data, -, -, -, -, -, rfl⟩ := fillStep_eq_some h <;>
          cases hpc'
      | setPopulated call =>
        rw [hpc] at h
        cases h
        cases hfalse
      | _ => rfl
    obtain ⟨hdata, hflag⟩ := hsame hnot
    dsimp only at hfalse ⊢
    rw [hdata]
    refine hs.empty (hflag ▸ hfalse) fun t' => ?_
    rcases eq_or_ne t' t with rfl | hne
    · exact hnot
    · have hother := hnobody t'
      dsimp only at hother
      rwa [Function.update_of_ne hne] at hother

theorem inv_call {s : State} (hs : Inv lib site context s) (hidle : s.threads t = .idle)
    (call : Call) : Inv lib site context { s with threads := Function.update s.threads t call.first } := by
  refine ⟨?_, hs.good, fun t' => ?_, fun hfalse hnobody => hs.empty hfalse fun t' => ?_⟩
  · have hheld : (fun t' => (Function.update s.threads t call.first t').held) =
        Function.update (fun t' => (s.threads t').held) t call.first.held :=
      Function.comp_update Pc.held s.threads t call.first
    dsimp only
    rw [hheld]
    exact hs.owns.keep (by rw [hidle]; cases call <;> rfl)
  · dsimp only
    rcases eq_or_ne t' t with rfl | hne
    · rw [Function.update_self]
      exact knows_first call
    · rw [Function.update_of_ne hne]
      exact hs.knows t'
  · rcases eq_or_ne t' t with rfl | hne
    · rw [hidle]
      rfl
    · have hother := hnobody t'
      dsimp only at hother
      rwa [Function.update_of_ne hne] at hother

theorem inv_step (s : State) (a : Act) (s' : State) (hs : Inv lib site context s)
    (h : step lib site context s a = some s') : Inv lib site context s' := by
  cases a with
  | call t call =>
    rw [step] at h
    split at h
    · next hidle =>
      cases h
      exact inv_call hs hidle call
    · cases h
  | next t =>
    obtain ⟨⟨w', pc'⟩, hadvance, heq⟩ := Option.map_eq_some_iff.mp h
    cases heq
    exact inv_advance hs hadvance

theorem inv_init : Inv lib site context State.init where
  owns t m hm := by cases hm
  good := by
    constructor <;> simp [State.init, Shared.init]
  knows t := trivial
  empty _ _ := rfl

/-! ### The main result -/

theorem reads_populated {s : State} (hs : Inv lib site context s)
    (h : (s.threads t).readsData = true) : s.shared.dataPopulated = true := by
  have hk := hs.knows t
  cases hpc : s.threads t with
  | look call =>
    rw [hpc] at h hk
    cases call with
    | getData query => exact hk
    | _ => cases h
  | copy =>
    rw [hpc] at hk
    exact hk
  | _ =>
    rw [hpc] at h
    cases h

/-- CORRECT: however the steps of any number of `getCount`, `getData` and `toVaeDbDataForContext`
    calls on one Context interleave, every call that has returned has answered what it would have
    answered on its own, nothing remembered; and no thread is about to write to the data fields while
    another one is about to read or to write them, although one of the two readers takes no mutex. -/
theorem calls_answer_fresh {acts : List Act} {s : State}
    (h : run (step lib site context) State.init acts = some s) :
    (∀ r ∈ s.shared.returned, r.2 = fresh lib site context r.1) ∧
    ∀ t t', t ≠ t' → (s.threads t).writesData = true →
      (s.threads t').readsData = false ∧ (s.threads t').writesData = false := by
  have hs : Inv lib site context s := run_invariant' inv_step inv_init h
  refine ⟨hs.good.returned, fun t t' hne hwrites => ?_⟩
  have hfill : (s.threads t).fills = true := by
    cases hpc : s.threads t with
    | fill call fuel child => rfl
    | _ =>
      rw [hpc] at hwrites
      cases hwrites
  have hfalse : s.shared.dataPopulated = false := by
    have hk := hs.knows t
    cases hpc : s.threads t with
    | fill call fuel child =>
      rw [hpc] at hk
      exact hk.2.1
    | _ =>
      rw [hpc] at hwrites
      cases hwrites
  constructor
  · cases hreads : (s.threads t').readsData with
    | false => rfl
    | true =>
      have htrue := reads_populated hs hreads
      rw [hfalse] at htrue
      cases htrue
  · have hother := hs.alone (Pc.held_of_fills hfill) hne.symm
    cases hpc : s.threads t' with
    | fill call fuel child =>
      rw [hpc] at hother
      cases hother
    | _ => rfl

/-- A value and a copy of the data are asked for at once, and both threads find nothing there. -/
def beside : List Act :=
  [.call 0 (.getData "link"), .call 1 .toVaeDbDataForContext, .next 0, .next 1] ++
    List.replicate 9 (.next 0) ++ List.replicate 4 (.next 1)

theorem calls_answer_fresh_beside : ∃ site s,
    (Site.blank "shop" false []).loadXmlDoc sampleLib "feed" = .ok site ∧
    run (step sampleLib site (.parsed [2, 0, 0])) State.init beside = some s ∧
    s.shared.returned.length = 2 ∧
    (∀ r ∈ s.shared.returned, r.2 = fresh sampleLib site (.parsed [2, 0, 0]) r.1) ∧
    ∀ t t', t ≠ t' → (s.threads t).writesData = true →
      (s.threads t').readsData = false ∧ (s.threads t').writesData = false := by
  have hreturned : ((Site.blank "shop" false []).loadXmlDoc sampleLib "feed").toOption.bind
      (fun site => (run (step sampleLib site (.parsed [2, 0, 0])) State.init beside).map
        fun s => s.shared.returned.length) = some 2 := by
    decide +kernel
  obtain ⟨site, hload, hreturned⟩ := toOption_bind_eq_some.mp hreturned
  obtain ⟨s, hrun, hlength⟩ := Option.map_eq_some_iff.mp hreturned
  exact ⟨site, s, hload, hrun, hlength, calls_answer_fresh hrun⟩

end VaeDb.ContextCalls
