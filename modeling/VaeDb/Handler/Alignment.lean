import VaeDb.Handler.Isolation
import VaeDb.Session.FilterMatch
import VaeDb.Site.Answers

/-! `get`, `data` and `structure` answer row by row: what a client joins by position belongs together.

    A `get` answers with one list of contexts for each context of its parent response, in the order
    in which the parent's lists have them; `data` and `structure` of a response answer with one entry
    for each context in its lists, one list after another.

        response 1     [a, b]                     data 1       a  b
        response 2     [c] [d, e]                 structure 2  c  d  e
                        ↑a   ↑b   (parent 1)

    A session only ever adds responses, and only when a `get` succeeds. So one list of responses,
    those at the end of the run, says for every call of the run which contexts its answer is about.

    `data` has no answer where `populateData` comes to a node that an association has freed. -/

namespace VaeDb
open Schemes Xml Cpp

/-! ### Answers and contexts -/

/-- The lists of a `get` show the contexts of the response, list by list and one by one. -/
def Response.Shows (site : Site) (response : Response) (r : VaeDbResponse) : Prop :=
  List.Forall₂ (fun (found : ResponseContext) (c : VaeDbResponseForContext) =>
    c.totalItems = found.total ∧
      List.Forall₂ (fun x v => Response.toVaeDbContext site x = .ok v) found.contexts c.contexts)
    response.contexts r.contexts

/-- One list of the response for each of the contexts: what the query finds there. -/
def Response.Finds (rt : Runtime) (site : Site) (shuffle : ℕ → List NodeId → List NodeId)
    (query : String) (options : Options) (contexts : List (Option NodeId)) (response : Response) :
    Prop :=
  List.Forall₂ (fun (x : Option NodeId × ℕ) found =>
    Response.query (Lookups.fresh rt.lib site) rt site (shuffle x.2) (Request.parse options) x.1
      query = .ok found) contexts.zipIdx response.contexts

theorem Response.Shows.flatten {site : Site} {response : Response} {r : VaeDbResponse}
    (h : response.Shows site r) :
    List.Forall₂ (fun x v => Response.toVaeDbContext site x = .ok v) response.allContexts
      (r.contexts.flatMap VaeDbResponseForContext.contexts) :=
  List.rel_flatMap h fun _ _ hlist => hlist.2

theorem Response.Finds.length {rt : Runtime} {site : Site}
    {shuffle : ℕ → List NodeId → List NodeId} {query : String} {options : Options}
    {contexts : List (Option NodeId)} {response : Response} {r : VaeDbResponse}
    (h : response.Finds rt site shuffle query options contexts) (hr : response.Shows site r) :
    r.contexts.length = contexts.length := by
  rw [← hr.length_eq, ← h.length_eq, List.length_zipIdx]

/-- A response id that a client can name when there are `count` responses; it is an `int32_t`. -/
def Names (count : ℕ) (responseId : ℤ) : Prop :=
  1 ≤ responseId ∧ responseId ≤ count ∧ responseId < 2147483648

/-- The answer to a call, made when there were `count` responses, is about the contexts of `final`:
    a `get` about those of response `count + 1` and of its parent, the others about those of the
    response that they name. -/
def Fits (rt : Runtime) (site : Site) (final : List Response) (count : ℕ) :
    Call → Result Answer → Prop
  | .get responseId query options shuffle, a =>
    ∀ r, a = .ok (.get r) → ∃ response, final[count]? = some response ∧
      r.id = int32 (count + 1) ∧ response.Shows site r ∧
      List.Forall₂ (fun x v => Response.toVaeDbContext site x = .ok v) response.allContexts
        (r.contexts.flatMap VaeDbResponseForContext.contexts) ∧
      (responseId = 0 → r.contexts.length = 1 ∧
        response.Finds rt site shuffle query options [none]) ∧
      (Names count responseId → ∃ parent, final[(responseId - 1).toNat]? = some parent ∧
        r.contexts.length = parent.allContexts.length ∧
        response.Finds rt site shuffle query options (parent.allContexts.map some))
  | .data responseId, a =>
    Names count responseId → ∃ response, final[(responseId - 1).toNat]? = some response ∧
      ∃ ds, a = .ok (.data ds) ∧
        List.Forall₂ (fun x d => site.populateData x = .ok d) response.allContexts ds
  | .struct responseId, a =>
    Names count responseId → ∃ response, final[(responseId - 1).toNat]? = some response ∧
      ∃ ss, a = .ok (.struct ss) ∧
        List.Forall₂ (fun x s => Response.toVaeDbStructureForContext site x = .ok s)
          response.allContexts ss
  | .createInfo .., _ => True

/-- Whether the answer adds a response. -/
def addsResponse : Result Answer → Bool
  | .ok (.get _) => true
  | _ => false

/-- What holds of every call of a session and its answer; `count` is the number of responses at the
    beginning. -/
def EveryCall (P : ℕ → Call → Result Answer → Prop) : ℕ → List Call → List (Result Answer) → Prop
  | _, [], [] => True
  | count, c :: calls, a :: answers =>
    P count c a ∧ EveryCall P (if addsResponse a then count + 1 else count) calls answers
  | _, _, _ => False

/-- Every answer of a session fits. -/
def Aligned (rt : Runtime) (site : Site) (final : List Response) :
    ℕ → List Call → List (Result Answer) → Prop :=
  EveryCall (Fits rt site final)

/-! ### The nodes that the data are in -/

/-- The texts that a list of siblings begins with are there, and so is what stops them; or the list
    ends. -/
def TextsThere (site : Site) : ℕ → Option NodeId → Prop
  | _, none => True
  | 0, some _ => False
  | fuel + 1, some n => ∃ cell, site.doc n = some cell ∧
      (cell.data.type = .text → TextsThere site fuel cell.next)

/-- A list of siblings is there and ends, and the elements in it have their texts. -/
def FieldsThere (site : Site) : ℕ → Option NodeId → Prop
  | _, none => True
  | 0, some _ => False
  | fuel + 1, some n => ∃ cell, site.doc n = some cell ∧
      (cell.data.type = .element → TextsThere site site.allocated cell.children) ∧
      FieldsThere site fuel cell.next

/-- The node of a context is there, and its fields are; no list has more nodes than the document. -/
def DataThere (site : Site) (x : NodeId) : Prop :=
  ∃ ctxt, site.contexts x = some ctxt ∧ ∃ cell, site.doc ctxt.node = some cell ∧
    FieldsThere site site.allocated cell.children

/-- Where a `data` names one of `count` responses, the data of its contexts are there. -/
def ReadsThere (site : Site) (final : List Response) (count : ℕ) : Call → Prop
  | .data responseId => Names count responseId → ∀ response,
    final[(responseId - 1).toNat]? = some response → ∀ x ∈ response.allContexts, DataThere site x
  | _ => True

/-- Every `data` of a session reads what is there. -/
def Readable (site : Site) (final : List Response) : ℕ → List Call → List (Result Answer) → Prop :=
  EveryCall fun count c _ => ReadsThere site final count c

namespace Session

variable {rt : Runtime} {site : Site}

/-! ### One call -/

/-- Every context of a stored response is there. -/
def Live (site : Site) (responses : List Response) : Prop :=
  ∀ response ∈ responses, ∀ x ∈ response.allContexts, ∃ ctxt, site.contexts x = some ctxt

/-- What a `get` that succeeds has done. -/
theorem call_get {responses responses' : List Response} {p : ℤ} {q : String} {options : Options}
    {shuffle : ℕ → List NodeId → List NodeId} {a : Answer}
    (h : Session.call (Lookups.fresh rt.lib site) rt site responses (.get p q options shuffle) =
      .ok (a, responses')) :
    ∃ par response r, Session.parent responses p = .ok par ∧
      response.Finds rt site shuffle q options (Response.parents par) ∧
      response.Shows site r ∧ r.id = int32 (responses.length + 1) ∧
      a = .get r ∧ responses' = responses ++ [response] := by
  rw [Session.call] at h
  obtain ⟨par, hpar, h⟩ := bind_eq_ok.mp h
  obtain ⟨response, hnew, h⟩ := bind_eq_ok.mp h
  obtain ⟨r, hwrite, h⟩ := bind_eq_ok.mp h
  cases h
  refine ⟨par, response, r, hpar, ?_, ?_, ?_, rfl, rfl⟩
  · obtain ⟨contexts, hcontexts, hresponse⟩ := bind_eq_ok.mp hnew
    cases hresponse
    exact mapM_eq_ok.mp hcontexts
  · obtain ⟨contexts, hcontexts, hr⟩ := bind_eq_ok.mp hwrite
    obtain rfl := pure_eq_ok.mp hr
    refine (mapM_eq_ok.mp hcontexts).imp fun found c hc => ?_
    obtain ⟨vs, hvs, hc⟩ := bind_eq_ok.mp hc
    cases hc
    exact ⟨rfl, mapM_eq_ok.mp hvs⟩
  · obtain ⟨contexts, -, hr⟩ := bind_eq_ok.mp hwrite
    rw [← pure_eq_ok.mp hr]

/-- A response that a client can name is found. -/
theorem response_of_names {responses : List Response} {k : ℤ} (hk : Names responses.length k) :
    ∃ response, responses[(k - 1).toNat]? = some response ∧
      Session.response responses k = .ok response := by
  obtain ⟨hpos, hle, hlt⟩ := hk
  have hmod : k % 2 ^ 64 = k := Int.emod_eq_of_lt (by omega) (by omega)
  have hmod' : (k - 1) % 2 ^ 64 = k - 1 := Int.emod_eq_of_lt (by omega) (by omega)
  have hidx : (k - 1).toNat < responses.length := by omega
  have hget := List.getElem?_eq_getElem hidx
  refine ⟨_, hget, ?_⟩
  rw [Session.response, hmod, if_pos hle, hmod', hget]
  rfl

/-- A response shows its contexts only if they are there. -/
theorem live_of_shows {response : Response} {r : VaeDbResponse} (h : response.Shows site r) :
    ∀ x ∈ response.allContexts, ∃ ctxt, site.contexts x = some ctxt := by
  intro x hx
  obtain ⟨found, hfound, hx⟩ := List.mem_flatMap.mp hx
  obtain ⟨c, -, -, hcontexts⟩ := forall₂_mem_left h hfound
  obtain ⟨v, -, hv⟩ := forall₂_mem_left hcontexts hx
  obtain ⟨ctxt, hctxt, -⟩ := bind_eq_ok.mp hv
  exact ⟨ctxt, deref_eq_ok.mp hctxt⟩

/-- The responses after a call: the same ones, or one more after a `get`. -/
theorem after_cases (responses : List Response) (c : Call) :
    (addsResponse (Session.answer rt site responses c) = false ∧
      Session.after rt site responses c = responses) ∨
    ∃ p q options shuffle r response, c = .get p q options shuffle ∧
      Session.answer rt site responses c = .ok (.get r) ∧
      Session.after rt site responses c = responses ++ [response] ∧ response.Shows site r := by
  rw [Session.answer, Session.after]
  cases hcall : Session.call (Lookups.fresh rt.lib site) rt site responses c with
  | error e => exact .inl ⟨rfl, rfl⟩
  | ok result =>
    obtain ⟨a, responses'⟩ := result
    cases c with
    | get p q options shuffle =>
      obtain ⟨par, response, r, -, -, hshows, -, rfl, rfl⟩ := call_get hcall
      exact .inr ⟨p, q, options, shuffle, r, response, rfl, rfl, rfl, hshows⟩
    | data k =>
      obtain ⟨response, -, h⟩ := bind_eq_ok.mp hcall
      obtain ⟨ds, -, h⟩ := bind_eq_ok.mp h
      cases h
      exact .inl ⟨rfl, rfl⟩
    | struct k =>
      obtain ⟨response, -, h⟩ := bind_eq_ok.mp hcall
      obtain ⟨ss, -, h⟩ := bind_eq_ok.mp h
      cases h
      exact .inl ⟨rfl, rfl⟩
    | createInfo p q =>
      obtain ⟨par, -, h⟩ := bind_eq_ok.mp hcall
      obtain ⟨infos, -, h⟩ := bind_eq_ok.mp h
      cases h
      exact .inl ⟨rfl, rfl⟩

/-! ### Reading the data -/

theorem contentFrom_returns : ∀ (fuel : ℕ) (first : Option NodeId) (content : Option String),
    ReturnsIff (TextsThere site fuel first) (site.contentFrom fuel first content)
  | 0, none, content | _ + 1, none, content => .pure content
  | 0, some _, _ => .undef
  | fuel + 1, some child, _ => .follow fun cell _ =>
    (ReturnsIff.ite (fun _ => contentFrom_returns fuel cell.next _) fun _ => .pure _).congr (by simp)

theorem populateField_returns (data : DataMap) (child : Cell NodeId Info) :
    ReturnsIff (child.data.type = .element → TextsThere site site.allocated child.children)
      (site.populateField data child) := by
  refine (ReturnsIff.ite (fun _ => ?_) fun _ => .pure data).congr (and_iff_left fun _ => trivial)
  refine (contentFrom_returns _ _ _).before fun content _ => ?_
  cases content <;> exact ⟨_, rfl⟩

theorem fields_return : ∀ (fuel : ℕ) (first : Option NodeId) (data : DataMap),
    ReturnsIff (FieldsThere site fuel first) (site.forSiblings site.populateField fuel first data)
  | 0, none, data | _ + 1, none, data => .pure data
  | 0, some _, _ => .undef
  | fuel + 1, some _, data => .follow fun cell _ =>
    (populateField_returns data cell).andThen fun data _ => fields_return fuel cell.next data

/-- The data of a context can be read exactly if they are there. -/
theorem populateData_returns (x : NodeId) : ReturnsIff (DataThere site x) (site.populateData x) :=
  .follow fun _ _ => .follow fun _ _ => fields_return _ _ _

/-! ### One answer -/

theorem getElem?_of_prefix {α : Type} {l l' : List α} (h : l <+: l') {i : ℕ} {a : α}
    (ha : l[i]? = some a) : l'[i]? = some a := by
  obtain ⟨t, rfl⟩ := h
  obtain ⟨hi, -⟩ := List.getElem?_eq_some_iff.mp ha
  rw [List.getElem?_append_left hi, ha]

/-- A session only adds responses. -/
theorem prefix_after (responses : List Response) (c : Call) :
    responses <+: Session.after rt site responses c := by
  rcases @after_cases rt site responses c with ⟨-, hsame⟩ | ⟨_, _, _, _, _, response, -, -, hadd, -⟩
  · exact ⟨[], by rw [hsame, List.append_nil]⟩
  · exact ⟨[response], hadd.symm⟩

theorem fits_get {responses final : List Response} {p : ℤ} {q : String} {options : Options}
    {shuffle : ℕ → List NodeId → List NodeId}
    (hfinal : Session.after rt site responses (.get p q options shuffle) <+: final) :
    Fits rt site final responses.length (.get p q options shuffle)
      (Session.answer rt site responses (.get p q options shuffle)) := by
  intro r ha
  rw [Session.answer] at ha
  rw [Session.after] at hfinal
  cases hcall : Session.call (Lookups.fresh rt.lib site) rt site responses
    (.get p q options shuffle) with
  | error e =>
    rw [hcall] at ha
    cases ha
  | ok result =>
    obtain ⟨a, responses'⟩ := result
    rw [hcall] at ha hfinal
    obtain ⟨par, response, r', hpar, hfinds, hshows, hid, rfl, rfl⟩ := call_get hcall
    cases ha
    have hprefix : responses <+: final := (List.prefix_append _ _).trans hfinal
    refine ⟨response, getElem?_of_prefix hfinal (by simp), hid, hshows, hshows.flatten, ?_, ?_⟩
    · rintro rfl
      cases hpar
      exact ⟨hfinds.length hshows, hfinds⟩
    · intro hnames
      obtain ⟨parent, hparent, hresponse⟩ := response_of_names hnames
      have hne : p ≠ 0 := by
        have := hnames.1
        omega
      rw [Session.parent, if_pos hne, hresponse] at hpar
      cases hpar
      have hall : Response.parents (some parent) = parent.allContexts.map some := by
        rw [Response.allContexts, List.map_flatMap]
        rfl
      rw [hall] at hfinds
      exact ⟨parent, getElem?_of_prefix hprefix hparent,
        by rw [hfinds.length hshows, List.length_map], hfinds⟩

theorem answer_data {responses : List Response} {response : Response} {k : ℤ}
    (h : Session.response responses k = .ok response) :
    Session.answer rt site responses (.data k) =
      (response.allContexts.mapM site.populateData).map Answer.data := by
  rw [Session.answer, Session.call, h]
  change ((response.allContexts.mapM site.populateData >>= fun ds =>
    pure (Answer.data ds, responses)) : Result _).map Prod.fst = _
  cases response.allContexts.mapM site.populateData <;> rfl

theorem answer_struct {responses : List Response} {response : Response} {k : ℤ}
    (h : Session.response responses k = .ok response) :
    Session.answer rt site responses (.struct k) =
      (response.allContexts.mapM (Response.toVaeDbStructureForContext site)).map Answer.struct := by
  rw [Session.answer, Session.call, h]
  change ((response.allContexts.mapM (Response.toVaeDbStructureForContext site) >>= fun ss =>
    pure (Answer.struct ss, responses)) : Result _).map Prod.fst = _
  cases response.allContexts.mapM (Response.toVaeDbStructureForContext site) <;> rfl

/-- A loop that collects fails where an item does. -/
theorem mapM_eq_error {α β : Type} {f : α → Result β} {e : Failure} :
    ∀ {l : List α}, l.mapM f = .error e → ∃ a ∈ l, f a = .error e
  | [], h => by cases h
  | a :: l, h => by
    rw [List.mapM_cons] at h
    cases hb : f a with
    | error e' =>
      rw [hb] at h
      cases h
      exact ⟨a, List.mem_cons_self, hb⟩
    | ok b =>
      rw [hb] at h
      cases hbs : l.mapM f with
      | error e' =>
        obtain ⟨x, hx, hfx⟩ := mapM_eq_error hbs
        rw [hbs] at h
        cases h
        exact ⟨x, List.mem_cons_of_mem a hx, hfx⟩
      | ok bs =>
        rw [hbs] at h
        cases h

/-- `data` returns for the responses whose contexts have their data. -/
theorem fits_data_iff {responses final : List Response} (hfinal : responses <+: final) (k : ℤ) :
    Fits rt site final responses.length (.data k) (Session.answer rt site responses (.data k)) ↔
      ReadsThere site final responses.length (.data k) := by
  refine imp_congr_right fun hnames => ?_
  obtain ⟨response, hget, hresponse⟩ := response_of_names hnames
  have hfound := getElem?_of_prefix hfinal hget
  have hreturns := ReturnsIff.mapM (l := response.allContexts) (@populateData_returns site)
  rw [answer_data hresponse]
  simp only [hfound, Option.some.injEq, exists_eq_left', forall_eq', ← hreturns.iff]
  constructor
  · rintro ⟨ds, hds, -⟩
    cases hmap : response.allContexts.mapM site.populateData with
    | error e =>
      rw [hmap] at hds
      cases hds
    | ok ds => exact ⟨ds, rfl⟩
  · rintro ⟨ds, hds⟩
    exact ⟨ds, by rw [hds]; rfl, mapM_eq_ok.mp hds⟩

/-- `structure` returns for every response that a client can name. -/
theorem fits_struct {responses final : List Response} (hlive : Live site responses)
    (hfinal : responses <+: final) (k : ℤ) :
    Fits rt site final responses.length (.struct k)
      (Session.answer rt site responses (.struct k)) := by
  intro hnames
  obtain ⟨response, hget, hresponse⟩ := response_of_names hnames
  refine ⟨response, getElem?_of_prefix hfinal hget, ?_⟩
  have hthere := hlive response (List.mem_of_getElem? hget)
  rw [answer_struct hresponse]
  cases hss : response.allContexts.mapM (Response.toVaeDbStructureForContext site) with
  | error e =>
    obtain ⟨x, hx, he⟩ := mapM_eq_error hss
    obtain ⟨ctxt, hctxt⟩ := hthere x hx
    rw [Response.toVaeDbStructureForContext, hctxt] at he
    cases he
  | ok ss => exact ⟨ss, rfl, mapM_eq_ok.mp hss⟩

/-! ### All answers -/

theorem live_after {responses : List Response} (hlive : Live site responses) (c : Call) :
    Live site (Session.after rt site responses c) := by
  rcases @after_cases rt site responses c with
    ⟨-, hsame⟩ | ⟨_, _, _, _, _, response, -, -, hadd, hshows⟩
  · rwa [hsame]
  · rw [hadd]
    intro response' hmem
    rcases List.mem_append.mp hmem with hmem | hmem
    · exact hlive response' hmem
    · rw [List.mem_singleton.mp hmem]
      exact live_of_shows hshows

theorem length_after (responses : List Response) (c : Call) :
    (Session.after rt site responses c).length =
      if addsResponse (Session.answer rt site responses c) then responses.length + 1
      else responses.length := by
  rcases @after_cases rt site responses c with
    ⟨hnone, hsame⟩ | ⟨_, _, _, _, r, response, -, hanswer, hadd, -⟩
  · simp [hnone, hsame]
  · simp [hanswer, hadd, addsResponse]

theorem prefix_foldl_after : ∀ (calls : List Call) (responses : List Response),
    responses <+: calls.foldl (Session.after rt site) responses
  | [], _ => List.prefix_rfl
  | c :: calls, responses => (prefix_after responses c).trans (prefix_foldl_after calls _)

theorem fits_answer_iff {responses final : List Response} (hlive : Live site responses) {c : Call}
    (hfinal : Session.after rt site responses c <+: final) :
    Fits rt site final responses.length c (Session.answer rt site responses c) ↔
      ReadsThere site final responses.length c := by
  have hprefix : responses <+: final := (prefix_after responses c).trans hfinal
  cases c with
  | get p q options shuffle => exact iff_of_true (fits_get hfinal) trivial
  | data k => exact fits_data_iff hprefix k
  | struct k => exact iff_of_true (fits_struct hlive hprefix k) trivial
  | createInfo p q => exact iff_of_true trivial trivial

/-- The induction is on the calls; the responses at the end are the same for the rest of them. -/
theorem aligned_answers_iff : ∀ {calls : List Call} {responses : List Response}, Live site responses →
    (Aligned rt site (calls.foldl (Session.after rt site) responses) responses.length calls
        (Session.answers rt site responses calls) ↔
      Readable site (calls.foldl (Session.after rt site) responses) responses.length calls
        (Session.answers rt site responses calls))
  | [], _, _ => Iff.rfl
  | c :: calls, responses, hlive => by
    refine and_congr (fits_answer_iff hlive (prefix_foldl_after calls _)) ?_
    rw [← length_after]
    exact aligned_answers_iff (live_after hlive c)

end Session

/-! ### A session in a run of the handler -/

namespace Handler
open S3

variable {rt : Runtime}

/-- CORRECT: in every run of the handler, from the moment a session is opened and for as long as it
    stays in `sessions`, its answers are aligned exactly if whenever a `data` names a response, the
    fields of the contexts in that response are there. Then every `get` that succeeds gives one list
    for each context of its parent, in the parent's order, and every `data` and `structure` of a
    response gives one entry for each context that the `get` of this response listed, in the same
    order. `final` are the responses that the session has in the end. -/
theorem answers_aligned_iff {before after : List Op} {h₀ h₁ h₂ : Handler}
    {log₀ log : List (Op × Outcome)} {subdomain secretKey : String} {stagingMode : Bool}
    {suggested now sessionId generation : ℤ} {feed secret : Fetch} {rands : List ℤ}
    (hbefore : Handler.init.run rt before = some (h₀, log₀))
    (hopen : h₀.step rt
      (.openSession subdomain secretKey stagingMode suggested feed secret now rands) =
        some (h₁, .opened (.ok (sessionId, generation))))
    (hafter : h₁.run rt after = some (h₂, log))
    (hstays : stays rt sessionId h₁ after = true) :
    ∃ i obj final, h₁.sessions sessionId = some ⟨i, now, []⟩ ∧ h₁.store.objects[i]? = some obj ∧
      Holds h₂ sessionId obj.site final ∧
      (Aligned rt obj.site final 0 (after.filterMap (callOf sessionId))
          (log.filterMap (answerOf sessionId)) ↔
        Readable obj.site final 0 (after.filterMap (callOf sessionId))
          (log.filterMap (answerOf sessionId))) := by
  obtain ⟨hc₁, i, obj, -, hobj, hs⟩ := opened_holds hbefore hopen
  have hholds : Holds h₁ sessionId obj.site [] := ⟨_, obj, hs, hobj, rfl, rfl⟩
  have hlive : Session.Live obj.site [] := fun response hmem => by cases hmem
  have hanswers := run_answers hc₁ hholds hstays hafter
  exact ⟨i, obj, _, hs, hobj, run_holds hc₁ hholds hstays hafter,
    hanswers ▸ Session.aligned_answers_iff hlive⟩

/-- How many rows an answer has, if it answers a `data`. -/
def dataRows : Result Answer → Option ℕ
  | .ok (.data ds) => some ds.length
  | _ => none

/-- The two pages of the sample feed have their data; there is no second response. -/
theorem answers_aligned_iff_sample :
    ∃ (h₁ h₂ : Handler) (log : List (Op × Outcome)) (obj : SiteObject) (final : List Response),
    Handler.init.step sampleRuntime (sampleOpen 0 []) = some (h₁, .opened (.ok (7, 7))) ∧
    h₁.run sampleRuntime sampleAfter = some (h₂, log) ∧ Holds h₂ 7 obj.site final ∧
    (Aligned sampleRuntime obj.site final 0 [samplePages, .data 1, .data 2]
        (log.filterMap (answerOf 7)) ↔
      Readable obj.site final 0 [samplePages, .data 1, .data 2] (log.filterMap (answerOf 7))) ∧
    (log.filterMap (answerOf 7)).map dataRows = [none, some 2, none] := by
  obtain ⟨h₁, h₂, log, hstep, hrun, hstays⟩ := sample_run
  have hnone : Handler.init.run sampleRuntime [] = some (Handler.init, []) := rfl
  obtain ⟨i, obj, final, -, -, hholds, haligned⟩ := answers_aligned_iff hnone hstep hrun hstays
  refine ⟨h₁, h₂, log, obj, final, hstep, hrun, hholds, haligned, ?_⟩
  have hrows : ((Handler.init.step sampleRuntime (sampleOpen 0 [])).bind fun r =>
      (r.1.run sampleRuntime sampleAfter).map fun r =>
        (r.2.filterMap (answerOf 7)).map dataRows) = some [none, some 2, none] := by decide +kernel
  rw [hstep, Option.bind_some, hrun, Option.map_some, Option.some.injEq] at hrows
  exact hrows

/-! ### A page whose data are not there -/

/-- The link on page 1 goes on to an item of page 3 that was taken out. -/
def filterRuntime : Runtime := { sampleRuntime with
  lib := { Response.filterLib with
    xmlXPathEvalExpression := fun doc n q =>
      if q = "page" then .nodeset [.node (.parsed [0, 0, 0]), .node (.parsed [1, 0, 0])]
      else sampleLib.xmlXPathEvalExpression doc n q } }

/-- Session 7 asks for the pages and their data. -/
def pagesAndData : List Op := [.call 7 samplePages, .call 7 (.data 1)]

theorem not_answers_aligned :
    ¬ ∀ (rt : Runtime) (before after : List Op) (h₀ h₁ h₂ : Handler)
      (log₀ log : List (Op × Outcome)) (subdomain secretKey : String) (stagingMode : Bool)
      (suggested now sessionId generation : ℤ) (feed secret : Fetch) (rands : List ℤ),
      Handler.init.run rt before = some (h₀, log₀) →
      h₀.step rt (.openSession subdomain secretKey stagingMode suggested feed secret now rands) =
        some (h₁, .opened (.ok (sessionId, generation))) →
      h₁.run rt after = some (h₂, log) → stays rt sessionId h₁ after = true →
      ∃ i obj final, h₁.sessions sessionId = some ⟨i, now, []⟩ ∧
        h₁.store.objects[i]? = some obj ∧
        Aligned rt obj.site final 0 (after.filterMap (callOf sessionId))
          (log.filterMap (answerOf sessionId)) := by
  intro h
  have hopened : ((Handler.init.step filterRuntime (sampleOpen 0 [])).bind fun r => openedAs r.2) =
      some (7, 7) := by decide +kernel
  have hstays : ((Handler.init.step filterRuntime (sampleOpen 0 [])).map fun r =>
      stays filterRuntime 7 r.1 pagesAndData) = some true := by decide +kernel
  -- the `get` adds a response, and `data` of it crashes
  have hanswers : ((Handler.init.step filterRuntime (sampleOpen 0 [])).bind fun r =>
      (r.1.run filterRuntime pagesAndData).map fun r => (r.2.filterMap (answerOf 7)).map fun a =>
        (addsResponse a, dataRows a)) = some [(true, none), (false, none)] := by decide +kernel
  rcases hstep : Handler.init.step filterRuntime (sampleOpen 0 []) with _ | ⟨h₁, outcome⟩ <;>
    rw [hstep] at hopened hstays hanswers
  · cases hopened
  obtain rfl : outcome = .opened (.ok (7, 7)) := by
    rcases outcome with (e | r) | r | r
    · cases hopened
    · cases hopened
      rfl
    · cases hopened
    · cases hopened
  rw [Option.bind_some] at hanswers
  obtain ⟨⟨h₂, log⟩, hrun, hanswers⟩ := Option.map_eq_some_iff.mp hanswers
  obtain ⟨i, obj, final, -, -, haligned⟩ := h filterRuntime [] pagesAndData _ _ _ _ _ _ _ _ _ _ _ _
    _ _ _ rfl hstep hrun (Option.some.inj hstays)
  obtain ⟨a, answers, hlog, ha, hrest⟩ := List.map_eq_cons_iff.mp hanswers
  obtain ⟨b, answers, rfl, hb, hnil⟩ := List.map_eq_cons_iff.mp hrest
  rw [hlog] at haligned
  obtain ⟨-, hfits, -⟩ := haligned
  rw [(Prod.mk.inj ha).1] at hfits
  obtain ⟨response, -, ds, rfl, -⟩ := hfits ⟨by decide, by decide, by decide⟩
  cases (Prod.mk.inj hb).2

end Handler

end VaeDb
