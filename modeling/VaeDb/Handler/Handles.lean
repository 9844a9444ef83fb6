import VaeDb.Handler.Alignment

/-! Response handles: the ids that `get` gives out, and what they stand for later.

    The id of a response is its place in the list of the session, counted from 1. Only a `get` that
    succeeds adds to the list, at its end; whatever throws, and wherever it throws, adds nothing. So
    the k-th `get` that succeeds gets place k, and the place keeps its response.

        calls        get ✓    get ✗    data ✗   get ✓    createInfo ✓   get ✓
        responses    [a]      [a]      [a]      [a, b]   [a, b]         [a, b, c]
        id           1                          2                       3

    The id is an `int32_t`: from the 2147483648th on it is not the place any more. -/

namespace VaeDb
open Schemes Xml Cpp S3

namespace Session

variable {rt : Runtime} {site : Site}

theorem length_foldl_after : ∀ (calls : List Call) (responses : List Response),
    (calls.foldl (Session.after rt site) responses).length =
      responses.length + (Session.answers rt site responses calls).countP addsResponse
  | [], _ => rfl
  | c :: calls, responses => by
    rw [List.foldl_cons, length_foldl_after calls, length_after, answers, List.countP_cons]
    split <;> omega

/-- What a call has done to the responses of its session, when `count` calls of `get` had succeeded
    before, and what its id stands for later. -/
structure Handled (site : Site) (count : ℕ) (a : Result Answer)
    (responses responses' later : List Response) : Prop where
  /-- a call that throws leaves the responses as they are -/
  failed : ∀ e, a = .error e → responses' = responses
  /-- so does every call that is not a `get` -/
  other : addsResponse a = false → responses' = responses
  /-- a `get` adds its response, and gives out its place -/
  got : ∀ r, a = .ok (.get r) → r.id = int32 (count + 1) ∧ ∃ response, response.Shows site r ∧
    responses' = responses ++ [response] ∧ later[count]? = some response ∧
    ((count : ℤ) + 1 < 2147483648 →
      r.id = count + 1 ∧ Session.response later (count + 1) = .ok response)

theorem int32_of_lt {n : ℤ} (hn : 0 ≤ n) (hlt : n < 2147483648) : int32 n = n :=
  Int.bmod_eq_of_le (by omega) (by omega)

theorem handled_answer {responses later : List Response} {c : Call}
    (hlater : Session.after rt site responses c <+: later) :
    Handled site responses.length (Session.answer rt site responses c) responses
      (Session.after rt site responses c) later := by
  have hother : addsResponse (Session.answer rt site responses c) = false →
      Session.after rt site responses c = responses := by
    intro hnone
    rcases @after_cases rt site responses c with ⟨-, hsame⟩ | ⟨_, _, _, _, _, _, -, hanswer, -, -⟩
    · exact hsame
    · rw [hanswer] at hnone
      cases hnone
  refine ⟨fun e he => hother (by rw [he]; rfl), hother, fun r hr => ?_⟩
  rcases @after_cases rt site responses c with
    ⟨hnone, -⟩ | ⟨p, q, options, shuffle, r', response, rfl, hanswer, hadd, hshows⟩
  · rw [hr] at hnone
    cases hnone
  · rw [hanswer] at hr
    cases hr
    have hplace : later[responses.length]? = some response :=
      getElem?_of_prefix hlater (by simp [hadd])
    obtain ⟨-, -, hid, -⟩ := fits_get hlater r hanswer
    refine ⟨hid, response, hshows, hadd, hplace, fun hlt => ?_⟩
    refine ⟨hid.trans (int32_of_lt (by omega) hlt), ?_⟩
    obtain ⟨hpos, -⟩ := List.getElem?_eq_some_iff.mp hplace
    have hnames : Names later.length ((responses.length : ℤ) + 1) := ⟨by omega, by omega, hlt⟩
    obtain ⟨named, hget, hnamed⟩ := response_of_names hnames
    rw [Int.add_sub_cancel, Int.toNat_natCast, hplace] at hget
    rw [hnamed, Option.some.inj hget]

theorem write_id {id : ℤ} {response : Response} {r : VaeDbResponse}
    (h : Response.writeVaeDbResponse site id response = .ok r) (id' : ℤ) :
    Response.writeVaeDbResponse site id' response = .ok { r with id := id' } := by
  obtain ⟨contexts, hcontexts, heq⟩ := bind_eq_ok.mp h
  cases heq
  exact bind_eq_ok.mpr ⟨contexts, hcontexts, rfl⟩

/-- A `get` that starts from the root succeeds whatever responses the session has. -/
theorem answer_root {q : String} {options : Options}
    {shuffle : ℕ → List NodeId → List NodeId} {r : VaeDbResponse}
    (h : Session.answer rt site [] (.get 0 q options shuffle) = .ok (.get r))
    (responses : List Response) :
    ∃ r', Session.answer rt site responses (.get 0 q options shuffle) = .ok (.get r') := by
  rw [Session.answer] at h
  cases hcall : Session.call (Lookups.fresh rt.lib site) rt site [] (.get 0 q options shuffle) with
  | error e =>
    rw [hcall] at h
    cases h
  | ok result =>
    obtain ⟨par, hpar, hrest⟩ := bind_eq_ok.mp hcall
    obtain ⟨response, hnew, hrest⟩ := bind_eq_ok.mp hrest
    obtain ⟨r₀, hwrite, -⟩ := bind_eq_ok.mp hrest
    cases hpar
    refine ⟨{ r₀ with id := int32 (responses.length + 1) }, ?_⟩
    have hagain : Session.call (Lookups.fresh rt.lib site) rt site responses
        (.get 0 q options shuffle) =
          .ok (.get { r₀ with id := int32 (responses.length + 1) }, responses ++ [response]) := by
      refine bind_eq_ok.mpr ⟨none, rfl, bind_eq_ok.mpr ⟨response, hnew, ?_⟩⟩
      exact bind_eq_ok.mpr ⟨_, write_id hwrite _, rfl⟩
    rw [Session.answer, hagain]
    rfl

end Session

namespace Handler

variable {rt : Runtime}

/-! ### Runs in two parts -/

theorem run_append : ∀ {ops₁ ops₂ : List Op} {h h' : Handler} {log : List (Op × Outcome)},
    h.run rt (ops₁ ++ ops₂) = some (h', log) →
    ∃ hm log₁ log₂, h.run rt ops₁ = some (hm, log₁) ∧ hm.run rt ops₂ = some (h', log₂) ∧
      log = log₁ ++ log₂
  | [], ops₂, h, h', log, hrun => ⟨h, [], log, rfl, hrun, rfl⟩
  | op :: ops₁, ops₂, h, h', log, hrun => by
    rw [List.cons_append, run] at hrun
    cases hstep : h.step rt op with
    | none =>
      rw [hstep] at hrun
      cases hrun
    | some r =>
      obtain ⟨h₁, outcome⟩ := r
      rw [hstep] at hrun
      obtain ⟨⟨h₂, log'⟩, hrest, heq⟩ := Option.map_eq_some_iff.mp hrun
      cases heq
      obtain ⟨hm, log₁, log₂, hrun₁, hrun₂, rfl⟩ := run_append hrest
      refine ⟨hm, (op, outcome) :: log₁, log₂, ?_, hrun₂, rfl⟩
      rw [run, hstep]
      exact Option.map_eq_some_iff.mpr ⟨_, hrun₁, rfl⟩

theorem stays_append {sessionId : ℤ} : ∀ {ops₁ ops₂ : List Op} {h hm : Handler}
    {log₁ : List (Op × Outcome)}, stays rt sessionId h (ops₁ ++ ops₂) = true →
    h.run rt ops₁ = some (hm, log₁) →
    stays rt sessionId h ops₁ = true ∧ stays rt sessionId hm ops₂ = true
  | [], ops₂, h, hm, log₁, hstays, hrun => by
    cases hrun
    exact ⟨stays_isSome hstays, hstays⟩
  | op :: ops₁, ops₂, h, hm, log₁, hstays, hrun => by
    rw [List.cons_append, stays, Bool.and_eq_true] at hstays
    rw [run] at hrun
    rw [stays, Bool.and_eq_true]
    cases hstep : h.step rt op with
    | none =>
      rw [hstep] at hrun
      cases hrun
    | some r =>
      obtain ⟨h₁, outcome⟩ := r
      rw [hstep] at hrun hstays
      obtain ⟨⟨h₂, log'⟩, hrest, heq⟩ := Option.map_eq_some_iff.mp hrun
      cases heq
      obtain ⟨hfirst, hlast⟩ := stays_append hstays.2 hrest
      exact ⟨⟨hstays.1, hfirst⟩, hlast⟩

/-! ### Handles -/

/-- The calls of `get` of a session that have succeeded. -/
def gets (sessionId : ℤ) (log : List (Op × Outcome)) : ℕ :=
  (log.filterMap (answerOf sessionId)).countP addsResponse

/-- CORRECT: in every run of the handler, from the moment a session is opened and for as long as it
    stays in `sessions`, every call of it is handled: a call that throws adds no response and takes
    no id; the k-th `get` that succeeds returns k as an `int32_t`, and place k keeps its response
    until the end of the run, where the id k, up to 2147483647, stands for it. -/
theorem handles_stable {before ops₁ ops₂ : List Op} {h₀ h₁ h₂ : Handler}
    {log₀ log : List (Op × Outcome)} {subdomain secretKey : String} {stagingMode : Bool}
    {suggested now sessionId generation : ℤ} {feed secret : Fetch} {rands : List ℤ} {c : Call}
    (hbefore : Handler.init.run rt before = some (h₀, log₀))
    (hopen : h₀.step rt
      (.openSession subdomain secretKey stagingMode suggested feed secret now rands) =
        some (h₁, .opened (.ok (sessionId, generation))))
    (hafter : h₁.run rt (ops₁ ++ .call sessionId c :: ops₂) = some (h₂, log))
    (hstays : stays rt sessionId h₁ (ops₁ ++ .call sessionId c :: ops₂) = true) :
    ∃ i obj h h' log₁ log₂ a s s' s₂,
      h₁.sessions sessionId = some ⟨i, now, []⟩ ∧ h₁.store.objects[i]? = some obj ∧
      h₁.run rt ops₁ = some (h, log₁) ∧ h.sessions sessionId = some s ∧
      h.step rt (.call sessionId c) = some (h', .answered a) ∧ h'.sessions sessionId = some s' ∧
      h'.run rt ops₂ = some (h₂, log₂) ∧ h₂.sessions sessionId = some s₂ ∧
      Session.Handled obj.site (gets sessionId log₁) a s.responses s'.responses s₂.responses := by
  obtain ⟨hc₁, i, obj, -, hobj, hs⟩ := opened_holds hbefore hopen
  have hh₁ : Holds h₁ sessionId obj.site [] := ⟨_, obj, hs, hobj, rfl, rfl⟩
  obtain ⟨h, log₁, log', hrun₁, hrun', -⟩ := run_append hafter
  obtain ⟨hstays₁, hstays'⟩ := stays_append hstays hrun₁
  have hc := run_coherent hc₁ hrun₁
  have hh := run_holds hc₁ hh₁ hstays₁ hrun₁
  have hgets : gets sessionId log₁ =
      ((ops₁.filterMap (callOf sessionId)).foldl (Session.after rt obj.site) []).length := by
    rw [Session.length_foldl_after, gets, run_answers hc₁ hh₁ hstays₁ hrun₁]
    exact (Nat.zero_add _).symm
  rw [run] at hrun'
  cases hstep : h.step rt (.call sessionId c) with
  | none =>
    rw [hstep] at hrun'
    cases hrun'
  | some r =>
    obtain ⟨h', outcome⟩ := r
    rw [hstep] at hrun'
    obtain ⟨⟨h₂', log₂⟩, hrun₂, heq⟩ := Option.map_eq_some_iff.mp hrun'
    cases heq
    rw [stays, hstep, Bool.and_eq_true] at hstays'
    obtain ⟨rfl, hh'⟩ := step_own hc hh hstep
    have hh₂ := run_holds (step_coherent hc hstep) hh' hstays'.2 hrun₂
    obtain ⟨s, -, hs, -, -, hresponses⟩ := hh
    obtain ⟨s', -, hs', -, -, hresponses'⟩ := hh'
    obtain ⟨s₂, -, hs₂, -, -, hresponses₂⟩ := hh₂
    refine ⟨i, obj, h, h', log₁, log₂, _, s, s', s₂, ‹_›, hobj, hrun₁, hs, hstep, hs', hrun₂, hs₂, ?_⟩
    rw [hgets, hresponses, hresponses', hresponses₂]
    exact Session.handled_answer (Session.prefix_foldl_after _ _)

/-- In the sample run, the first call of session 7. -/
theorem handles_stable_sample :
    ∃ (h₁ h h' : Handler) (log₁ : List (Op × Outcome)) (a : Result Answer) (site : Site)
      (s s' s₂ : Session),
    Handler.init.step sampleRuntime (sampleOpen 0 []) = some (h₁, .opened (.ok (7, 7))) ∧
    h₁.run sampleRuntime (sampleAfter.take 3) = some (h, log₁) ∧
    h.step sampleRuntime (.call 7 samplePages) = some (h', .answered a) ∧
    Session.Handled site (gets 7 log₁) a s.responses s'.responses s₂.responses := by
  obtain ⟨h₁, h₂, log, hopen, hrun, hstays⟩ := sample_run
  have hnone : Handler.init.run sampleRuntime [] = some (Handler.init, []) := rfl
  have hsplit : sampleAfter = sampleAfter.take 3 ++ .call 7 samplePages :: sampleAfter.drop 4 := rfl
  rw [hsplit] at hrun hstays
  obtain ⟨i, obj, h, h', log₁, log₂, a, s, s', s₂, -, -, hrun₁, -, hstep, -, -, -, hhandled⟩ :=
    handles_stable hnone hopen hrun hstays
  exact ⟨h₁, h, h', log₁, a, obj.site, s, s', s₂, hopen, hrun₁, hstep, hhandled⟩

/-! ### More responses than ids -/

/-- The same call again and again: each time it is answered, and by a `get` that succeeds. -/
theorem run_replicate {sessionId : ℤ} {site : Site} {c : Call}
    (hget : ∀ responses, ∃ r, Session.answer rt site responses c = .ok (.get r)) :
    ∀ (n : ℕ) {h : Handler} {responses : List Response}, AllCoherent rt h →
      Holds h sessionId site responses →
      ∃ h' log responses', h.run rt (List.replicate n (.call sessionId c)) = some (h', log) ∧
        stays rt sessionId h (List.replicate n (.call sessionId c)) = true ∧
        gets sessionId log = n ∧ AllCoherent rt h' ∧ Holds h' sessionId site responses' ∧
        responses'.length = responses.length + n
  | 0, h, responses, hc, hh => by
    obtain ⟨s, obj, hs, hrest⟩ := hh
    refine ⟨h, [], responses, rfl, ?_, rfl, hc, ⟨s, obj, hs, hrest⟩, rfl⟩
    rw [List.replicate_zero, stays, hs]
    rfl
  | n + 1, h, responses, hc, hh => by
    obtain ⟨r, hr⟩ := hget responses
    obtain ⟨h₁, outcome, hstep⟩ : ∃ h₁ outcome, h.step rt (.call sessionId c) = some (h₁, outcome) :=
      ⟨_, _, rfl⟩
    obtain ⟨rfl, hh₁⟩ := step_own hc hh hstep
    have hc₁ := step_coherent hc hstep
    obtain ⟨h', log, responses', hrun, hstays, hgets, hc', hh', hlength⟩ :=
      run_replicate hget n hc₁ hh₁
    refine ⟨h', (.call sessionId c, .answered (Session.answer rt site responses c)) :: log,
      responses', ?_, ?_, ?_, hc', hh', ?_⟩
    · rw [List.replicate_succ, run, hstep]
      exact Option.map_eq_some_iff.mpr ⟨_, hrun, rfl⟩
    · obtain ⟨s, obj, hs, -⟩ := hh
      rw [List.replicate_succ, stays, hstep, hs]
      exact hstays
    · have hanswer : answerOf sessionId (.call sessionId c,
          .answered (Session.answer rt site responses c)) =
            some (Session.answer rt site responses c) := if_pos rfl
      rw [gets, List.filterMap_cons_some hanswer, List.countP_cons, hr]
      exact congrArg (· + 1) hgets
    · rw [hlength, Session.length_after, hr]
      simp [addsResponse]
      omega

theorem addsResponse_iff {a : Result Answer} : addsResponse a = true ↔ ∃ r, a = .ok (.get r) := by
  constructor
  · intro h
    rcases a with e | ⟨r⟩ | _ | _ | _
    · cases h
    · exact ⟨r, rfl⟩
    all_goals cases h
  · rintro ⟨r, rfl⟩
    rfl

/-- A session with 2147483647 responses: the next `get` succeeds too, and returns another id than
    2147483648. -/
theorem handle_wraps :
    ∃ (h₁ h h' : Handler) (log : List (Op × Outcome)) (r : VaeDbResponse),
    Handler.init.step sampleRuntime (sampleOpen 0 []) = some (h₁, .opened (.ok (7, 7))) ∧
    h₁.run sampleRuntime (List.replicate 2147483647 (.call 7 samplePages)) = some (h, log) ∧
    stays sampleRuntime 7 h₁ (List.replicate 2147483647 (.call 7 samplePages)) = true ∧
    gets 7 log = 2147483647 ∧
    h.step sampleRuntime (.call 7 samplePages) = some (h', .answered (.ok (.get r))) ∧
    r.id = -2147483648 := by
  obtain ⟨h₁, -, -, hopen, -, -⟩ := sample_run
  have hnone : Handler.init.run sampleRuntime [] = some (Handler.init, []) := rfl
  obtain ⟨hc₁, i, obj, -, hobj, hs⟩ := opened_holds hnone hopen
  have hadds : (Handler.init.step sampleRuntime (sampleOpen 0 [])).map (fun result =>
      result.1.store.objects.all fun obj =>
        addsResponse (Session.answer sampleRuntime obj.site [] samplePages)) = some true := by
    decide +kernel
  rw [hopen, Option.map_some, Option.some.injEq, List.all_eq_true] at hadds
  obtain ⟨r₀, hr₀⟩ := addsResponse_iff.mp (hadds obj (List.mem_of_getElem? hobj))
  have hget := @Session.answer_root sampleRuntime _ _ _ _ _ hr₀
  obtain ⟨h, log, responses, hrun, hstays, hgets, hc, hh, hlength⟩ :=
    run_replicate hget 2147483647 hc₁ ⟨_, obj, hs, hobj, rfl, rfl⟩
  obtain ⟨r, hr⟩ := hget responses
  obtain ⟨h', outcome, hstep⟩ : ∃ h' outcome,
      h.step sampleRuntime (.call 7 samplePages) = some (h', outcome) := ⟨_, _, rfl⟩
  obtain ⟨rfl, -⟩ := step_own hc hh hstep
  have hhandled := @Session.handled_answer sampleRuntime _ _ _ samplePages
    (List.prefix_refl (Session.after sampleRuntime obj.site responses samplePages))
  obtain ⟨hid, -⟩ := hhandled.got r hr
  have hlast : h.step sampleRuntime (.call 7 samplePages) = some (h', .answered (.ok (.get r))) :=
    hstep.trans (congrArg (fun a => some (h', Outcome.answered a)) hr)
  have hcount : responses.length = 2147483647 := hlength.trans (Nat.zero_add _)
  refine ⟨h₁, h, h', log, r, hopen, hrun, hstays, hgets, hlast, ?_⟩
  rw [hid, hcount]
  rfl

end Handler

end VaeDb
