import VaeDb.Handler.Isolation
import VaeDb.Schemes.Runs

/-! How long a session lives: who may end it.

    A session ends when a client closes it or when the reaper finds it too old. `openSession` looks
    for an id that is not in use, so it never takes the place of a session, whatever id the client
    suggests. `closeSession` is given a secret key, as every other request is, but does not look at
    it: any client that knows or guesses the id of a session ends it.

        sessions[id] ── closeSession(id, key) ──▶ gone      (whatever the key)
                     ── reap, 62 s later ───────▶ gone
                     ── everything else ────────▶ still there -/

namespace VaeDb

/-- The same session: it may have answered calls in between. -/
def Session.Same (s s' : Session) : Prop := s'.site = s.site ∧ s'.createdAt = s.createdAt

namespace Handler
open Schemes S3

variable {rt : Runtime}

/-- The key is valid for the Site of the session. -/
def ValidFor (h : Handler) (s : Session) (secretKey : String) : Prop :=
  ∃ obj, h.store.objects[s.site]? = some obj ∧ obj.site.validateSecretKey secretKey = .ok ()

/-- What a step may do to the sessions. -/
structure Authorised (h : Handler) (op : Op) (h' : Handler) (outcome : Outcome) : Prop where
  /-- a session that is not there any more was closed with a valid key, or was too old -/
  removed : ∀ sessionId s, h.sessions sessionId = some s →
    (¬ ∃ s', h'.sessions sessionId = some s' ∧ s.Same s') →
      (∃ secretKey, op = .closeSession sessionId secretKey ∧ h.ValidFor s secretKey) ∨
      ∃ now, op = .reap now ∧ 62 < now - s.createdAt
  /-- opening leaves every session as it is -/
  opening : ∀ d k m suggested feed secret now rands,
    op = .openSession d k m suggested feed secret now rands →
      ∀ sessionId s, h.sessions sessionId = some s → h'.sessions sessionId = some s
  /-- a new session gets an id that was not in use -/
  fresh : ∀ sessionId generation, outcome = .opened (.ok (sessionId, generation)) →
    h.sessions sessionId = none

/-- Whatever the step does is authorised. -/
def Lawful (rt : Runtime) (h : Handler) (op : Op) : Prop :=
  ∀ h' outcome, h.step rt op = some (h', outcome) → Authorised h op h' outcome

/-- If a client closes a session that is there, it does so with a valid key. -/
def ClosedByKey (h : Handler) : Op → Prop
  | .closeSession sessionId secretKey =>
    ∀ s, h.sessions sessionId = some s → h.ValidFor s secretKey
  | _ => True

/-! ### Steps -/

/-- A call leaves every session there, its own one with new responses. -/
theorem call_same (h : Handler) (id : ℤ) (c : Call) {sessionId : ℤ} {s : Session}
    (hs : h.sessions sessionId = some s) :
    ∃ s', (h.call rt id c).1.sessions sessionId = some s' ∧ s.Same s' := by
  rw [call]
  cases hid : h.sessions id with
  | none => exact ⟨s, hs, rfl, rfl⟩
  | some s₀ =>
    dsimp only
    cases hobj : h.store.objects[s₀.site]? with
    | none => exact ⟨s, hs, rfl, rfl⟩
    | some obj =>
      dsimp only
      split
      · exact ⟨s, hs, rfl, rfl⟩
      · next answer responses caches _ =>
        rcases eq_or_ne sessionId id with rfl | hne
        · obtain rfl : s₀ = s := Option.some.inj (hid.symm.trans hs)
          exact ⟨_, Function.update_self .., rfl, rfl⟩
        · exact ⟨s, (Function.update_of_ne hne ..).trans hs, rfl, rfl⟩

/-- Opening keeps every session and takes an id that was not in use. -/
theorem openSession_keeps {h h' : Handler} {d k : String} {m : Bool} {suggested now : ℤ}
    {feed secret : Fetch} {rands : List ℤ} {r : Result (ℤ × ℤ)}
    (hopen : h.openSession rt d k m suggested feed secret now rands = some (h', r)) :
    (∀ sessionId s, h.sessions sessionId = some s → h'.sessions sessionId = some s) ∧
      ∀ sessionId generation, r = .ok (sessionId, generation) → h.sessions sessionId = none := by
  obtain ⟨-, ⟨hsame, e, rfl⟩ | ⟨id, i, obj, hfree, hsessions, -, -, rfl⟩⟩ := openSession_cases hopen
  · refine ⟨fun sessionId s hs => by rw [hsame, hs], fun sessionId generation hr => ?_⟩
    cases hr
  · refine ⟨fun sessionId s hs => ?_, fun sessionId generation hr => ?_⟩
    · have hne : sessionId ≠ id := by
        rintro rfl
        rw [hfree] at hs
        cases hs
      rw [hsessions, Function.update_of_ne hne, hs]
    · cases hr
      exact hfree

/-- A step that keeps all sessions and answers no `openSession` is authorised. -/
theorem authorised_of_kept {h h' : Handler} {op : Op} {outcome : Outcome}
    (hkept : ∀ sessionId s, h.sessions sessionId = some s →
      ∃ s', h'.sessions sessionId = some s' ∧ s.Same s')
    (hop : ∀ d k m suggested feed secret now rands,
      op ≠ .openSession d k m suggested feed secret now rands)
    (houtcome : ∀ r, outcome ≠ .opened r) : Authorised h op h' outcome where
  removed sessionId s hs hgone := absurd (hkept sessionId s hs) hgone
  opening d k m suggested feed secret now rands heq := absurd heq (hop d k m suggested feed secret now rands)
  fresh _ _ heq := absurd heq (houtcome _)

/-- A step is authorised exactly if it is no `closeSession` with an invalid key. -/
theorem lawful_iff (h : Handler) (op : Op) : Lawful rt h op ↔ ClosedByKey h op := by
  cases op with
  | openSession d k m suggested feed secret now rands =>
    refine iff_of_true (fun h' outcome hstep => ?_) trivial
    obtain ⟨⟨h'', r⟩, hopen, heq⟩ := Option.map_eq_some_iff.mp hstep
    cases heq
    obtain ⟨hkeeps, hfresh⟩ := openSession_keeps hopen
    refine ⟨fun sessionId s hs hgone => ?_, fun _ _ _ _ _ _ _ _ _ => hkeeps, ?_⟩
    · exact absurd ⟨s, hkeeps sessionId s hs, rfl, rfl⟩ hgone
    · rintro sessionId generation ⟨⟩
      exact hfresh sessionId generation rfl
  | closeSession id k =>
    constructor
    · intro hlawful s hs
      have hgone : (h.closeSession id k).sessions id = none := Function.update_self ..
      rcases (hlawful _ _ rfl).removed id s hs (by simp [hgone]) with ⟨k', heq, hvalid⟩ | ⟨now, heq, -⟩
      · cases heq
        exact hvalid
      · cases heq
    · rintro hkey h' outcome ⟨⟩
      refine ⟨fun sessionId s hs hgone => ?_, fun _ _ _ _ _ _ _ _ heq => (by cases heq),
        fun _ _ heq => (by cases heq)⟩
      rcases eq_or_ne sessionId id with rfl | hne
      · exact .inl ⟨k, rfl, hkey s hs⟩
      · exact absurd ⟨s, (Function.update_of_ne hne ..).trans hs, rfl, rfl⟩ hgone
  | call id c =>
    refine iff_of_true ?_ trivial
    rintro h' outcome ⟨⟩
    exact authorised_of_kept (fun sessionId s hs => call_same h id c hs) (by simp) (by simp)
  | resetSite d k =>
    refine iff_of_true ?_ trivial
    rintro h' outcome ⟨⟩
    exact authorised_of_kept (fun sessionId s hs => ⟨s, hs, rfl, rfl⟩) (by simp) (by simp)
  | reloadSite d feed secret secretStaging =>
    refine iff_of_true ?_ trivial
    rintro h' outcome ⟨⟩
    exact authorised_of_kept (fun sessionId s hs => ⟨s, hs, rfl, rfl⟩) (by simp) (by simp)
  | reap now =>
    refine iff_of_true ?_ trivial
    rintro h' outcome ⟨⟩
    refine ⟨fun sessionId s hs hgone => .inr ⟨now, rfl, ?_⟩,
      fun _ _ _ _ _ _ _ _ heq => (by cases heq), fun _ _ heq => (by cases heq)⟩
    by_contra hyoung
    have hkept : (h.reap now).sessions sessionId = some s := by
      simp only [reap, hs, reapTime]
      exact Option.filter_eq_some_iff.mpr ⟨rfl, by simpa using hyoung⟩
    exact hgone ⟨s, hkept, rfl, rfl⟩

/-! ### Runs -/

/-- CORRECT: in a run of any calls in any order, sessions are ended only by clients with a valid key
    or by the reaper after 62 seconds, and `openSession` always takes an id that is not in use,
    exactly if every `closeSession` that finds its session comes with a key valid for its Site. -/
theorem sessions_authorised_iff (rt : Runtime) (h : Handler) (ops : List Op) :
    Meets (fun h op => (h.step rt op).map Prod.fst) (Lawful rt) h ops ↔
      Meets (fun h op => (h.step rt op).map Prod.fst) ClosedByKey h ops :=
  meets_congr lawful_iff h ops

/-- The keys of the Site of session 7. -/
def keysOfSeven (h : Handler) : Option (List String) :=
  (h.sessions 7).bind fun s => h.store.objects[s.site]?.map (·.site.secretKeys)

/-- A client opens session 7, and another one closes it with a key that is none of the site's. -/
theorem closeSession_unauthorised :
    ¬ Meets (fun h op => (h.step sampleRuntime op).map Prod.fst) (Lawful sampleRuntime) Handler.init
      [sampleOpen 0 [], .closeSession 7 "wrong"] := by
  have hkeys : ((Handler.init.step sampleRuntime (sampleOpen 0 [])).map fun r => keysOfSeven r.1) =
      some (some ["key"]) := by
    decide +kernel
  obtain ⟨⟨h, outcome⟩, hstep, hh⟩ := Option.map_eq_some_iff.mp hkeys
  obtain ⟨s, hs, hobj⟩ := Option.bind_eq_some_iff.mp hh
  obtain ⟨obj, hobj, hkeys⟩ := Option.map_eq_some_iff.mp hobj
  intro hmeets
  obtain ⟨-, hrest⟩ := meets_cons.mp ((meets_congr lawful_iff _ _).mp hmeets)
  obtain ⟨hclosed, -⟩ := meets_cons.mp (hrest h (by rw [hstep]; rfl))
  obtain ⟨obj', hobj', hvalid⟩ := hclosed s hs
  obtain rfl : obj = obj' := Option.some.inj (hobj.symm.trans hobj')
  rw [Site.validateSecretKey, hkeys] at hvalid
  exact absurd hvalid (by decide)

end Handler

end VaeDb
