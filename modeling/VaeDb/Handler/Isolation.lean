import VaeDb.Handler.Changes
import VaeDb.Handler.Sessions

/-! Session isolation: what a client sees does not depend on the other clients.

    All sessions of a site share its caches, and sites come and go from `sites` while sessions hold
    on to the object they were opened on. Take any run, and a session from the moment it is opened
    for as long as it stays in `sessions`. Its calls are answered as if they were the only ones, on
    its own Site object with empty caches.

        run:     open s ─ get s ─ get t ─ reload ─ data s ─ open u ─ createInfo s
        replay:           get s ────────────────── data s ─────────── createInfo s

    The invariant is that every Site object has coherent caches. A call keeps it; a new object starts
    with empty caches; nothing else touches an object or another client's session. -/

namespace VaeDb
open Schemes S3

/-! ### Replaying one session -/

/-- The calls of one session on a Site, one after another, from given responses and caches. -/
def Session.replay (rt : Runtime) (site : Site) :
    List Response → Caches → List Call → List (Result Answer)
  | _, _, [] => []
  | responses, caches, c :: calls =>
    match (Session.call (Lookups.cached rt.lib site) rt site responses c).go caches with
    | (.error e, caches) => .error e :: replay rt site responses caches calls
    | (.ok (answer, responses), caches) => .ok answer :: replay rt site responses caches calls

/-- What a call answers without any cache. -/
def Session.answer (rt : Runtime) (site : Site) (responses : List Response) (c : Call) :
    Result Answer :=
  (Session.call (Lookups.fresh rt.lib site) rt site responses c).map Prod.fst

/-- The responses after a call; one that fails adds none. -/
def Session.after (rt : Runtime) (site : Site) (responses : List Response) (c : Call) :
    List Response :=
  match Session.call (Lookups.fresh rt.lib site) rt site responses c with
  | .ok (_, responses) => responses
  | .error _ => responses

/-- The calls of one session, answered without any cache. -/
def Session.answers (rt : Runtime) (site : Site) :
    List Response → List Call → List (Result Answer)
  | _, [] => []
  | responses, c :: calls =>
    Session.answer rt site responses c :: answers rt site (Session.after rt site responses c) calls

/-- From coherent caches, a call answers what it answers without any. -/
theorem Session.call_go {rt : Runtime} {site : Site} {caches : Caches}
    (hc : Coherent rt.lib site caches) (responses : List Response) (c : Call) :
    ∃ caches', Coherent rt.lib site caches' ∧
      (Session.call (Lookups.cached rt.lib site) rt site responses c).go caches =
        (Session.call (Lookups.fresh rt.lib site) rt site responses c, caches') := by
  obtain ⟨hsame, hkeep⟩ :=
    Session.computes_call (cached_agree rt.lib site) rt site responses c caches hc
  exact ⟨_, hkeep, Prod.ext hsame rfl⟩

theorem Session.replay_eq_answers {rt : Runtime} {site : Site} : ∀ {calls : List Call}
    {responses : List Response} {caches : Caches}, Coherent rt.lib site caches →
    Session.replay rt site responses caches calls = Session.answers rt site responses calls
  | [], _, _, _ => rfl
  | c :: calls, responses, caches, hc => by
      obtain ⟨caches', hc', hgo⟩ := Session.call_go hc responses c
      rw [Session.replay, Session.answers, hgo, Session.answer, Session.after]
      cases Session.call (Lookups.fresh rt.lib site) rt site responses c with
      | error e => exact congrArg _ (Session.replay_eq_answers hc')
      | ok r => exact congrArg _ (Session.replay_eq_answers hc')

/-! ### What the calls do to the objects -/

namespace Sites

/-- Objects are only added, and a new one has empty caches. -/
def Extends (w w' : Sites) : Prop :=
  ∃ new, w'.objects = w.objects ++ new ∧ ∀ obj ∈ new, obj.caches = Caches.empty

theorem Extends.refl (w : Sites) : Extends w w := ⟨[], by simp, by simp⟩

theorem Extends.trans {w w' w'' : Sites} (h : Extends w w') (h' : Extends w' w'') :
    Extends w w'' := by
  obtain ⟨new, hobjects, hnew⟩ := h
  obtain ⟨new', hobjects', hnew'⟩ := h'
  refine ⟨new ++ new', by rw [hobjects', hobjects, List.append_assoc], fun obj hobj => ?_⟩
  rcases List.mem_append.mp hobj with hobj | hobj
  · exact hnew obj hobj
  · exact hnew' obj hobj

/-- An object stays what and where it is. -/
theorem Extends.getElem? {w w' : Sites} (h : Extends w w') {i : ℕ} {obj : SiteObject}
    (hobj : w.objects[i]? = some obj) : w'.objects[i]? = some obj := by
  obtain ⟨new, hobjects, -⟩ := h
  obtain ⟨hi, -⟩ := List.getElem?_eq_some_iff.mp hobj
  rw [hobjects, List.getElem?_append_left hi, hobj]

variable (lib : Xml.Libxml)

theorem extends_stable (w : Sites) (subdomain : String) : Stable subdomain (Extends w) where
  cache _ _ h := h
  install _ _ site h _ := h.trans ⟨[⟨site, Caches.empty⟩], rfl, by simp⟩
  erase _ _ h := h

theorem getSite_extends (w : Sites) (subdomain secretKey : String) (m : Bool)
    (feed secret : Fetch) : Extends w (w.getSite lib subdomain secretKey m feed secret).1 :=
  (extends_stable w subdomain).getSite (Extends.refl w) lib secretKey m feed secret

theorem resetSite_extends (w : Sites) (subdomain secretKey : String) (force : Bool) :
    Extends w (w._resetSite subdomain secretKey force).1 :=
  (extends_stable w subdomain).resetSite (Extends.refl w) secretKey force

theorem reloadSite_extends (w : Sites) (subdomain : String) (feed secret secretStaging : Fetch) :
    Extends w (w.reloadSite lib subdomain feed secret secretStaging).1 :=
  (extends_stable w subdomain).reloadSite (Extends.refl w) lib feed secret secretStaging

/-- New caches change no site. -/
theorem setCaches_getElem? {w : Sites} {i j : ℕ} {caches : Caches} {obj : SiteObject}
    (h : (w.setCaches j caches).objects[i]? = some obj) :
    ∃ obj', w.objects[i]? = some obj' ∧ obj'.site = obj.site ∧
      (obj.caches = obj'.caches ∨ (j = i ∧ obj.caches = caches)) := by
  rw [setCaches, List.getElem?_modify, Option.map_eq_map, Option.map_eq_some_iff] at h
  obtain ⟨obj', hobj', heq⟩ := h
  subst heq
  refine ⟨obj', hobj', ?_⟩
  split
  · next hij => exact ⟨rfl, Or.inr ⟨hij, rfl⟩⟩
  · exact ⟨rfl, Or.inl rfl⟩

theorem setCaches_site {w : Sites} {i : ℕ} {obj : SiteObject} (h : w.objects[i]? = some obj) (j : ℕ)
    (caches : Caches) :
    ∃ obj', (w.setCaches j caches).objects[i]? = some obj' ∧ obj'.site = obj.site := by
  rw [setCaches, List.getElem?_modify, h]
  refine ⟨_, rfl, ?_⟩
  split <;> rfl

end Sites

/-! ### The invariant -/

namespace Handler

variable {rt : Runtime}

/-- Every Site object has coherent caches. -/
def AllCoherent (rt : Runtime) (h : Handler) : Prop :=
  ∀ (i : ℕ) (obj : SiteObject), h.store.objects[i]? = some obj →
    Coherent rt.lib obj.site obj.caches

/-- The session is there, pins an object with that site, and has those responses. -/
def Holds (h : Handler) (sessionId : ℤ) (site : Site) (responses : List Response) : Prop :=
  ∃ s obj, h.sessions sessionId = some s ∧ h.store.objects[s.site]? = some obj ∧
    obj.site = site ∧ s.responses = responses

theorem AllCoherent.extend {h : Handler} {w : Sites} (hc : AllCoherent rt h)
    (hw : Sites.Extends h.store w) (sessions : ℤ → Option Session) :
    AllCoherent rt ⟨w, sessions⟩ := by
  intro i obj hobj
  obtain ⟨new, hobjects, hnew⟩ := hw
  dsimp only at hobj
  rw [hobjects] at hobj
  rcases List.mem_append.mp (List.mem_of_getElem? hobj) with hmem | hmem
  · obtain ⟨j, hj⟩ := List.mem_iff_getElem?.mp hmem
    exact hc j obj hj
  · rw [hnew obj hmem]
    exact coherent_empty rt.lib obj.site

theorem Holds.extend {h : Handler} {w : Sites} {sessionId : ℤ} {site : Site}
    {responses : List Response} (hh : Holds h sessionId site responses)
    (hw : Sites.Extends h.store w) {sessions : ℤ → Option Session}
    (hsame : sessions sessionId = h.sessions sessionId) :
    Holds ⟨w, sessions⟩ sessionId site responses := by
  obtain ⟨s, obj, hs, hobj, hsite, hresponses⟩ := hh
  exact ⟨s, obj, hsame.trans hs, hw.getElem? hobj, hsite, hresponses⟩

/-- What a call does: nothing at all, or what the session does without caches, with other coherent
    caches on its object. -/
theorem call_cases {h : Handler} (hc : AllCoherent rt h) (sessionId : ℤ) (c : Call) :
    ((h.call rt sessionId c).1 = h ∧ ∀ site responses, ¬ Holds h sessionId site responses) ∨
    ∃ s obj caches, h.sessions sessionId = some s ∧ h.store.objects[s.site]? = some obj ∧
      Coherent rt.lib obj.site caches ∧
      h.call rt sessionId c =
        (⟨h.store.setCaches s.site caches, Function.update h.sessions sessionId
          (some { s with responses := Session.after rt obj.site s.responses c })⟩,
          Session.answer rt obj.site s.responses c) := by
  rw [call]
  cases hs : h.sessions sessionId with
  | none =>
    refine Or.inl ⟨rfl, fun site responses ⟨s, _, hs', _⟩ => ?_⟩
    rw [hs] at hs'
    cases hs'
  | some s =>
    cases hobj : h.store.objects[s.site]? with
    | none =>
      refine Or.inl ⟨by dsimp only; rw [hobj], fun site responses ⟨s', _, hs', hobj', _⟩ => ?_⟩
      rw [hs] at hs'
      cases hs'
      rw [hobj] at hobj'
      cases hobj'
    | some obj =>
      obtain ⟨caches, hcaches, hgo⟩ := Session.call_go (hc _ obj hobj) s.responses c
      refine Or.inr ⟨s, obj, caches, rfl, hobj, hcaches, ?_⟩
      dsimp only
      rw [hobj]
      dsimp only
      rw [hgo, Session.answer, Session.after]
      cases Session.call (Lookups.fresh rt.lib obj.site) rt obj.site s.responses c with
      | ok r => rfl
      | error e =>
        have hsame : Function.update h.sessions sessionId (some s) = h.sessions := by
          rw [← hs, Function.update_eq_self]
        dsimp only
        rw [hsame]
        rfl

theorem setCaches_coherent {h : Handler} (hc : AllCoherent rt h) {i : ℕ} {obj : SiteObject}
    {caches : Caches} (hobj : h.store.objects[i]? = some obj)
    (hcaches : Coherent rt.lib obj.site caches) (sessions : ℤ → Option Session) :
    AllCoherent rt ⟨h.store.setCaches i caches, sessions⟩ := by
  intro j obj' hobj'
  obtain ⟨obj₀, hobj₀, hsite, hsame | ⟨rfl, hnew⟩⟩ := Sites.setCaches_getElem? hobj'
  · rw [← hsite, hsame]
    exact hc j obj₀ hobj₀
  · rw [hobj, Option.some.injEq] at hobj₀
    rw [← hsite, hnew, ← hobj₀]
    exact hcaches

/-! ### Opening a session -/

theorem freeId_eq_some {sessions : ℤ → Option Session} {sessionId : ℤ} :
    ∀ {rands : List ℤ} {suggested : ℤ},
      freeId sessions suggested rands = some sessionId → sessions sessionId = none
  | [], suggested, h => by
      rw [freeId] at h
      split at h
      · next hnone =>
        cases h
        exact Option.isNone_iff_eq_none.mp hnone
      · cases h
  | r :: rands, suggested, h => by
      rw [freeId] at h
      split at h
      · next hnone =>
        cases h
        exact Option.isNone_iff_eq_none.mp hnone
      · exact freeId_eq_some h

/-- What `getSite` returns is in service. -/
theorem getSite_in_service {lib : Xml.Libxml} {w w' : Sites} {subdomain secretKey : String}
    {m : Bool} {feed secret : Fetch} {i : ℕ}
    (h : w.getSite lib subdomain secretKey m feed secret = (w', .ok i)) :
    w'.sites (Sites.sitesKey subdomain m) = some i := by
  rw [Sites.getSite] at h
  cases hi : w.sites (Sites.sitesKey subdomain m) with
  | some j =>
    rw [hi] at h
    obtain ⟨rfl, hj⟩ := Prod.mk.inj h
    obtain ⟨_, -, hj⟩ := bind_eq_ok.mp hj
    rw [hi, pure_eq_ok.mp hj]
  | none =>
    rw [hi] at h
    dsimp only at h
    rw [Sites._loadSite] at h
    split at h
    · next hload =>
      cases h
    · next w₁ j hload =>
      obtain ⟨rfl, hj⟩ := Prod.mk.inj h
      obtain ⟨_, -, hj⟩ := bind_eq_ok.mp hj
      rw [← pure_eq_ok.mp hj]
      split at hload
      · cases hload
      · cases hload
        exact Function.update_self ..

/-- Opening adds a session under an id that was not in use, or changes no session. -/
theorem openSession_cases {h h' : Handler} {subdomain secretKey : String} {m : Bool}
    {suggested now : ℤ} {feed secret : Fetch} {rands : List ℤ} {r : Result (ℤ × ℤ)}
    (hopen : h.openSession rt subdomain secretKey m suggested feed secret now rands = some (h', r)) :
    Sites.Extends h.store h'.store ∧
    ((h'.sessions = h.sessions ∧ ∃ e, r = .error e) ∨
      ∃ sessionId i obj, h.sessions sessionId = none ∧
        h'.sessions = Function.update h.sessions sessionId (some ⟨i, now, []⟩) ∧
        h'.store.objects[i]? = some obj ∧
        h'.store.sites (Sites.sitesKey subdomain m) = some i ∧
        r = .ok (sessionId, obj.site.generation)) := by
  have hextends := Sites.getSite_extends rt.lib h.store subdomain secretKey m feed secret
  rw [openSession] at hopen
  rcases hget : h.store.getSite rt.lib subdomain secretKey m feed secret with ⟨w, e | i⟩ <;>
    rw [hget] at hopen hextends
  · cases hopen
    exact ⟨hextends, Or.inl ⟨rfl, e, rfl⟩⟩
  · cases hobj : w.objects[i]? with
    | none =>
      simp only [hobj] at hopen
      cases hopen
      exact ⟨hextends, Or.inl ⟨rfl, _, rfl⟩⟩
    | some obj =>
      simp only [hobj] at hopen
      cases hfree : freeId h.sessions suggested rands with
      | none =>
        rw [hfree] at hopen
        cases hopen
      | some sessionId =>
        rw [hfree] at hopen
        cases hopen
        exact ⟨hextends, Or.inr ⟨sessionId, i, obj, freeId_eq_some hfree, rfl, hobj,
          getSite_in_service hget, rfl⟩⟩

/-! ### Steps -/

/-- The call that a session makes in a step, if it makes one. -/
def callOf (sessionId : ℤ) : Op → Option Call
  | .call sessionId' c => if sessionId' = sessionId then some c else none
  | _ => none

/-- The answer that a session gets in a step, if it makes a call. -/
def answerOf (sessionId : ℤ) : Op × Outcome → Option (Result Answer)
  | (.call sessionId' _, .answered r) => if sessionId' = sessionId then some r else none
  | _ => none

theorem callOf_eq_some {sessionId : ℤ} {op : Op} {c : Call} (h : callOf sessionId op = some c) :
    op = .call sessionId c := by
  cases op with
  | call sessionId' c' =>
    rw [callOf] at h
    split at h
    · next heq =>
      cases h
      rw [heq]
    · cases h
  | openSession | closeSession | resetSite | reloadSite | reap => cases h

theorem answerOf_eq_none {sessionId : ℤ} {op : Op} (h : callOf sessionId op = none)
    (outcome : Outcome) : answerOf sessionId (op, outcome) = none := by
  cases op with
  | call sessionId' c =>
    rw [callOf] at h
    split at h
    · cases h
    · next hne =>
      cases outcome with
      | answered r => exact if_neg hne
      | opened | done => rfl
  | openSession | closeSession | resetSite | reloadSite | reap => rfl

theorem step_call {h h' : Handler} {sessionId : ℤ} {c : Call} {outcome : Outcome}
    (hstep : h.step rt (.call sessionId c) = some (h', outcome)) :
    h' = (h.call rt sessionId c).1 ∧ outcome = .answered (h.call rt sessionId c).2 := by
  have heq : some ((h.call rt sessionId c).1, Outcome.answered (h.call rt sessionId c).2) =
      some (h', outcome) := hstep
  rw [Option.some.injEq, Prod.mk.injEq] at heq
  exact ⟨heq.1.symm, heq.2.symm⟩

theorem step_coherent {h h' : Handler} {op : Op} {outcome : Outcome} (hc : AllCoherent rt h)
    (hstep : h.step rt op = some (h', outcome)) : AllCoherent rt h' := by
  cases op with
  | openSession subdomain secretKey m suggested feed secret now rands =>
    obtain ⟨⟨h₁, r⟩, hopen, heq⟩ := Option.map_eq_some_iff.mp hstep
    cases heq
    exact hc.extend (openSession_cases hopen).1 h'.sessions
  | closeSession sessionId secretKey =>
    cases hstep
    exact hc
  | call sessionId c =>
    obtain ⟨rfl, -⟩ := step_call hstep
    rcases call_cases hc sessionId c with ⟨hsame, -⟩ | ⟨s, obj, caches, -, hobj, hcaches, hcall⟩
    · rw [hsame]
      exact hc
    · rw [hcall]
      exact setCaches_coherent hc hobj hcaches _
  | resetSite subdomain secretKey =>
    cases hstep
    exact hc.extend (Sites.resetSite_extends h.store subdomain secretKey false) h.sessions
  | reloadSite subdomain feed secret secretStaging =>
    cases hstep
    exact hc.extend (Sites.reloadSite_extends rt.lib h.store subdomain feed secret secretStaging)
      h.sessions
  | reap now =>
    cases hstep
    exact hc

/-- A call of the session itself is answered as without caches. -/
theorem step_own {h h' : Handler} {sessionId : ℤ} {c : Call} {outcome : Outcome} {site : Site}
    {responses : List Response} (hc : AllCoherent rt h) (hh : Holds h sessionId site responses)
    (hstep : h.step rt (.call sessionId c) = some (h', outcome)) :
    outcome = .answered (Session.answer rt site responses c) ∧
      Holds h' sessionId site (Session.after rt site responses c) := by
  obtain ⟨rfl, rfl⟩ := step_call hstep
  rcases call_cases hc sessionId c with ⟨-, hnot⟩ | ⟨s, obj, caches, hs, hobj, -, hcall⟩
  · exact absurd hh (hnot site responses)
  · obtain ⟨s', obj', hs', hobj', rfl, rfl⟩ := hh
    rw [hs, Option.some.injEq] at hs'
    subst hs'
    rw [hobj, Option.some.injEq] at hobj'
    subst hobj'
    rw [hcall]
    obtain ⟨obj', hobj', hsite⟩ := Sites.setCaches_site hobj s.site caches
    exact ⟨rfl, _, obj', Function.update_self .., hobj', hsite, rfl⟩

/-- Whatever else happens, a session that is still there holds what it held. -/
theorem step_other {h h' : Handler} {op : Op} {outcome : Outcome} {sessionId : ℤ} {site : Site}
    {responses : List Response} (hc : AllCoherent rt h) (hh : Holds h sessionId site responses)
    (hop : callOf sessionId op = none) (hstep : h.step rt op = some (h', outcome))
    (hstay : (h'.sessions sessionId).isSome) : Holds h' sessionId site responses := by
  cases op with
  | openSession subdomain secretKey m suggested feed secret now rands =>
    obtain ⟨⟨h₁, r⟩, hopen, heq⟩ := Option.map_eq_some_iff.mp hstep
    cases heq
    obtain ⟨hextends, ⟨hsame, -⟩ | ⟨sessionId', i, obj, hfree, hsessions, -⟩⟩ :=
      openSession_cases hopen
    · exact hh.extend hextends (by rw [hsame])
    · -- the new session has another id, for this one is in use
      have hne : sessionId ≠ sessionId' := by
        rintro rfl
        obtain ⟨s, -, hs, -⟩ := hh
        rw [hfree] at hs
        cases hs
      exact hh.extend hextends (by rw [hsessions, Function.update_of_ne hne])
  | closeSession sessionId' secretKey =>
    cases hstep
    have hne : sessionId ≠ sessionId' := by
      rintro rfl
      simp [closeSession] at hstay
    exact hh.extend (Sites.Extends.refl _) (Function.update_of_ne hne ..)
  | call sessionId' c =>
    obtain ⟨rfl, -⟩ := step_call hstep
    have hne : sessionId ≠ sessionId' := by
      rintro rfl
      simp [callOf] at hop
    rcases call_cases hc sessionId' c with ⟨hsame, -⟩ | ⟨s', obj', caches, -, -, -, hcall⟩
    · rw [hsame]
      exact hh
    · rw [hcall]
      obtain ⟨s, obj, hs, hobj, rfl, rfl⟩ := hh
      obtain ⟨obj'', hobj'', hsite⟩ := Sites.setCaches_site hobj s'.site caches
      exact ⟨s, obj'', (Function.update_of_ne hne ..).trans hs, hobj'', hsite, rfl⟩
  | resetSite subdomain secretKey =>
    cases hstep
    exact hh.extend (Sites.resetSite_extends h.store subdomain secretKey false) rfl
  | reloadSite subdomain feed secret secretStaging =>
    cases hstep
    exact hh.extend
      (Sites.reloadSite_extends rt.lib h.store subdomain feed secret secretStaging) rfl
  | reap now =>
    cases hstep
    refine hh.extend (Sites.Extends.refl _) ?_
    obtain ⟨s, hs⟩ := Option.isSome_iff_exists.mp hstay
    exact hs.trans (Option.filter_eq_some_iff.mp hs).1.symm

/-! ### Runs -/

/-- The session is in `sessions` before every call of the run and after the last. -/
def stays (rt : Runtime) (sessionId : ℤ) : Handler → List Op → Bool
  | h, [] => (h.sessions sessionId).isSome
  | h, op :: ops => (h.sessions sessionId).isSome &&
    match h.step rt op with
    | none => true
    | some (h', _) => stays rt sessionId h' ops

theorem stays_isSome {sessionId : ℤ} {h : Handler} {ops : List Op}
    (hstays : stays rt sessionId h ops = true) : (h.sessions sessionId).isSome := by
  cases ops with
  | nil => exact hstays
  | cons op ops =>
    rw [stays, Bool.and_eq_true] at hstays
    exact hstays.1

theorem run_coherent : ∀ {ops : List Op} {h h' : Handler} {log : List (Op × Outcome)},
    AllCoherent rt h → h.run rt ops = some (h', log) → AllCoherent rt h'
  | [], h, h', log, hc, hrun => by
      cases hrun
      exact hc
  | op :: ops, h, h', log, hc, hrun => by
      rw [run] at hrun
      cases hstep : h.step rt op with
      | none =>
        rw [hstep] at hrun
        cases hrun
      | some r =>
        rw [hstep] at hrun
        obtain ⟨⟨h₁, log₁⟩, hrest, heq⟩ := Option.map_eq_some_iff.mp hrun
        cases heq
        exact run_coherent (step_coherent hc hstep) hrest

/-- Along a run, a session that stays gets the answers that its calls have without caches. -/
theorem run_answers {sessionId : ℤ} {site : Site} : ∀ {ops : List Op} {h h' : Handler}
    {log : List (Op × Outcome)} {responses : List Response}, AllCoherent rt h →
    Holds h sessionId site responses → stays rt sessionId h ops = true →
    h.run rt ops = some (h', log) →
    log.filterMap (answerOf sessionId) =
      Session.answers rt site responses (ops.filterMap (callOf sessionId))
  | [], h, h', log, responses, _, _, _, hrun => by
      cases hrun
      rfl
  | op :: ops, h, h', log, responses, hc, hh, hstays, hrun => by
      rw [run] at hrun
      cases hstep : h.step rt op with
      | none =>
        rw [hstep] at hrun
        cases hrun
      | some r =>
        obtain ⟨h₁, outcome⟩ := r
        rw [hstep] at hrun
        obtain ⟨⟨h₂, log₁⟩, hrest, heq⟩ := Option.map_eq_some_iff.mp hrun
        cases heq
        rw [stays, hstep, Bool.and_eq_true] at hstays
        have hc₁ := step_coherent hc hstep
        cases hop : callOf sessionId op with
        | none =>
          have hh₁ := step_other hc hh hop hstep (stays_isSome hstays.2)
          rw [List.filterMap_cons_none hop, List.filterMap_cons_none (answerOf_eq_none hop outcome)]
          exact run_answers hc₁ hh₁ hstays.2 hrest
        | some c =>
          obtain rfl := callOf_eq_some hop
          obtain ⟨rfl, hh₁⟩ := step_own hc hh hstep
          have hanswer : answerOf sessionId (.call sessionId c,
              .answered (Session.answer rt site responses c)) =
                some (Session.answer rt site responses c) := if_pos rfl
          rw [List.filterMap_cons_some hop, List.filterMap_cons_some hanswer, Session.answers]
          exact congrArg _ (run_answers hc₁ hh₁ hstays.2 hrest)

/-- Along a run, a session that stays has the responses that its calls add. -/
theorem run_holds {sessionId : ℤ} {site : Site} : ∀ {ops : List Op} {h h' : Handler}
    {log : List (Op × Outcome)} {responses : List Response}, AllCoherent rt h →
    Holds h sessionId site responses → stays rt sessionId h ops = true →
    h.run rt ops = some (h', log) →
    Holds h' sessionId site
      ((ops.filterMap (callOf sessionId)).foldl (Session.after rt site) responses)
  | [], h, h', log, responses, _, hh, _, hrun => by
    cases hrun
    exact hh
  | op :: ops, h, h', log, responses, hc, hh, hstays, hrun => by
    rw [run] at hrun
    cases hstep : h.step rt op with
    | none =>
      rw [hstep] at hrun
      cases hrun
    | some r =>
      obtain ⟨h₁, outcome⟩ := r
      rw [hstep] at hrun
      obtain ⟨⟨h₂, log₁⟩, hrest, heq⟩ := Option.map_eq_some_iff.mp hrun
      cases heq
      rw [stays, hstep, Bool.and_eq_true] at hstays
      have hc₁ := step_coherent hc hstep
      cases hop : callOf sessionId op with
      | none =>
        have hh₁ := step_other hc hh hop hstep (stays_isSome hstays.2)
        rw [List.filterMap_cons_none hop]
        exact run_holds hc₁ hh₁ hstays.2 hrest
      | some c =>
        obtain rfl := callOf_eq_some hop
        obtain ⟨-, hh₁⟩ := step_own hc hh hstep
        rw [List.filterMap_cons_some hop, List.foldl_cons]
        exact run_holds hc₁ hh₁ hstays.2 hrest

/-- What a run and an opened session leave: coherent caches, and a session on a Site in service. -/
theorem opened_holds {before : List Op} {h₀ h₁ : Handler} {log₀ : List (Op × Outcome)}
    {subdomain secretKey : String} {stagingMode : Bool} {suggested now sessionId generation : ℤ}
    {feed secret : Fetch} {rands : List ℤ}
    (hbefore : Handler.init.run rt before = some (h₀, log₀))
    (hopen : h₀.step rt
      (.openSession subdomain secretKey stagingMode suggested feed secret now rands) =
        some (h₁, .opened (.ok (sessionId, generation)))) :
    AllCoherent rt h₁ ∧ ∃ i obj, h₁.store.sites (Sites.sitesKey subdomain stagingMode) = some i ∧
      h₁.store.objects[i]? = some obj ∧ h₁.sessions sessionId = some ⟨i, now, []⟩ := by
  have hinit : AllCoherent rt Handler.init := fun i obj hobj => by cases hobj
  refine ⟨step_coherent (run_coherent hinit hbefore) hopen, ?_⟩
  obtain ⟨⟨h, r⟩, hopened, heq⟩ := Option.map_eq_some_iff.mp hopen
  cases heq
  obtain ⟨-, ⟨-, e, he⟩ | ⟨sessionId', i, obj, -, hsessions, hobj, hservice, heq⟩⟩ :=
    openSession_cases hopened
  · cases he
  · cases heq
    exact ⟨i, obj, hservice, hobj, by rw [hsessions, Function.update_self]⟩

/-- CORRECT: in every run of the handler, from the moment a session is opened and for as long as it
    stays in `sessions`, its calls are answered as if they alone were made on the Site object it was
    opened on, with empty caches. -/
theorem session_isolated {before after : List Op} {h₀ h₁ h₂ : Handler}
    {log₀ log : List (Op × Outcome)} {subdomain secretKey : String} {stagingMode : Bool}
    {suggested now sessionId generation : ℤ} {feed secret : Fetch} {rands : List ℤ}
    (hbefore : Handler.init.run rt before = some (h₀, log₀))
    (hopen : h₀.step rt
      (.openSession subdomain secretKey stagingMode suggested feed secret now rands) =
        some (h₁, .opened (.ok (sessionId, generation))))
    (hafter : h₁.run rt after = some (h₂, log))
    (hstays : stays rt sessionId h₁ after = true) :
    ∃ i obj, h₁.store.sites (Sites.sitesKey subdomain stagingMode) = some i ∧
      h₁.store.objects[i]? = some obj ∧ h₁.sessions sessionId = some ⟨i, now, []⟩ ∧
      log.filterMap (answerOf sessionId) =
        Session.replay rt obj.site [] Caches.empty (after.filterMap (callOf sessionId)) := by
  obtain ⟨hc₁, i, obj, hservice, hobj, hs⟩ := opened_holds hbefore hopen
  refine ⟨i, obj, hservice, hobj, hs, ?_⟩
  rw [Session.replay_eq_answers (coherent_empty rt.lib obj.site)]
  exact run_answers hc₁ ⟨_, obj, hs, hobj, rfl, rfl⟩ hstays hafter

/-- The surroundings of the sample run, which sorts nothing. -/
def sampleRuntime : Runtime := ⟨sampleLib, fun _ => .done (Equiv.refl _), fun x => x⟩

def sampleOpen (now : ℤ) (rands : List ℤ) : Op :=
  .openSession "shop" "key" false 7 (.arrived "feed") (.arrived "key") now rands

def samplePages : Call := .get 0 "page" (fun _ => none) fun _ contexts => contexts

/-- Session 7 asks for the pages and their data; before that, another client opens a session under
    the same suggested id and asks for the pages too, and the site is reloaded. -/
def sampleAfter : List Op :=
  [sampleOpen 1 [8], .call 8 samplePages,
    .reloadSite "shop" (.arrived "feed") (.arrived "key") (.arrived "key"),
    .call 7 samplePages, .call 7 (.data 1), .call 7 (.data 2)]

/-- Id and generation of a session that was opened. -/
def openedAs : Outcome → Option (ℤ × ℤ)
  | .opened (.ok r) => some r
  | _ => none

/-- The sample run goes through, and session 7 stays. -/
theorem sample_run :
    ∃ (h₁ h₂ : Handler) (log : List (Op × Outcome)),
    Handler.init.step sampleRuntime (sampleOpen 0 []) = some (h₁, .opened (.ok (7, 7))) ∧
    h₁.run sampleRuntime sampleAfter = some (h₂, log) ∧
    stays sampleRuntime 7 h₁ sampleAfter = true := by
  have hid : ((Handler.init.step sampleRuntime (sampleOpen 0 [])).bind fun r => openedAs r.2) =
      some (7, 7) := by decide +kernel
  have hruns : ((Handler.init.step sampleRuntime (sampleOpen 0 [])).bind fun r =>
      r.1.run sampleRuntime sampleAfter).isSome = true := by decide +kernel
  have hstays : ((Handler.init.step sampleRuntime (sampleOpen 0 [])).map fun r =>
      stays sampleRuntime 7 r.1 sampleAfter) = some true := by decide +kernel
  rcases hstep : Handler.init.step sampleRuntime (sampleOpen 0 []) with _ | ⟨h₁, outcome⟩ <;>
    rw [hstep] at hid hruns hstays
  · cases hid
  · obtain rfl : outcome = .opened (.ok (7, 7)) := by
      rcases outcome with (e | r) | r | r
      · cases hid
      · cases hid
        rfl
      · cases hid
      · cases hid
    obtain ⟨⟨h₂, log⟩, hrun⟩ := Option.isSome_iff_exists.mp hruns
    exact ⟨h₁, h₂, log, rfl, hrun, Option.some.inj hstays⟩

theorem session_isolated_sample :
    ∃ (h₁ h₂ : Handler) (log : List (Op × Outcome)) (i : ℕ) (obj : SiteObject),
    Handler.init.step sampleRuntime (sampleOpen 0 []) = some (h₁, .opened (.ok (7, 7))) ∧
    h₁.run sampleRuntime sampleAfter = some (h₂, log) ∧ h₁.store.objects[i]? = some obj ∧
    log.filterMap (answerOf 7) =
      Session.replay sampleRuntime obj.site [] Caches.empty [samplePages, .data 1, .data 2] := by
  obtain ⟨h₁, h₂, log, hstep, hrun, hstays⟩ := sample_run
  have hnone : Handler.init.run sampleRuntime [] = some (Handler.init, []) := rfl
  obtain ⟨i, obj, -, hobj, -, hanswers⟩ := session_isolated hnone hstep hrun hstays
  exact ⟨h₁, h₂, log, i, obj, hstep, hrun, hobj, hanswers⟩

end Handler

end VaeDb
