import VaeDb.Handler.Isolation
import VaeDb.Handler.Reload
import VaeDb.Handler.SecretKeys

/-! Requests with a wrong secret key, and what they leave behind.

    The key is checked by the Site itself, so it is checked when there is a Site to ask: by
    `openSession` after a Site that was not there has been loaded and installed, by `resetSite` for
    each of the two entries right before that entry is erased.

        openSession:  not loaded ──▶ new Site ──▶ installed ──▶ key? ╳ throws, the Site stays
        resetSite:    production: key? ──▶ erased ──▶ staging: key? ╳ throws, production is gone

    These are the only ways in which a request that is rejected changes anything. -/

namespace VaeDb
open Schemes S3 Cpp

/-- What `validateSecretKey` throws. -/
def mismatch : Failure := .internalError "Secret Key Mismatch"

theorem validateSecretKey_of_mem {site : Site} {k : String} (h : k ∈ site.secretKeys) :
    site.validateSecretKey k = .ok () := if_pos h

theorem validateSecretKey_of_not_mem {site : Site} {k : String} (h : k ∉ site.secretKeys) :
    site.validateSecretKey k = .error mismatch := if_neg h

namespace Sites

variable {lib : Xml.Libxml}

/-! ### What the calls do -/

theorem validate_eq {w : Sites} {i : ℕ} {obj : SiteObject} (hobj : w.objects[i]? = some obj)
    (k : String) : w.validate i k = obj.site.validateSecretKey k := by
  rw [validate, hobj]
  rfl

/-- The Site that the feed gives can be built. -/
def Builds (lib : Xml.Libxml) (subdomain : String) (m : Bool) (rawxml : String) : Prop :=
  ∃ site, (Site.blank subdomain m []).loadXmlDoc lib rawxml = .ok site

/-- The ways of `_loadSite`: the Site cannot be built, or it is installed. -/
theorem loadSite_cases (w : Sites) (d : String) (m : Bool) (secret : Fetch) (xml : String) :
    (∃ w' e, ¬ Builds lib d m xml ∧ w._loadSite lib d m secret xml = (w', .error e) ∧
      w'.sites = w.sites ∧ w'.objects = w.objects) ∨
    ∃ w' site, Builds lib d m xml ∧
      w._loadSite lib d m secret xml = (w', .ok w.objects.length) ∧
      w'.sites = Function.update w.sites (sitesKey d m) (some w.objects.length) ∧
      w'.objects = w.objects ++ [⟨site, Caches.empty⟩] ∧
      site.secretKeys = split separators (secret.text w.cache (d ++ "-secret")) := by
  have hnew := @new_eq lib w.cache secret d m xml
  rw [_loadSite]
  rcases hsite : Site.new lib w.cache secret d m xml with ⟨cache, r⟩
  rw [hsite] at hnew
  cases hload : (Site.blank d m []).loadXmlDoc lib xml with
  | error e =>
    rw [hload] at hnew
    obtain rfl : r = .error e := hnew
    refine .inl ⟨_, e, ?_, rfl, rfl, rfl⟩
    rintro ⟨site, h⟩
    rw [hload] at h
    cases h
  | ok site =>
    rw [hload] at hnew
    obtain rfl : r = .ok _ := hnew
    exact .inr ⟨_, _, ⟨site, hload⟩, rfl, rfl, rfl, rfl⟩

/-- The ways of `getSite`: the Site is there; or it cannot be built; or it is built and installed. In
    the first case and the last the key is checked at the end. -/
theorem getSite_cases (w : Sites) (d k : String) (m : Bool) (feed secret : Fetch) :
    (∃ i obj, w.sites (sitesKey d m) = some i ∧ w.objects[i]? = some obj ∧
      w.getSite lib d k m feed secret = (w, do obj.site.validateSecretKey k; pure i)) ∨
    (∃ w' e, w.sites (sitesKey d m) = none ∧
      ¬ Builds lib d m (feed.text w.cache (d ++ "-feed.xml")) ∧
      w.getSite lib d k m feed secret = (w', .error e) ∧
      w'.sites = w.sites ∧ w'.objects = w.objects) ∨
    ∃ w' site, w.sites (sitesKey d m) = none ∧
      Builds lib d m (feed.text w.cache (d ++ "-feed.xml")) ∧
      w.getSite lib d k m feed secret =
        (w', do site.validateSecretKey k; pure w.objects.length) ∧
      w'.sites = Function.update w.sites (sitesKey d m) (some w.objects.length) ∧
      w'.objects = w.objects ++ [⟨site, Caches.empty⟩] ∧
      site.secretKeys = split separators (secret.text w.cache (d ++ "-secret")) := by
  rw [getSite]
  cases hi : w.sites (sitesKey d m) with
  | some i =>
    obtain ⟨obj, hobj⟩ : ∃ obj, w.objects[i]? = some obj :=
      ⟨_, List.getElem?_eq_getElem (w.valid _ i hi)⟩
    exact .inl ⟨i, obj, rfl, hobj, by simp only [validate_eq hobj]⟩
  | none =>
    right
    have htext : (w.readS3 feed (d ++ "-feed.xml")).2 = feed.text w.cache (d ++ "-feed.xml") :=
      read_s3_snd ..
    have hload := @loadSite_cases lib (w.readS3 feed (d ++ "-feed.xml")).1 d m secret
      (feed.text w.cache (d ++ "-feed.xml"))
    rw [readS3_secret] at hload
    dsimp only
    rw [htext]
    rcases hload with ⟨w', e, hbuild, heq, hsites, hobjects⟩ |
      ⟨w', site, hbuild, heq, hsites, hobjects, hkeys⟩
    · rw [heq]
      exact .inl ⟨w', e, rfl, hbuild, rfl, hsites, hobjects⟩
    · rw [heq]
      refine .inr ⟨w', site, rfl, hbuild, ?_, hsites, hobjects, hkeys⟩
      have hobj : w'.objects[w.objects.length]? = some ⟨site, Caches.empty⟩ := by
        rw [hobjects]
        simp [readS3]
      exact congrArg (Prod.mk w') (by rw [← validate_eq hobj]; rfl)

/-- The entry of a key is a Site that has `secretKey` among its keys. -/
def Accepts (w : Sites) (key secretKey : String) : Prop :=
  ∃ i obj, w.sites key = some i ∧ w.objects[i]? = some obj ∧ secretKey ∈ obj.site.secretKeys

/-- The entry of a key is a Site that does not have `secretKey` among its keys. -/
def Refuses (w : Sites) (key secretKey : String) : Prop :=
  ∃ i obj, w.sites key = some i ∧ w.objects[i]? = some obj ∧ secretKey ∉ obj.site.secretKeys

/-- The ways of `_eraseSite` that checks the key. -/
theorem eraseSite_cases (w : Sites) (key secretKey : String) :
    (w.sites key = none ∧ w._eraseSite key secretKey false = (w, .ok ())) ∨
    (w.Accepts key secretKey ∧ w._eraseSite key secretKey false = (w.erase key, .ok ())) ∨
    (w.Refuses key secretKey ∧ w._eraseSite key secretKey false = (w, .error mismatch)) := by
  rw [_eraseSite]
  cases hi : w.sites key with
  | none => exact .inl ⟨rfl, rfl⟩
  | some i =>
    right
    obtain ⟨obj, hobj⟩ : ∃ obj, w.objects[i]? = some obj :=
      ⟨_, List.getElem?_eq_getElem (w.valid _ i hi)⟩
    simp only [Bool.false_eq_true, if_false, validate_eq hobj]
    by_cases hk : secretKey ∈ obj.site.secretKeys
    · rw [validateSecretKey_of_mem hk]
      exact .inl ⟨⟨i, obj, hi, hobj, hk⟩, rfl⟩
    · rw [validateSecretKey_of_not_mem hk]
      exact .inr ⟨⟨i, obj, hi, hobj, hk⟩, rfl⟩

theorem Accepts.not_refuses {w : Sites} {key secretKey : String} (h : w.Accepts key secretKey) :
    ¬ w.Refuses key secretKey := by
  rintro ⟨j, obj', hj, hobj', hnot⟩
  obtain ⟨i, obj, hi, hobj, hmem⟩ := h
  obtain rfl : i = j := Option.some.inj (hi.symm.trans hj)
  obtain rfl : obj = obj' := Option.some.inj (hobj.symm.trans hobj')
  exact hnot hmem

/-- Erasing one entry does not change what another one answers. -/
theorem refuses_erase {w : Sites} {key key' secretKey : String} (hne : key' ≠ key) :
    (w.erase key).Refuses key' secretKey ↔ w.Refuses key' secretKey := by
  have hsites : (w.erase key).sites key' = w.sites key' := Function.update_of_ne hne ..
  rw [Refuses, Refuses, hsites]
  rfl

/-- The ways of `resetSite`: rejected before anything is erased; not rejected; or rejected by the
    staging Site after the production Site was erased. -/
theorem resetSite_cases (w : Sites) (d k : String) :
    (w.resetSite d k = (w, .error mismatch) ∧ ¬ w.Accepts d k) ∨
    (∃ w', w.resetSite d k = (w', .ok ()) ∧ ¬ w.Refuses (d ++ ".staging") k) ∨
    (w.Accepts d k ∧ w.Refuses (d ++ ".staging") k ∧
      w.resetSite d k = (w.erase d, .error mismatch)) := by
  have hne : d ++ ".staging" ≠ d := (sitesKey_ne d).symm
  have habsent : ∀ (w : Sites) {key}, w.sites key = none →
      ¬ w.Accepts key k ∧ ¬ w.Refuses key k := by
    intro w key hnone
    constructor
    all_goals
      rintro ⟨i, obj, hi, -⟩
      rw [hnone] at hi
      cases hi
  rw [resetSite, _resetSite]
  rcases w.eraseSite_cases d k with ⟨hi, herase⟩ | ⟨hacc, herase⟩ | ⟨href, herase⟩
  · rw [herase]
    dsimp only
    rcases w.eraseSite_cases (d ++ ".staging") k with ⟨hj, herase'⟩ | ⟨hacc', herase'⟩ | ⟨-, herase'⟩
    · exact .inr (.inl ⟨w, herase', (habsent w hj).2⟩)
    · exact .inr (.inl ⟨_, herase', hacc'.not_refuses⟩)
    · exact .inl ⟨herase', (habsent w hi).1⟩
  · rw [herase]
    dsimp only
    rcases (w.erase d).eraseSite_cases (d ++ ".staging") k with
      ⟨hj, herase'⟩ | ⟨hacc', herase'⟩ | ⟨href', herase'⟩
    · exact .inr (.inl ⟨_, herase', fun h => (habsent _ hj).2 ((refuses_erase hne).mpr h)⟩)
    · exact .inr (.inl ⟨_, herase', fun h => hacc'.not_refuses ((refuses_erase hne).mpr h)⟩)
    · exact .inr (.inr ⟨hacc, (refuses_erase hne).mp href', herase'⟩)
  · rw [herase]
    exact .inl ⟨rfl, fun hacc => hacc.not_refuses href⟩

end Sites

/-! ### Rejected requests -/

namespace Handler

variable {rt : Runtime}

/-- The request throws `Secret Key Mismatch`. -/
def Rejected : Outcome → Prop
  | .opened r => r = .error mismatch
  | .answered r => r = .error mismatch
  | .done r => r = .error mismatch

/-- If the request is rejected, `sites` with its Site objects and `sessions` are as they were. -/
def Untouched (rt : Runtime) (h : Handler) (op : Op) : Prop :=
  ∀ h' outcome, h.step rt op = some (h', outcome) → Rejected outcome →
    h'.store.sites = h.store.sites ∧ h'.sessions = h.sessions ∧
      ∀ i < h.store.objects.length, h'.store.objects[i]? = h.store.objects[i]?

section Open

variable {h : Handler} {w : Sites} {d k : String} {m : Bool} {suggested now : ℤ}
  {feed secret : Fetch} {rands : List ℤ}

theorem step_openSession_of_error {e : Failure}
    (hget : h.store.getSite rt.lib d k m feed secret = (w, .error e)) :
    h.step rt (.openSession d k m suggested feed secret now rands) =
      some ({ h with store := w }, .opened (.error e)) := by
  rw [step, openSession, hget]
  rfl

/-- Once `getSite` has returned, the key is not looked at again. -/
theorem not_rejected_of_ok {i : ℕ} {h' : Handler} {outcome : Outcome}
    (hget : h.store.getSite rt.lib d k m feed secret = (w, .ok i))
    (hstep : h.step rt (.openSession d k m suggested feed secret now rands) = some (h', outcome)) :
    ¬ Rejected outcome := by
  rw [step, openSession, hget] at hstep
  dsimp only at hstep
  cases hobj : w.objects[i]? with
  | none =>
    rw [hobj] at hstep
    cases hstep
    simp [Rejected, mismatch]
  | some obj =>
    rw [hobj] at hstep
    dsimp only at hstep
    cases hfree : freeId h.sessions suggested rands with
    | none =>
      rw [hfree] at hstep
      cases hstep
    | some sessionId =>
      rw [hfree] at hstep
      cases hstep
      simp [Rejected]

end Open

/-- A rejected `openSession` changes something exactly if it loads the Site that rejects it. -/
theorem untouched_openSession_iff (h : Handler) (d k : String) (m : Bool) (suggested now : ℤ)
    (feed secret : Fetch) (rands : List ℤ) :
    Untouched rt h (.openSession d k m suggested feed secret now rands) ↔
      (h.store.sites (Sites.sitesKey d m)).isSome ∨
      ¬ Sites.Builds rt.lib d m (feed.text h.store.cache (d ++ "-feed.xml")) ∨
      k ∈ split Sites.separators (secret.text h.store.cache (d ++ "-secret")) := by
  rcases @Sites.getSite_cases rt.lib h.store d k m feed secret with
    ⟨i, obj, hi, hobj, heq⟩ | ⟨w', e, hi, hbuild, heq, hsites, hobjects⟩ |
      ⟨w', site, hi, hbuild, heq, hsites, hobjects, hkeys⟩
  · refine iff_of_true (fun h' outcome hstep hrej => ?_) (.inl (by simp [hi]))
    by_cases hk : k ∈ obj.site.secretKeys
    · rw [validateSecretKey_of_mem hk] at heq
      exact absurd hrej (not_rejected_of_ok heq hstep)
    · rw [validateSecretKey_of_not_mem hk] at heq
      rw [step_openSession_of_error heq] at hstep
      cases hstep
      exact ⟨rfl, rfl, fun _ _ => rfl⟩
  · refine iff_of_true (fun h' outcome hstep hrej => ?_) (.inr (.inl hbuild))
    rw [step_openSession_of_error heq] at hstep
    cases hstep
    exact ⟨hsites, rfl, fun i _ => by rw [hobjects]⟩
  · by_cases hk : k ∈ site.secretKeys
    · refine iff_of_true (fun h' outcome hstep hrej => ?_) (.inr (.inr (hkeys ▸ hk)))
      rw [validateSecretKey_of_mem hk] at heq
      exact absurd hrej (not_rejected_of_ok heq hstep)
    · rw [validateSecretKey_of_not_mem hk] at heq
      refine iff_of_false (fun hun => ?_) ?_
      · -- the Site that was not there is in service now
        obtain ⟨hsame, -, -⟩ := hun _ _ (step_openSession_of_error heq) rfl
        have hnew : w'.sites (Sites.sitesKey d m) = some h.store.objects.length := by
          rw [hsites, Function.update_self]
        rw [hsame, hi] at hnew
        cases hnew
      · rintro (hsome | hnot | hmem)
        · simp [hi] at hsome
        · exact hnot hbuild
        · exact hk (hkeys ▸ hmem)

/-- A rejected `resetSite` changes something exactly if the production Site takes the key and the
    staging Site does not. -/
theorem untouched_resetSite_iff (h : Handler) (d k : String) :
    Untouched rt h (.resetSite d k) ↔
      ¬ (h.store.Accepts d k ∧ h.store.Refuses (d ++ ".staging") k) := by
  have hstep : ∀ {w r}, h.store.resetSite d k = (w, r) →
      h.step rt (.resetSite d k) = some ({ h with store := w }, .done r) := by
    intro w r heq
    rw [step, heq]
  rcases h.store.resetSite_cases d k with ⟨heq, hacc⟩ | ⟨w', heq, href⟩ | ⟨hacc, href, heq⟩
  · refine iff_of_true (fun h' outcome hs hrej => ?_) fun hboth => hacc hboth.1
    rw [hstep heq] at hs
    cases hs
    exact ⟨rfl, rfl, fun _ _ => rfl⟩
  · refine iff_of_true (fun h' outcome hs hrej => ?_) fun hboth => href hboth.2
    rw [hstep heq] at hs
    cases hs
    cases hrej
  · refine iff_of_false (fun hun => ?_) fun hnot => hnot ⟨hacc, href⟩
    obtain ⟨hsame, -, -⟩ := hun _ _ (hstep heq) rfl
    obtain ⟨i, -, hi, -⟩ := hacc
    have hgone : (h.store.erase d).sites d = none := Function.update_self ..
    rw [hsame, hi] at hgone
    cases hgone

/-- CORRECT: in every state, an `openSession` that is rejected for its key leaves sites and sessions
    alone exactly if the Site is loaded already, or cannot be built, or takes the key after all; a
    `resetSite` that is rejected does exactly if not the production Site takes the key and the
    staging Site refuses it. -/
theorem rejected_untouched_iff (rt : Runtime) (h : Handler) (d k : String) :
    (∀ m suggested feed secret now rands,
      Untouched rt h (.openSession d k m suggested feed secret now rands) ↔
        (h.store.sites (Sites.sitesKey d m)).isSome ∨
        ¬ Sites.Builds rt.lib d m (feed.text h.store.cache (d ++ "-feed.xml")) ∨
        k ∈ split Sites.separators (secret.text h.store.cache (d ++ "-secret"))) ∧
    (Untouched rt h (.resetSite d k) ↔
      ¬ (h.store.Accepts d k ∧ h.store.Refuses (d ++ ".staging") k)) :=
  ⟨fun m suggested feed secret now rands =>
    untouched_openSession_iff h d k m suggested now feed secret rands,
    untouched_resetSite_iff h d k⟩

/-- A client with a wrong key, before anybody else has asked for the site. -/
def sampleWrong : Op := .openSession "shop" "wrong" false 7 (.arrived "feed") (.arrived "key") 0 []

/-- The client is rejected, and the site stays loaded. -/
theorem openSession_rejected_loads : ¬ Untouched sampleRuntime Handler.init sampleWrong := by
  have hbuilds : ((Site.blank "shop" false []).loadXmlDoc sampleLib "feed").isOk = true := by
    decide +kernel
  have hkeys : "wrong" ∉ split Sites.separators "key" := by decide
  rw [sampleWrong, untouched_openSession_iff]
  rintro (hsome | hnot | hmem)
  · cases hsome
  · cases hload : (Site.blank "shop" false []).loadXmlDoc sampleLib "feed" with
    | error e =>
      rw [hload] at hbuilds
      cases hbuilds
    | ok site => exact hnot ⟨site, hload⟩
  · exact hkeys hmem

end Handler

end VaeDb
