import VaeDb.Handler.Sites
import VaeDb.Site.Keys

/-! Reloading a site: what `reloadSite` leaves in `sites` when a build throws.

    `reloadSite` erases the two entries of the subdomain before it builds anything, so a feed that
    does not load takes the site out of service: the old object is gone and no new one is there.
    `getSite`, its sibling, builds first and touches `sites` only with a finished Site.

        erase prod, erase staging ──▶ build prod ──▶ install ──▶ build staging ──▶ install
                                          ╳ throws                    ╳ throws -/

namespace VaeDb.Sites
open Schemes S3

variable {lib : Xml.Libxml}

/-! ### What the parts do to the map -/

/-- A forced erase always succeeds, and only the entry of the key goes. -/
theorem eraseSite_force (w : Sites) (key : String) :
    (w._eraseSite key "" true).2 = .ok () ∧ (w._eraseSite key "" true).1.objects = w.objects ∧
      (w._eraseSite key "" true).1.sites = Function.update w.sites key none := by
  rw [_eraseSite]
  cases hkey : w.sites key with
  | none =>
    have hsame : Function.update w.sites key none = w.sites := by
      rw [← hkey, Function.update_eq_self]
    exact ⟨rfl, rfl, hsame.symm⟩
  | some i => exact ⟨rfl, rfl, rfl⟩

/-- What a forced reset leaves: the two entries are gone. -/
structure Reset (w w' : Sites) (subdomain : String) : Prop where
  objects : w'.objects = w.objects
  gone : ∀ m, w'.sites (sitesKey subdomain m) = none
  others : ∀ k, (∀ m, k ≠ sitesKey subdomain m) → w'.sites k = w.sites k

theorem resetSite_force (w : Sites) (subdomain : String) :
    ∃ w', w._resetSite subdomain "" true = (w', .ok ()) ∧ Reset w w' subdomain := by
  obtain ⟨hok, hobjects, hsites⟩ := eraseSite_force w subdomain
  rw [_resetSite]
  rcases h₁ : w._eraseSite subdomain "" true with ⟨w₁, r₁⟩
  rw [h₁] at hok hobjects hsites
  cases hok
  obtain ⟨hok', hobjects', hsites'⟩ := eraseSite_force w₁ (subdomain ++ ".staging")
  refine ⟨_, Prod.ext rfl hok', hobjects'.trans hobjects, fun m => ?_, fun k hk => ?_⟩
  · rw [hsites', hsites]
    cases m with
    | true => exact Function.update_self ..
    | false => simp [sitesKey, Function.update_apply]
  · have hprod : k ≠ subdomain := hk false
    have hstaging : k ≠ subdomain ++ ".staging" := hk true
    rw [hsites', hsites, Function.update_of_ne hstaging, Function.update_of_ne hprod]

/-- Reloading one mode: nothing to do, a failed build that changes no entry, or a new object. -/
theorem reload_cases (w : Sites) (loaded : Bool) (subdomain : String) (m : Bool) (secret : Fetch)
    (rawxml : String) :
    (loaded = false ∧ w.reload lib loaded subdomain m secret rawxml = (w, .ok ())) ∨
    (∃ w' e, loaded = true ∧ (Site.new lib w.cache secret subdomain m rawxml).2 = .error e ∧
      w.reload lib loaded subdomain m secret rawxml = (w', .error e) ∧ w'.sites = w.sites) ∨
    ∃ w' site, loaded = true ∧ (Site.new lib w.cache secret subdomain m rawxml).2 = .ok site ∧
      w.reload lib loaded subdomain m secret rawxml = (w', .ok ()) ∧
      w'.objects.length = w.objects.length + 1 ∧
      w'.sites = Function.update w.sites (sitesKey subdomain m) (some w.objects.length) := by
  rw [reload]
  cases loaded with
  | false => exact Or.inl ⟨rfl, rfl⟩
  | true =>
    right
    rw [if_pos rfl, _loadSite]
    rcases hnew : Site.new lib w.cache secret subdomain m rawxml with ⟨cache, e | site⟩
    · exact Or.inl ⟨_, e, rfl, rfl, rfl, rfl⟩
    · exact Or.inr ⟨_, site, rfl, rfl, rfl, by simp [install], rfl⟩

/-! ### Atomic reloads -/

/-- The two entries after a reload. After an exception both are what they were. After a normal
    return the loaded ones are those loaded before, each a new object. Other sites are untouched. A
    crash leaves no process to speak of. -/
def ReloadAtomic (w : Sites) (subdomain : String) (w' : Sites) : Result Unit → Prop
  | .error e => e ≠ .undefined →
      ∀ m, w'.sites (sitesKey subdomain m) = w.sites (sitesKey subdomain m)
  | .ok () =>
      (∀ m, (w'.sites (sitesKey subdomain m)).isSome = (w.sites (sitesKey subdomain m)).isSome) ∧
      (∀ m i, w'.sites (sitesKey subdomain m) = some i → w.objects.length ≤ i) ∧
      ∀ k, (∀ m, k ≠ sitesKey subdomain m) → w'.sites k = w.sites k

/-- Building a Site from this feed throws. -/
def Throws (lib : Xml.Libxml) (subdomain : String) (stagingMode : Bool) (rawxml : String) : Prop :=
  ∃ e, (Site.blank subdomain stagingMode []).loadXmlDoc lib rawxml = .error e ∧ e ≠ .undefined

/-- Building a Site from this feed crashes. -/
def Crashes (lib : Xml.Libxml) (subdomain : String) (stagingMode : Bool) (rawxml : String) : Prop :=
  (Site.blank subdomain stagingMode []).loadXmlDoc lib rawxml = .error .undefined

theorem new_error {cache : CacheDir} {secret : Fetch} {subdomain rawxml : String} {m : Bool}
    {e : Failure} (h : (Site.new lib cache secret subdomain m rawxml).2 = .error e) :
    (Throws lib subdomain m rawxml ↔ e ≠ .undefined) ∧
      (Crashes lib subdomain m rawxml ↔ e = .undefined) := by
  rw [new_eq] at h
  cases hload : (Site.blank subdomain m []).loadXmlDoc lib rawxml with
  | ok site =>
    rw [hload] at h
    cases h
  | error e' =>
    rw [hload] at h
    cases h
    simp [Throws, Crashes, hload]

theorem new_ok {cache : CacheDir} {secret : Fetch} {subdomain rawxml : String} {m : Bool}
    {site : Site} (h : (Site.new lib cache secret subdomain m rawxml).2 = .ok site) :
    ¬ Throws lib subdomain m rawxml ∧ ¬ Crashes lib subdomain m rawxml := by
  rw [new_eq] at h
  cases hload : (Site.blank subdomain m []).loadXmlDoc lib rawxml with
  | error e =>
    rw [hload] at h
    cases h
  | ok site => simp [Throws, Crashes, hload]

theorem sitesKey_ne (subdomain : String) : sitesKey subdomain false ≠ sitesKey subdomain true := by
  intro h
  have hlen := congrArg String.length h
  simp [sitesKey] at hlen

/-- Between the two halves of a reload: production is done, staging is still erased. -/
structure Halfway (w w' : Sites) (subdomain : String) : Prop where
  objects : w.objects.length ≤ w'.objects.length
  loaded : (w'.sites (sitesKey subdomain false)).isSome = (w.sites (sitesKey subdomain false)).isSome
  new : ∀ i, w'.sites (sitesKey subdomain false) = some i → w.objects.length ≤ i
  gone : w'.sites (sitesKey subdomain true) = none
  others : ∀ k, (∀ m, k ≠ sitesKey subdomain m) → w'.sites k = w.sites k

/-- Production was not loaded, so nothing is built for it. -/
theorem Reset.halfway {w w' : Sites} {subdomain : String} (h : Reset w w' subdomain)
    (hprod : (w.sites (sitesKey subdomain false)).isSome = false) : Halfway w w' subdomain where
  objects := by rw [h.objects]
  loaded := by rw [h.gone, hprod]; rfl
  new i hi := by
    rw [h.gone] at hi
    cases hi
  gone := h.gone true
  others := h.others

/-- Production was loaded, and is built anew. -/
theorem Reset.halfway_install {w w' w'' : Sites} {subdomain : String} (h : Reset w w' subdomain)
    (hprod : (w.sites (sitesKey subdomain false)).isSome = true)
    (hobjects : w''.objects.length = w'.objects.length + 1)
    (hsites : w''.sites =
      Function.update w'.sites (sitesKey subdomain false) (some w'.objects.length)) :
    Halfway w w'' subdomain where
  objects := by
    rw [hobjects, h.objects]
    omega
  loaded := by rw [hsites, Function.update_self, hprod]; rfl
  new i hi := by
    rw [hsites, Function.update_self, Option.some.injEq, h.objects] at hi
    omega
  gone := by rw [hsites, Function.update_of_ne (sitesKey_ne subdomain).symm, h.gone]
  others k hk := by rw [hsites, Function.update_of_ne (hk false), h.others k hk]

/-- The second half decides by itself. -/
theorem reload_staging_iff {w w' : Sites} {subdomain : String} (h : Halfway w w' subdomain)
    {secret : Fetch} {rawxml : String} {out : Sites × Result Unit}
    (hdef : w'.reload lib (w.sites (sitesKey subdomain true)).isSome subdomain true secret rawxml =
      out) :
    ReloadAtomic w subdomain out.1 out.2 ↔
      ((w.sites (sitesKey subdomain true)).isSome → ¬ Throws lib subdomain true rawxml) := by
  rcases @reload_cases lib w' (w.sites (sitesKey subdomain true)).isSome subdomain true secret
    rawxml with ⟨hload, hout⟩ | ⟨w'', e, hload, hnew, hout, hsites⟩ |
      ⟨w'', site, hload, hnew, hout, -, hsites⟩
  · rw [← hdef, hout, hload]
    refine iff_of_true ⟨fun m => ?_, fun m i hi => ?_, h.others⟩ (fun hf => by cases hf)
    · cases m with
      | false => exact h.loaded
      | true => rw [h.gone, hload]; rfl
    · cases m with
      | false => exact h.new i hi
      | true =>
        rw [h.gone] at hi
        cases hi
  · rw [← hdef, hout, hload, (new_error hnew).1]
    simp only [ReloadAtomic, forall_const, not_not]
    constructor
    · intro hatomic
      by_contra hthrown
      have hstaging := hatomic hthrown true
      rw [hsites, h.gone] at hstaging
      rw [← hstaging] at hload
      cases hload
    · exact fun he hthrown => absurd he hthrown
  · rw [← hdef, hout]
    refine iff_of_true ⟨fun m => ?_, fun m i hi => ?_, fun k hk => ?_⟩ fun _ => (new_ok hnew).1
    · cases m with
      | false => rw [hsites, Function.update_of_ne (sitesKey_ne subdomain), h.loaded]
      | true => rw [hsites, Function.update_self, hload]; rfl
    · cases m with
      | false =>
        rw [hsites, Function.update_of_ne (sitesKey_ne subdomain)] at hi
        exact h.new i hi
      | true =>
        rw [hsites, Function.update_self, Option.some.injEq] at hi
        exact hi ▸ h.objects
    · rw [hsites, Function.update_of_ne (hk true), h.others k hk]

section

variable {w w₁ w₂ : Sites} {subdomain rawxml : String} {feed secret : Fetch} {e : Failure}
  (hreset : (w.readS3 feed (subdomain ++ "-feed.xml")).1._resetSite subdomain "" true = (w₁, .ok ()))
  (hraw : (w.readS3 feed (subdomain ++ "-feed.xml")).2 = rawxml)

include hreset hraw

/-- Production is built: staging is next. -/
theorem reloadSite_of_ok
    (hprod : w₁.reload lib (w.sites (sitesKey subdomain false)).isSome subdomain false secret rawxml =
      (w₂, .ok ())) (secretStaging : Fetch) :
    w.reloadSite lib subdomain feed secret secretStaging =
      w₂.reload lib (w.sites (sitesKey subdomain true)).isSome subdomain true secretStaging
        rawxml := by
  rw [reloadSite]
  dsimp only
  rw [hreset, hraw]
  dsimp only
  rw [show (w.sites subdomain).isSome = (w.sites (sitesKey subdomain false)).isSome from rfl, hprod]
  rfl

/-- Production fails: that is the end. -/
theorem reloadSite_of_error
    (hprod : w₁.reload lib (w.sites (sitesKey subdomain false)).isSome subdomain false secret rawxml =
      (w₂, .error e)) (secretStaging : Fetch) :
    w.reloadSite lib subdomain feed secret secretStaging = (w₂, .error e) := by
  rw [reloadSite]
  dsimp only
  rw [hreset, hraw]
  dsimp only
  rw [show (w.sites subdomain).isSome = (w.sites (sitesKey subdomain false)).isSome from rfl, hprod]

end

/-- CORRECT: `reloadSite` is atomic exactly when none of the builds it makes throws: production if it
    is loaded, and staging if it is loaded and production does not crash. -/
theorem reloadSite_atomic_iff (w : Sites) (subdomain : String)
    (feed secret secretStaging : Fetch) :
    let rawxml := feed.text w.cache (subdomain ++ "-feed.xml")
    let out := w.reloadSite lib subdomain feed secret secretStaging
    ReloadAtomic w subdomain out.1 out.2 ↔
      ((w.sites (sitesKey subdomain false)).isSome → ¬ Throws lib subdomain false rawxml) ∧
      ((w.sites (sitesKey subdomain true)).isSome →
        ((w.sites (sitesKey subdomain false)).isSome ∧ Crashes lib subdomain false rawxml) ∨
          ¬ Throws lib subdomain true rawxml) := by
  intro rawxml out
  have hraw : (w.readS3 feed (subdomain ++ "-feed.xml")).2 = rawxml := read_s3_snd ..
  obtain ⟨w₁, hreset, h₁⟩ := resetSite_force (w.readS3 feed (subdomain ++ "-feed.xml")).1 subdomain
  have h₁ : Reset w w₁ subdomain := ⟨h₁.objects, h₁.gone, h₁.others⟩
  rcases @reload_cases lib w₁ (w.sites (sitesKey subdomain false)).isSome subdomain false
    secret rawxml with ⟨hload, hprod⟩ | ⟨w₂, e, hload, hnew, hprod, hsites⟩ |
      ⟨w₂, site, hload, hnew, hprod, hobjects, hsites⟩
  · have hout := reloadSite_of_ok (w := w) hreset hraw hprod secretStaging
    rw [reload_staging_iff (h₁.halfway hload) hout.symm, hload]
    simp
  · have hout : out = _ := reloadSite_of_error (w := w) hreset hraw hprod secretStaging
    rw [hout, hload, (new_error hnew).1, (new_error hnew).2]
    simp only [ReloadAtomic, forall_const, not_not, true_and]
    constructor
    · intro hatomic
      have hcrash : e = .undefined := by
        by_contra hthrown
        have hstaging := hatomic hthrown false
        rw [hsites, h₁.gone] at hstaging
        rw [← hstaging] at hload
        cases hload
      exact ⟨hcrash, fun _ => Or.inl hcrash⟩
    · exact fun ⟨hcrash, _⟩ hthrown => absurd hcrash hthrown
  · have hout := reloadSite_of_ok (w := w) hreset hraw hprod secretStaging
    rw [reload_staging_iff (h₁.halfway_install hload hobjects hsites) hout.symm]
    simp [(new_ok hnew).1, (new_ok hnew).2]

theorem not_reloadAtomic {w w' : Sites} {subdomain : String} {r : Result Unit} {e : Failure}
    {m : Bool} (hr : r = .error e) (he : e ≠ .undefined)
    (hm : w'.sites (sitesKey subdomain m) ≠ w.sites (sitesKey subdomain m)) :
    ¬ ReloadAtomic w subdomain w' r := by
  subst hr
  exact fun hatomic => hm (hatomic he m)

/-- A site in service, loaded without a copy in the cache directory. -/
def sampleSites : Sites :=
  (Sites.init.getSite sampleLib "shop" "key" false ⟨["feed"], true, false, false⟩
    ⟨["key"], true, false, false⟩).1

/-- A reload of that site whose fetch of the feed fails. -/
def sampleReload : Sites × Result Unit :=
  sampleSites.reloadSite sampleLib "shop" ⟨[], false, false, false⟩ ⟨["key"], true, false, false⟩
    ⟨["key"], true, false, false⟩

/-- The empty text does not parse, and the site that was in service is gone. -/
theorem reloadSite_drops :
    sampleSites.sites (sitesKey "shop" false) = some 0 ∧
      sampleReload.2 = .error (.internalError "Could not open/parse XML file") ∧
      sampleReload.1.sites (sitesKey "shop" false) = none ∧
      ¬ ReloadAtomic sampleSites "shop" sampleReload.1 sampleReload.2 := by
  have hloaded : sampleSites.sites (sitesKey "shop" false) = some 0 := by decide +kernel
  have hthrown : sampleReload.2 = .error (.internalError "Could not open/parse XML file") := by
    decide +kernel
  have hgone : sampleReload.1.sites (sitesKey "shop" false) = none := by decide +kernel
  refine ⟨hloaded, hthrown, hgone, not_reloadAtomic (m := false) hthrown (by simp) ?_⟩
  rw [hgone, hloaded]
  simp

end VaeDb.Sites
