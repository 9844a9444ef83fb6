import Mathlib.Data.Set.Basic
import VaeDb.Handler.Isolation
import VaeDb.Handler.SecretKeys
import VaeDb.Schemes.Runs

/-! Which Site a client gets: the two halves of a key.

    `sites` is one map for both modes, and the key of a staging Site is its subdomain with `.staging`
    after it. That is also the key of the production Site of a subdomain that is itself called so.

        (shop, staging)            ──▶  "shop.staging"
        (shop.staging, production) ──▶  "shop.staging"

    In every run the entry of a key is a Site with that key. So as long as no two subdomains in use
    differ by the suffix, a key has one Site; and as soon as two do, a client of the one gets the
    Site of the other. -/

namespace VaeDb.Sites
open Schemes S3

/-- A call about sites. -/
inductive SiteOp where
  | getSite (subdomain secretKey : String) (stagingMode : Bool) (feed secret : Fetch)
  | resetSite (subdomain secretKey : String)
  | reloadSite (subdomain : String) (feed secret secretStaging : Fetch)

def SiteOp.subdomain : SiteOp → String
  | .getSite subdomain .. => subdomain
  | .resetSite subdomain _ => subdomain
  | .reloadSite subdomain .. => subdomain

variable (lib : Xml.Libxml)

/-- The sites after a call, whether it returns or throws. -/
def next (w : Sites) : SiteOp → Sites
  | .getSite subdomain secretKey m feed secret => (w.getSite lib subdomain secretKey m feed secret).1
  | .resetSite subdomain secretKey => (w.resetSite subdomain secretKey).1
  | .reloadSite subdomain feed secret secretStaging =>
    (w.reloadSite lib subdomain feed secret secretStaging).1

/-- The call gets the Site of the subdomain and the mode it names, or erases entries of the subdomain
    it names only. -/
def Right (w : Sites) : SiteOp → Prop
  | .getSite subdomain secretKey m feed secret =>
    ∀ i, (w.getSite lib subdomain secretKey m feed secret).2 = .ok i →
      ∃ obj, (w.getSite lib subdomain secretKey m feed secret).1.objects[i]? = some obj ∧
        obj.site.Is subdomain m
  | .resetSite subdomain secretKey =>
    ∀ k i, w.sites k = some i → (w.resetSite subdomain secretKey).1.sites k ≠ some i →
      ∃ obj, w.objects[i]? = some obj ∧ obj.site.subdomain = subdomain
  | .reloadSite .. => True

/-- Every call of the run is right in the state it is made in. -/
def RunsRight (ops : List SiteOp) : Prop :=
  Meets (fun w op => some (next lib w op)) (Right lib) Sites.init ops

variable {lib}

/-! ### Keys -/

/-- No two of the subdomains differ by the suffix for staging mode. -/
def Apart (D : Set String) : Prop := ∀ d ∈ D, d ++ ".staging" ∉ D

theorem sitesKey_inj {D : Set String} (hD : Apart D) {d d' : String} (hd : d ∈ D) (hd' : d' ∈ D)
    {m m' : Bool} (h : sitesKey d m = sitesKey d' m') : d = d' ∧ m = m' := by
  cases m <;> cases m' <;> simp only [sitesKey, Bool.false_eq_true, if_true, if_false] at h
  · exact ⟨h, rfl⟩
  · exact absurd (h ▸ hd) (hD d' hd')
  · exact absurd (h ▸ hd') (hD d hd)
  · exact ⟨String.append_left_inj _ |>.mp h, rfl⟩

/-- Every entry stands under the key of its Site, and its subdomain is one of those in use. -/
def Keyed (D : Set String) (w : Sites) : Prop :=
  ∀ k i, w.sites k = some i → ∃ obj, w.objects[i]? = some obj ∧ obj.site.subdomain ∈ D ∧
    k = sitesKey obj.site.subdomain obj.site.stagingMode

theorem keyed_stable {D : Set String} {d : String} (hd : d ∈ D) : Stable d (Keyed D) where
  cache _ _ h := h
  install w m site h his := by
    intro k i hk
    rcases update_eq_some hk with ⟨rfl, rfl⟩ | hk
    · refine ⟨⟨site, Caches.empty⟩, by simp [install], ?_, ?_⟩
      · rwa [his.1]
      · rw [his.1, his.2]
    · obtain ⟨obj, hobj, hobj'⟩ := h k i hk
      refine ⟨obj, ?_, hobj'⟩
      exact Extends.getElem? ⟨[⟨site, Caches.empty⟩], rfl, by simp⟩ hobj
  erase w m h := by
    intro k i hk
    rcases eq_or_ne k (sitesKey d m) with rfl | hne
    · exact absurd ((Function.update_self ..).symm.trans hk) (by simp)
    · exact h k i ((Function.update_of_ne hne ..).symm.trans hk)

theorem keyed_next {D : Set String} {w : Sites} (h : Keyed D w) {op : SiteOp}
    (hop : op.subdomain ∈ D) : Keyed D (next lib w op) := by
  cases op with
  | getSite d secretKey m feed secret => exact (keyed_stable hop).getSite h lib secretKey m feed secret
  | resetSite d secretKey => exact (keyed_stable hop).resetSite h secretKey false
  | reloadSite d feed secret secretStaging =>
    exact (keyed_stable hop).reloadSite h lib feed secret secretStaging

/-- A reset leaves the entries under other keys alone. -/
theorem resetSite_others {w : Sites} {d k : String} (hk : ∀ m, k ≠ sitesKey d m)
    (secretKey : String) : (w.resetSite d secretKey).1.sites k = w.sites k := by
  have hstable : Stable d fun w' => w'.sites k = w.sites k :=
    ⟨fun _ _ h => h, fun _ m _ h _ => (Function.update_of_ne (hk m) ..).trans h,
      fun _ m h => (Function.update_of_ne (hk m) ..).trans h⟩
  exact hstable.resetSite rfl secretKey false

/-- Where every entry stands under the key of its Site, keys that differ give calls that are right. -/
theorem right_of_keyed {D : Set String} (hD : Apart D) {w : Sites} (h : Keyed D w) {op : SiteOp}
    (hop : op.subdomain ∈ D) : Right lib w op := by
  cases op with
  | getSite d secretKey m feed secret =>
    intro i hi
    have hservice := Handler.getSite_in_service (Prod.ext rfl hi :
      w.getSite lib d secretKey m feed secret = (_, .ok i))
    have hkeyed := (keyed_stable hop).getSite h lib secretKey m feed secret
    obtain ⟨obj, hobj, hmem, hkey⟩ := hkeyed _ i hservice
    obtain ⟨hd, hm⟩ := sitesKey_inj hD hop hmem hkey
    exact ⟨obj, hobj, hd.symm, hm.symm⟩
  | resetSite d secretKey =>
    intro k i hi herased
    obtain ⟨m, rfl⟩ : ∃ m, k = sitesKey d m := by
      by_contra! hk
      exact herased ((resetSite_others hk secretKey).trans hi)
    obtain ⟨obj, hobj, hmem, hkey⟩ := h _ i hi
    exact ⟨obj, hobj, (sitesKey_inj hD hop hmem hkey).1.symm⟩
  | reloadSite => trivial

theorem runsRight_of_apart {D : Set String} (hD : Apart D) : ∀ {ops : List SiteOp} {w : Sites},
    Keyed D w → (∀ op ∈ ops, op.subdomain ∈ D) →
      Meets (fun w op => some (next lib w op)) (Right lib) w ops
  | [], _, _, _ => trivial
  | op :: ops, w, h, hops => by
    have hop := hops op List.mem_cons_self
    refine meets_cons.mpr ⟨right_of_keyed hD h hop, ?_⟩
    rintro _ ⟨⟩
    exact runsRight_of_apart hD (keyed_next h hop) fun x hx => hops x (List.mem_cons_of_mem op hx)

/-! ### Two subdomains with one key -/

/-- A feed with no content. -/
def bareFeed : Xml.Document :=
  [.element "website" [] [.element "content" [] [], .element "design" [] [],
    .element "generation" [] [.text "7"]]]

/-- libxml2 on the feed with no content. -/
def bareLib : Xml.Libxml where
  xmlReadMemory _ := some bareFeed
  xmlXPathEvalExpression _ _ q :=
    if q = "/website/content" then .nodeset [.node (.parsed [0, 0])]
    else if q = "/website/design" then .nodeset [.node (.parsed [1, 0])]
    else .nodeset [.node (.parsed [2, 0])]

/-- A client of the staging site of `d`, and then one of the site `d.staging`. -/
def clash (d : String) : List SiteOp :=
  [.getSite d "" true (.arrived "feed") (.arrived ""),
    .getSite (d ++ ".staging") "" false (.arrived "feed") (.arrived "")]

/-- The first client gets the staging Site of `d`, which the empty key opens. -/
theorem clash_first (d : String) :
    ∃ site w, Sites.init.getSite bareLib d "" true (.arrived "feed") (.arrived "") = (w, .ok 0) ∧
      w.sites = Function.update Sites.init.sites (d ++ ".staging") (some 0) ∧
      w.objects = [⟨site, Caches.empty⟩] ∧ site.Is d true ∧
      site.validateSecretKey "" = .ok () :=
  ⟨_, _, rfl, rfl, rfl, ⟨rfl, rfl⟩, rfl⟩

/-- The second client gets the same Site, which is not the one asked for. -/
theorem not_runsRight_clash (d : String) : ¬ RunsRight bareLib (clash d) := by
  intro h
  obtain ⟨site, w, hget, hsites, hobjects, his, hkey⟩ := clash_first d
  obtain ⟨-, hrest⟩ := meets_cons.mp h
  have hnext : next bareLib Sites.init (.getSite d "" true (.arrived "feed") (.arrived "")) = w :=
    congrArg Prod.fst hget
  obtain ⟨hright, -⟩ := meets_cons.mp (hrest w (congrArg some hnext))
  have hloaded : w.sites (sitesKey (d ++ ".staging") false) = some 0 := by
    rw [hsites]
    exact Function.update_self ..
  have hobj : w.objects[0]? = some ⟨site, Caches.empty⟩ := by rw [hobjects]; rfl
  obtain ⟨obj, hobj', his'⟩ := hright 0 ((getSite_loaded hloaded hobj _ _ 0).mpr ⟨hkey, rfl⟩)
  obtain rfl : ⟨site, Caches.empty⟩ = obj := by
    rw [Sites.getSite, hloaded] at hobj'
    exact Option.some.inj (hobj.symm.trans hobj')
  exact absurd (his.2.symm.trans his'.2) (by decide)

/-! ### The main result -/

/-- CORRECT: every call of every run on a set of subdomains gets the Site it asked for and erases
    only what it names, exactly if the set has no two subdomains of which one is the other with
    `.staging` after it. -/
theorem sites_right_iff_apart (D : Set String) :
    (∀ lib ops, (∀ op ∈ ops, op.subdomain ∈ D) → RunsRight lib ops) ↔ Apart D := by
  constructor
  · intro h d hd hstaging
    refine not_runsRight_clash d (h bareLib (clash d) ?_)
    intro op hop
    rcases List.mem_cons.mp hop with rfl | hop
    · exact hd
    · rw [List.mem_singleton.mp hop]
      exact hstaging
  · intro hD lib ops hops
    refine runsRight_of_apart hD (fun k i hk => ?_) hops
    cases hk

/-- The site `shop.staging` and the staging mode of `shop`. -/
theorem shop_staging_clashes : ¬ ∀ lib ops, RunsRight lib ops :=
  fun h => not_runsRight_clash "shop" (h bareLib (clash "shop"))

end VaeDb.Sites
