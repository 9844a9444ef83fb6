import VaeDb.Handler.Sites
import VaeDb.Site.Keys

/-! Who gets a site: the secret keys that `getSite` lets in.

    The keys of a site are the pieces of the text in `<subdomain>-secret`. `boost::split` keeps empty
    pieces, so the empty key is let in whenever the text is empty (as after a failed fetch with no
    cached copy), begins or ends with a separator, or has two separators in a row.

        "k1,k2"    ──▶  k1 │ k2
        "k1,k2\n"  ──▶  k1 │ k2 │ (empty)
        ""         ──▶  (empty) -/

namespace VaeDb.Sites
open Schemes S3 Cpp

variable {lib : Xml.Libxml}

/-- The separators of secret keys. -/
def separators : List Char := [',', ';', '\n']

/-- Reading the feed leaves the cached copy of the keys alone. -/
theorem readS3_secret (w : Sites) (feed secret : Fetch) (subdomain : String) :
    secret.text (w.readS3 feed (subdomain ++ "-feed.xml")).1.cache (subdomain ++ "-secret") =
      secret.text w.cache (subdomain ++ "-secret") := by
  have hcache : (w.readS3 feed (subdomain ++ "-feed.xml")).1.cache (subdomain ++ "-secret") =
      w.cache (subdomain ++ "-secret") := by
    simp only [readS3, read_s3, finalize]
    split
    · rfl
    · split
      · rfl
      · split <;> simp
  rw [Fetch.text, Fetch.text, hcache]

theorem validate_eq_ok {w : Sites} {i j : ℕ} {obj : SiteObject} {secretKey : String}
    (hobj : w.objects[i]? = some obj) :
    (do w.validate i secretKey; pure i : Result ℕ) = .ok j ↔
      obj.site.validateSecretKey secretKey = .ok () ∧ i = j := by
  rw [bind_eq_ok, validate, hobj]
  constructor
  · rintro ⟨⟨⟩, hkey, hij⟩
    exact ⟨hkey, pure_eq_ok.mp hij⟩
  · exact fun ⟨hkey, hij⟩ => ⟨(), hkey, pure_eq_ok.mpr hij⟩

/-- What `getSite` answers for a site in service. -/
theorem getSite_loaded {w : Sites} {subdomain secretKey : String} {m : Bool} {i : ℕ}
    {obj : SiteObject} (hi : w.sites (sitesKey subdomain m) = some i)
    (hobj : w.objects[i]? = some obj) (feed secret : Fetch) (j : ℕ) :
    (w.getSite lib subdomain secretKey m feed secret).2 = .ok j ↔
      obj.site.validateSecretKey secretKey = .ok () ∧ i = j := by
  rw [getSite, hi]
  exact validate_eq_ok hobj

/-- What `getSite` answers for a site that it has to load. -/
theorem getSite_load {w : Sites} {subdomain secretKey : String} {m : Bool} {feed secret : Fetch}
    {site : Site} (hi : w.sites (sitesKey subdomain m) = none)
    (hnew : (Site.new lib (w.readS3 feed (subdomain ++ "-feed.xml")).1.cache secret subdomain m
      (w.readS3 feed (subdomain ++ "-feed.xml")).2).2 = .ok site) (j : ℕ) :
    (w.getSite lib subdomain secretKey m feed secret).2 = .ok j ↔
      site.validateSecretKey secretKey = .ok () ∧ w.objects.length = j := by
  have hobjects : (w.readS3 feed (subdomain ++ "-feed.xml")).1.objects = w.objects := rfl
  rw [getSite, hi]
  rcases hread : w.readS3 feed (subdomain ++ "-feed.xml") with ⟨w₁, xml⟩
  rw [hread] at hnew hobjects
  rcases hsite : Site.new lib w₁.cache secret subdomain m xml with ⟨cache, r⟩
  rw [hsite] at hnew
  obtain rfl : r = .ok site := hnew
  dsimp only
  rw [_loadSite, hsite]
  dsimp only at hobjects ⊢
  rw [← hobjects]
  refine @validate_eq_ok _ _ _ ⟨site, Caches.empty⟩ _ ?_
  simp [install]

/-- Only non-empty pieces of the secret text open the site: in `validateSecretKey`, in the `getSite`
    that loads it, and in every later `getSite` while the site is in service. -/
structure KeysSafe (lib : Xml.Libxml) (w : Sites) (subdomain : String) (m : Bool)
    (feed secret : Fetch) (site : Site) (text : String) : Prop where
  accepted : ∀ k, site.validateSecretKey k = .ok () → k ≠ "" ∧ k ∈ split separators text
  load : ∀ j, (w.getSite lib subdomain "" m feed secret).2 ≠ .ok j
  loaded : ∀ (w' : Sites) i obj, w'.sites (sitesKey subdomain m) = some i →
    w'.objects[i]? = some obj → obj.site = site → ∀ feed' secret' j,
    (w'.getSite lib subdomain "" m feed' secret').2 ≠ .ok j

/-- CORRECT: a Site that `getSite` builds, whatever came of reading its `-secret` object, is opened by
    non-empty pieces only, exactly when the text that was read is not empty, has no separator at
    either end and no two separators in a row. -/
theorem getSite_keysSafe_iff {w : Sites} {subdomain : String} {m : Bool} {feed secret : Fetch}
    {site : Site} (hi : w.sites (sitesKey subdomain m) = none)
    (hnew : (Site.new lib (w.readS3 feed (subdomain ++ "-feed.xml")).1.cache secret subdomain m
      (w.readS3 feed (subdomain ++ "-feed.xml")).2).2 = .ok site) :
    KeysSafe lib w subdomain m feed secret site (secret.text w.cache (subdomain ++ "-secret")) ↔
      WellSeparated (· ∈ separators)
        (secret.text w.cache (subdomain ++ "-secret")).toList := by
  have hkeys := new_validateSecretKey hnew
  rw [readS3_secret] at hkeys
  rw [← empty_not_mem_split]
  constructor
  · intro hsafe hempty
    exact (hsafe.accepted "" ((hkeys "").mpr hempty)).1 rfl
  · intro hempty
    have hnot : site.validateSecretKey "" ≠ .ok () := fun h => hempty ((hkeys "").mp h)
    refine ⟨fun k hk => ⟨?_, (hkeys k).mp hk⟩, fun j hj => ?_,
      fun w' i obj hi' hobj hsite _ _ j hj => ?_⟩
    · rintro rfl
      exact hnot hk
    · exact hnot ((getSite_load hi hnew j).mp hj).1
    · exact hnot (hsite ▸ ((getSite_loaded hi' hobj _ _ j).mp hj).1)

theorem getSite_keysSafe_sample : ∃ site,
    (Site.new sampleLib (Sites.init.readS3 (.arrived "feed") ("shop" ++ "-feed.xml")).1.cache
      (.arrived "k1,k2") "shop" false
      (Sites.init.readS3 (.arrived "feed") ("shop" ++ "-feed.xml")).2).2 = .ok site ∧
    KeysSafe sampleLib Sites.init "shop" false (.arrived "feed") (.arrived "k1,k2") site
      ((Fetch.arrived "k1,k2").text Sites.init.cache ("shop" ++ "-secret")) := by
  have hok : ((Site.new sampleLib
      (Sites.init.readS3 (.arrived "feed") ("shop" ++ "-feed.xml")).1.cache
      (.arrived "k1,k2") "shop" false
      (Sites.init.readS3 (.arrived "feed") ("shop" ++ "-feed.xml")).2).2).isOk = true := by
    decide +kernel
  have htext : ((Fetch.arrived "k1,k2").text Sites.init.cache ("shop" ++ "-secret")).toList =
      ['k', '1', ',', 'k', '2'] := by decide
  cases hnew : (Site.new sampleLib
      (Sites.init.readS3 (.arrived "feed") ("shop" ++ "-feed.xml")).1.cache
      (.arrived "k1,k2") "shop" false
      (Sites.init.readS3 (.arrived "feed") ("shop" ++ "-feed.xml")).2).2 with
  | error e =>
    rw [hnew] at hok
    cases hok
  | ok site =>
    refine ⟨site, rfl, (getSite_keysSafe_iff rfl hnew).mpr ?_⟩
    rw [htext]
    exact ⟨by decide, by simp [separators], by simp [separators], by simp [separators]⟩

/-- With no keys to be had, or with a newline after the last key, the empty key opens the site. -/
theorem getSite_empty_key :
    (Sites.init.getSite sampleLib "shop" "" false (.arrived "feed") ⟨[], false, true, true⟩).2 = .ok 0 ∧
    (Sites.init.getSite sampleLib "shop" "" false (.arrived "feed") (.arrived "key\n")).2 = .ok 0 := by
  decide +kernel

end VaeDb.Sites
