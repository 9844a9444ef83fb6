import VaeDb.S3
import VaeDb.Site.Caches

/-! The `sites` map of the handler: `getSite`, `resetSite`, `reloadSite`.

    `sites` maps a subdomain (with `.staging` for staging mode) to a Site object. A call that finds
    no object reads the feed from S3, builds a Site and installs it; an object that is no longer in
    the map lives on in the sessions that hold it, so that objects are only ever added.

        getSite:     in sites? ──▶ validateSecretKey
                     else read_s3 ──▶ new Site ──▶ sites[key] = site ──▶ validateSecretKey
        reloadSite:  counts ──▶ read_s3 ──▶ erase both ──▶ new Site, install, for each that was there

    Calls run one after another here; a call that throws keeps what it has changed so far. -/

namespace VaeDb
open Schemes S3

/-- A Site object: what was loaded, and its caches. -/
structure SiteObject where
  site : Site
  caches : Caches

/-- The Site objects built so far, the map to those in service, and the S3 cache directory. A
    pointer is the number of an object. -/
structure Sites where
  objects : List SiteObject
  sites : String → Option ℕ
  cache : CacheDir
  valid : ∀ k i, sites k = some i → i < objects.length

namespace Sites

/-- No site is loaded. -/
def init : Sites := ⟨[], fun _ => none, fun _ => none, fun _ _ h => by cases h⟩

/-- The key of `sites` and of `siteMutexes`. -/
def sitesKey (subdomain : String) (stagingMode : Bool) : String :=
  if stagingMode then subdomain ++ ".staging" else subdomain

/-- The text of an object, and the cache directory after reading it. -/
def readS3 (w : Sites) (f : Fetch) (objectname : String) : Sites × String :=
  let (cache, text) := read_s3 w.cache f objectname
  ({ w with cache := cache }, text)

theorem valid_install (w : Sites) (obj : SiteObject) (key : String) :
    ∀ k i, Function.update w.sites key (some w.objects.length) k = some i →
      i < (w.objects ++ [obj]).length := by
  intro k i h
  rw [List.length_append, List.length_singleton]
  rcases update_eq_some h with ⟨-, rfl⟩ | h
  · omega
  · exact Nat.lt_succ_of_lt (w.valid k i h)

/-- `sites[key] = site`, for a new object. -/
def install (w : Sites) (key : String) (obj : SiteObject) : Sites :=
  { w with
    objects := w.objects ++ [obj]
    sites := Function.update w.sites key (some w.objects.length)
    valid := w.valid_install obj key }

theorem valid_erase (w : Sites) (key : String) :
    ∀ k i, Function.update w.sites key none k = some i → i < w.objects.length := by
  intro k i h
  rcases eq_or_ne k key with rfl | hne
  · rw [Function.update_self] at h
    cases h
  · rw [Function.update_of_ne hne] at h
    exact w.valid k i h

/-- `sites.erase(key)`. -/
def erase (w : Sites) (key : String) : Sites :=
  { w with sites := Function.update w.sites key none, valid := w.valid_erase key }

/-! ### The calls -/

section Calls

variable (lib : Xml.Libxml)

/-- `_loadSite`. -/
def _loadSite (w : Sites) (subdomain : String) (stagingMode : Bool) (secret : Fetch)
    (xml : String) : Sites × Result ℕ :=
  match Site.new lib w.cache secret subdomain stagingMode xml with
  | (cache, .error e) => ({ w with cache := cache }, .error e)
  | (cache, .ok site) =>
    (({ w with cache := cache } : Sites).install (sitesKey subdomain stagingMode)
      ⟨site, Caches.empty⟩, .ok w.objects.length)

/-- `sites[key]->validateSecretKey(secretKey)`. -/
def validate (w : Sites) (i : ℕ) (secretKey : String) : Result Unit := do
  let obj ← deref w.objects[i]?
  obj.site.validateSecretKey secretKey

/-- `getSite` outside test mode. -/
def getSite (w : Sites) (subdomain secretKey : String) (stagingMode : Bool) (feed secret : Fetch) :
    Sites × Result ℕ :=
  match w.sites (sitesKey subdomain stagingMode) with
  | some i => (w, do w.validate i secretKey; pure i)
  | none =>
    let (w, xml) := w.readS3 feed (subdomain ++ "-feed.xml")
    match w._loadSite lib subdomain stagingMode secret xml with
    | (w, .error e) => (w, .error e)
    | (w, .ok i) => (w, do w.validate i secretKey; pure i)

/-- `_eraseSite`. -/
def _eraseSite (w : Sites) (key secretKey : String) (force : Bool) : Sites × Result Unit :=
  match w.sites key with
  | none => (w, pure ())
  | some i =>
    match if force then pure () else w.validate i secretKey with
    | .error e => (w, .error e)
    | .ok () => (w.erase key, pure ())

/-- `_resetSite`: an entry that is not there is left alone; the second one is not reached if the
    first one throws. -/
def _resetSite (w : Sites) (subdomain secretKey : String) (force : Bool) : Sites × Result Unit :=
  match w._eraseSite subdomain secretKey force with
  | (w, .error e) => (w, .error e)
  | (w, .ok ()) => w._eraseSite (subdomain ++ ".staging") secretKey force

def resetSite (w : Sites) (subdomain secretKey : String) : Sites × Result Unit :=
  w._resetSite subdomain secretKey false

/-- One half of `reloadSite`: load again what was loaded before. -/
def reload (w : Sites) (loaded : Bool) (subdomain : String) (stagingMode : Bool) (secret : Fetch)
    (rawxml : String) : Sites × Result Unit :=
  if loaded then
    match w._loadSite lib subdomain stagingMode secret rawxml with
    | (w, .error e) => (w, .error e)
    | (w, .ok _) => (w, pure ())
  else (w, pure ())

/-- `reloadSite`. -/
def reloadSite (w : Sites) (subdomain : String) (feed secret secretStaging : Fetch) :
    Sites × Result Unit :=
  let reload_prod := (w.sites subdomain).isSome
  let reload_staging := (w.sites (subdomain ++ ".staging")).isSome
  let (w, rawxml) := w.readS3 feed (subdomain ++ "-feed.xml")
  match w._resetSite subdomain "" true with
  | (w, .error e) => (w, .error e)
  | (w, .ok ()) =>
    match w.reload lib reload_prod subdomain false secret rawxml with
    | (w, .error e) => (w, .error e)
    | (w, .ok ()) => w.reload lib reload_staging subdomain true secretStaging rawxml

end Calls

end Sites

end VaeDb
