import VaeDb.Handler.Sites
import VaeDb.Site.Identity

/-! What calls about a subdomain can do to `sites`.

    Whatever `getSite`, `resetSite` and `reloadSite` do, and wherever they throw, they do it by three
    changes: they store a copy in the S3 cache, install a new Site of the subdomain under its own
    key, or erase one of its two entries. `Stable` is what these three keep; it is then kept by the
    calls.

        getSite     =  cache* ; install?
        resetSite   =  erase? ; erase?
        reloadSite  =  cache* ; erase ; erase ; install? ; install? -/

namespace VaeDb.Sites
open Schemes S3

/-- The changes for `subdomain` keep `I`. -/
structure Stable (subdomain : String) (I : Sites → Prop) : Prop where
  cache : ∀ (w : Sites) cache, I w → I { w with cache := cache }
  install : ∀ (w : Sites) m site, I w → site.Is subdomain m →
    I (w.install (sitesKey subdomain m) ⟨site, Caches.empty⟩)
  erase : ∀ (w : Sites) m, I w → I (w.erase (sitesKey subdomain m))

namespace Stable

variable {subdomain : String} {I : Sites → Prop} {w : Sites}

theorem readS3 (h : Stable subdomain I) (hw : I w) (f : Fetch) (objectname : String) :
    I (w.readS3 f objectname).1 :=
  h.cache w _ hw

theorem loadSite (h : Stable subdomain I) (hw : I w) (lib : Xml.Libxml) (m : Bool) (secret : Fetch)
    (xml : String) : I (w._loadSite lib subdomain m secret xml).1 := by
  have his : Ends (Site.Is subdomain m) (Site.new lib w.cache secret subdomain m xml).2 :=
    new_is w.cache secret xml
  rw [_loadSite]
  rcases hnew : Site.new lib w.cache secret subdomain m xml with ⟨cache, e | site⟩
  · exact h.cache w cache hw
  · rw [hnew] at his
    exact h.install _ m site (h.cache w cache hw) (his site rfl)

theorem getSite (h : Stable subdomain I) (hw : I w) (lib : Xml.Libxml) (secretKey : String)
    (m : Bool) (feed secret : Fetch) : I (w.getSite lib subdomain secretKey m feed secret).1 := by
  rw [Sites.getSite]
  cases w.sites (sitesKey subdomain m) with
  | some i => exact hw
  | none =>
    have hload := h.loadSite (h.readS3 hw feed (subdomain ++ "-feed.xml")) lib m secret
      (w.readS3 feed (subdomain ++ "-feed.xml")).2
    dsimp only
    split <;> next heq => rw [heq] at hload; exact hload

theorem eraseSite (h : Stable subdomain I) (hw : I w) (m : Bool) (secretKey : String)
    (force : Bool) : I (w._eraseSite (sitesKey subdomain m) secretKey force).1 := by
  rw [_eraseSite]
  cases w.sites (sitesKey subdomain m) with
  | none => exact hw
  | some i =>
    dsimp only
    split
    · exact hw
    · exact h.erase w m hw

theorem resetSite (h : Stable subdomain I) (hw : I w) (secretKey : String) (force : Bool) :
    I (w._resetSite subdomain secretKey force).1 := by
  have hprod := h.eraseSite hw false secretKey force
  rw [show sitesKey subdomain false = subdomain from rfl] at hprod
  rw [_resetSite]
  split
  · next heq => rw [heq] at hprod; exact hprod
  · next heq => rw [heq] at hprod; exact h.eraseSite hprod true secretKey force

theorem reload (h : Stable subdomain I) (hw : I w) (lib : Xml.Libxml) (loaded m : Bool)
    (secret : Fetch) (rawxml : String) : I (w.reload lib loaded subdomain m secret rawxml).1 := by
  have hload := h.loadSite hw lib m secret rawxml
  rw [Sites.reload]
  split
  · split <;> next heq => rw [heq] at hload; exact hload
  · exact hw

theorem reloadSite (h : Stable subdomain I) (hw : I w) (lib : Xml.Libxml)
    (feed secret secretStaging : Fetch) :
    I (w.reloadSite lib subdomain feed secret secretStaging).1 := by
  have hreset := h.resetSite (h.readS3 hw feed (subdomain ++ "-feed.xml")) "" true
  rw [Sites.reloadSite]
  dsimp only
  split
  · next heq => rw [heq] at hreset; exact hreset
  · next w₁ heq =>
    rw [heq] at hreset
    have hprod := h.reload hreset lib (w.sites subdomain).isSome false secret
      (w.readS3 feed (subdomain ++ "-feed.xml")).2
    split
    · next heq => rw [heq] at hprod; exact hprod
    · next heq => rw [heq] at hprod; exact h.reload hprod lib _ true secretStaging _

end Stable

end VaeDb.Sites
