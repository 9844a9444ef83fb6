import VaeDb.Site.Modes
import VaeDb.Site.Staging

/-! The indexes of a loaded site, as the walk fills them.

    An element is entered into `nodes` and `permalinks` by its constructor, before associations are
    resolved, and the last one entered under a key stays. The feed alone says which that is.

        <page id="1" permalink="a"/> <page id="1" permalink="b"/>
        nodes 1 ──▶ second page      permalinks a ──▶ first page, b ──▶ second page            -/

namespace VaeDb.Indexes
open Schemes Xml Walk Staging

variable {doc : Document} {S : Structures} {r : List ℕ}

/-! ### What the walk enters -/

/-- The index by id after a move. -/
def enterNode (doc : Document) (nodes : ℤ → Option NodeId) : Move → ℤ → Option NodeId
  | .enter c => match attrsAt doc c with
    | some a => Function.update nodes a.id (some (.parsed c))
    | none => nodes
  | _ => nodes

/-- The index by permalink after a move. -/
def enterPermalink (doc : Document) (permalinks : String → Option NodeId) :
    Move → String → Option NodeId
  | .enter c => match (attrsAt doc c).bind Attrs.permalink with
    | some permalink => Function.update permalinks permalink (some (.parsed c))
    | none => permalinks
  | _ => permalinks

/-- The element that an id leads to: the last one that is entered with it. -/
def feedNodes (doc : Document) (S : Structures) (r : List ℕ) : ℤ → Option NodeId :=
  (walkKids S r 0 (doc.kids r)).foldl (enterNode doc) fun _ => none

/-- The element that a permalink leads to. -/
def feedPermalinks (doc : Document) (S : Structures) (r : List ℕ) : String → Option NodeId :=
  (walkKids S r 0 (doc.kids r)).foldl (enterPermalink doc) fun _ => none

theorem step_index {site site' : Site} {m : Move} (h : Step doc site m site') :
    site'.nodes = enterNode doc site.nodes m ∧
      site'.permalinks = enterPermalink doc site.permalinks m := by
  cases h with
  | visit _ => exact ⟨rfl, rfl⟩
  | defer => exact ⟨rfl, rfl⟩
  | @enter _ p a s ctxt ha henter =>
    rw [Site.enter] at henter
    obtain ⟨data, -, hentered⟩ := bind_eq_ok.mp henter
    cases hentered
    rw [enterNode, enterPermalink, ha]
    refine ⟨rfl, ?_⟩
    rw [Option.bind_some]
    cases hperm : a.permalink <;> rfl
  | kill hremove =>
    obtain ⟨σ, lists, -, -, rfl⟩ := removeNode_eq_ok hremove
    exact ⟨rfl, rfl⟩

theorem trace_index {site site' : Site} {ms : List Move} (h : Trace (Step doc) site ms site') :
    site'.nodes = ms.foldl (enterNode doc) site.nodes ∧
      site'.permalinks = ms.foldl (enterPermalink doc) site.permalinks := by
  induction h with
  | nil => exact ⟨rfl, rfl⟩
  | cons hstep _ ih =>
    obtain ⟨hnodes, hpermalinks⟩ := step_index hstep
    rw [List.foldl_cons, List.foldl_cons, ← hnodes, ← hpermalinks]
    exact ih

/-! ### Association items -/

/-- The text of the association item is the id of an element of the site. -/
def NamesKnown (doc : Document) (S : Structures) (r a : List ℕ) : Prop :=
  ∃ content n, doc.at? (0 :: a) = some (.text content) ∧ 0 < Cpp.atoi content ∧
    feedNodes doc S r (Cpp.atoi content) = some n

/-- An item that starts with a text is read as that text. -/
theorem firstText_of_text {site : Site} {a : List ℕ} {text content : String}
    (hintact : Intact doc site.doc a) (h : site.firstText (.parsed a) = .ok text)
    (hat : doc.at? (0 :: a) = some (.text content)) : text = content := by
  rw [Site.firstText] at h
  obtain ⟨cell, hcell, h₁⟩ := bind_eq_ok.mp h
  rw [deref_eq_ok] at hcell
  rw [hintact.children cell hcell, kidIds_head hat] at h₁
  obtain ⟨child, hchild, h₂⟩ := bind_eq_ok.mp h₁
  rw [deref_eq_ok, hintact.below _ (List.suffix_cons _ _) (by simp), Document.store, hat,
    Option.some.injEq] at hchild
  rw [← hchild] at h₂
  exact (pure_eq_ok.mp h₂).symm

/-! ### Both modes -/

/-- The feed as a site in the given mode sees it: a staging site takes no notice of staging marks. -/
def seenBy (stagingMode : Bool) (doc : Document) : Document :=
  if stagingMode then doc.unstaged else doc

/-- A staging site, seen as a production site of the feed without its marks. -/
theorem loadXmlDoc_staging {lib : Libxml} {su rawxml : String} {keys : List String} {site : Site}
    (hload : (Site.blank su true keys).loadXmlDoc lib rawxml = .ok site) :
    (Site.blank su false keys).loadXmlDoc lib.unstaged rawxml = .ok site.unstaged := by
  have hblank : (Site.blank su true keys).unstaged = Site.blank su false keys := rfl
  have halike : Alike Seen ((Site.blank su true keys).loadXmlDoc lib rawxml)
      ((Site.blank su true keys).unstaged.loadXmlDoc lib.unstaged rawxml) :=
    loadXmlDoc_unstaged ⟨rfl, rfl⟩ rawxml
  rw [hload, hblank] at halike
  obtain ⟨site', hload', -, rfl⟩ := halike.right
  exact hload'

end VaeDb.Indexes
