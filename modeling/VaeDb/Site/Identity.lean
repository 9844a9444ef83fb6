import VaeDb.Site.Load

/-! A Site stays what it was made for: loading keeps its subdomain and its mode.

    `Ends` is the postcondition of a computation that may fail: what holds of the result if there is
    one. `Stable` is a property of Sites that no single step of loading takes away; the recursion of
    the constructors and the loop over the associations then keep it, too. -/

namespace VaeDb
open Schemes Xml

/-- If the computation returns, its result is as `P` says. -/
def Ends {α : Type} (P : α → Prop) (x : Result α) : Prop := ∀ a, x = .ok a → P a

namespace Ends

variable {α β : Type} {P : α → Prop} {Q : β → Prop} {x : Result α} {f : α → Result β}

theorem pure {a : α} (h : P a) : Ends P (pure a) := by
  intro b hb
  exact pure_eq_ok.mp hb ▸ h

theorem throw (e : Failure) : Ends P (throw e) := fun _ h => absurd h throw_ne_ok

/-- What goes on from a result of the kind that the first part ends with. -/
theorem bind (hx : Ends P x) (hf : ∀ a, P a → Ends Q (f a)) : Ends Q (x >>= f) := by
  intro b hb
  obtain ⟨a, ha, hfa⟩ := bind_eq_ok.mp hb
  exact hf a (hx a ha) b hfa

/-- What goes on whatever the first part ends with. -/
theorem after (hf : ∀ a, Ends Q (f a)) : Ends Q (x >>= f) := by
  intro b hb
  obtain ⟨a, -, hfa⟩ := bind_eq_ok.mp hb
  exact hf a b hfa

theorem foldlM {γ : Type} {g : α → γ → Result α} (hg : ∀ a c, P a → Ends P (g a c)) :
    ∀ (cs : List γ) (a : α), P a → Ends P (cs.foldlM g a)
  | [], _, ha => pure ha
  | c :: cs, a, ha => by
    rw [List.foldlM_cons]
    exact bind (hg a c ha) fun a' ha' => foldlM hg cs a' ha'

end Ends

/-! ### What loading keeps -/

/-- A property that no step of loading takes away. -/
structure Stable (P : Site → Prop) : Prop where
  learn : ∀ {site : Site} S, P site → P { site with structures := S }
  defer : ∀ {site : Site} n, P site → P (site.defer n)
  remove : ∀ {site : Site} n, P site → Ends P (site.removeNode n)
  enter : ∀ {site : Site} n a s, P site → Ends (fun r => P r.1) (site.enter n a s)
  setPrivate : ∀ {site : Site} n ctxt, P site → P (site.setPrivate n ctxt)
  associate : ∀ {site : Site} n m, P site → Ends P (site.associate n m)
  forget : ∀ {site : Site} contexts, P site → P { site with contexts := contexts }
  finish : ∀ {site : Site} generation, P site →
    P { site with associationsToInitialize := [], generation := generation }

namespace Stable

variable {P : Site → Prop} {lib : Libxml}

theorem structureFromStructureId (hP : Stable P) {site : Site} (h : P site) (N : ℤ) :
    Ends (fun r => P r.1) (site.structureFromStructureId lib N) := by
  rw [Site.structureFromStructureId]
  split
  · exact .pure h
  · refine .after fun query => .after fun x => ?_
    cases x with
    | attr value => exact .throw _
    | node n => exact .after fun cell => .after fun s => .pure (hP.learn _ h)

theorem populateAttrs (hP : Stable P) {site : Site} (h : P site) (properties : Properties) :
    Ends (fun r => P r.1) (populateAttrs lib site properties) := by
  refine .after fun a => ?_
  cases a with
  | none => exact .pure h
  | some a =>
    dsimp only
    split
    · exact .bind (hP.structureFromStructureId h _) fun _ h' => .pure h'
    · exact .pure h

theorem keepOrKill (hP : Stable P) {site : Site} (h : P site) (n : NodeId) (ctxt : Option Context) :
    Ends P (site.keepOrKill n ctxt) := by
  cases ctxt with
  | none => exact hP.remove n h
  | some ctxt => exact .pure (hP.setPrivate n ctxt h)

mutual

theorem newContext (hP : Stable P) : ∀ (p : List ℕ) (t : Tree) {site : Site}, P site →
    Ends (fun r => P r.1) (newContext lib p t site)
  | p, .text _, site, _ | p, .other _, site, _ => Ends.throw _
  | p, .element name properties children, site, h => by
      rw [VaeDb.newContext]
      refine .bind (hP.populateAttrs h properties) fun (site, r) h => ?_
      rcases r with _ | ⟨a, s⟩
      · exact .pure h
      · refine .bind (P := P) ?_ fun site h => ?_
        · split
          · exact .pure (hP.defer _ h)
          · exact newContexts hP p 0 children h
        · exact .bind (hP.enter _ a s h) fun _ h => .pure h

theorem newContexts (hP : Stable P) : ∀ (p : List ℕ) (i : ℕ) (ts : List Tree) {site : Site},
    P site → Ends P (newContexts lib p i ts site)
  | p, i, [], site, h => by
      rw [VaeDb.newContexts]
      exact .pure h
  | p, i, .text _ :: ts, site, h | p, i, .other _ :: ts, site, h => by
      rw [VaeDb.newContexts]
      exact newContexts hP p (i + 1) ts h
  | p, i, .element name properties children :: ts, site, h => by
      rw [VaeDb.newContexts]
      refine .bind (newContext hP (i :: p) _ h) fun (site, ctxt) h => ?_
      exact .bind (hP.keepOrKill h _ ctxt) fun site h => newContexts hP p (i + 1) ts h

end

theorem initializeAssociation (hP : Stable P) {site : Site} (h : P site) (node : NodeId) :
    Ends P (site.initializeAssociation node) := by
  refine .after fun text => ?_
  dsimp only
  split
  · exact hP.associate node _ h
  · exact .bind (hP.remove node h) fun _ h => .pure (hP.forget _ h)

theorem loadContent (hP : Stable P) {site : Site} (h : P site) (doc : Document) (root : NodeId) :
    Ends P (site.loadContent lib doc root) := by
  cases root with
  | pointer k => exact .throw _
  | parsed p => exact .after fun _ => hP.newContexts p 0 (doc.kids p) h

/-- What holds of the parsed document holds of the loaded Site. -/
theorem loadXmlDoc (hP : Stable P) {site : Site} {rawxml : String}
    (h : ∀ doc root design, lib.xmlReadMemory rawxml = some doc → P { site with
      doc := doc.store, lists := .parsed, allocated := Tree.sizes doc + 1
      rootNode := root, rootDesignNode := design }) :
    Ends P (site.loadXmlDoc lib rawxml) := by
  rw [Site.loadXmlDoc]
  split
  · exact .throw _
  · next doc hdoc =>
    refine .after fun _ => .after fun _ => .after fun root => .after fun _ => .after fun _ =>
      .after fun design => ?_
    refine .bind (P := P) (hP.loadContent (h doc _ _ hdoc) _ root) fun site h => ?_
    refine .bind (.foldlM (fun site n h => hP.initializeAssociation h n) _ site h) fun site h => ?_
    refine .after fun _ => .after fun _ => .after fun text => ?_
    have hdone := hP.finish (Cpp.atoi text) h
    exact .pure hdone

end Stable

/-! ### Subdomain and mode -/

/-- The Site of a subdomain in a mode. -/
def Site.Is (subdomain : String) (stagingMode : Bool) (site : Site) : Prop :=
  site.subdomain = subdomain ∧ site.stagingMode = stagingMode

variable {lib : Libxml} {su : String} {m : Bool}

theorem stable_is : Stable (Site.Is su m) where
  learn _ h := h
  defer _ h := h
  remove _ h := .after fun _ => .after fun _ => .pure h
  enter _ _ _ h := .after fun _ => .pure h
  setPrivate _ _ h := h
  associate _ _ h := .after fun _ => .after fun _ => .after fun _ => .after fun _ => .after fun _ =>
    .after fun _ => .after fun _ => .after fun _ => .after fun _ => .after fun _ => .pure h
  forget _ h := h
  finish _ h := h

theorem loadXmlDoc_is {site : Site} (h : site.Is su m) (rawxml : String) :
    Ends (Site.Is su m) (site.loadXmlDoc lib rawxml) :=
  stable_is.loadXmlDoc fun _ _ _ _ => h

/-- A new Site is that of the subdomain and the mode it was built for. -/
theorem new_is (cache : S3.CacheDir) (secret : S3.Fetch) (rawxml : String) :
    Ends (Site.Is su m) (Site.new lib cache secret su m rawxml).2 :=
  loadXmlDoc_is ⟨rfl, rfl⟩ rawxml

end VaeDb
