import VaeDb.Site.Load

/-! The secret keys of a site play no part in loading it.

    A Site is built from a feed and from the text of its `-secret` object. The keys are the pieces of
    that text; whether the feed loads, and how it fails, is settled by the feed alone. The keys that
    `validateSecretKey` accepts are exactly the pieces, empty ones included.

        "k1,k2\n"  ──split──▶  k1 │ k2 │ (empty) -/

namespace VaeDb
open Schemes Xml

variable {lib : Libxml} {keys : List String}

/-- The same site with other secret keys. -/
def Site.withKeys (keys : List String) (site : Site) : Site := { site with secretKeys := keys }

/-- Two computations that go on alike, over states that correspond. -/
theorem bind_map {α α' β β' : Type} {x : Result α} {x' : Result α'} {g : α → α'} {h : β → β'}
    {f : α → Result β} {f' : α' → Result β'} (hx : x' = x.map g)
    (hf : ∀ a, f' (g a) = (f a).map h) : (x' >>= f') = (x >>= f).map h := by
  subst hx
  cases x with
  | error e => rfl
  | ok a => exact hf a

/-- Two computations that start alike. -/
theorem bind_same {α β β' : Type} {x : Result α} {h : β → β'} {f : α → Result β}
    {f' : α → Result β'} (hf : ∀ a, f' a = (f a).map h) : (x >>= f') = (x >>= f).map h := by
  cases x with
  | error e => rfl
  | ok a => exact hf a

theorem structureFromStructureId_withKeys (site : Site) (N : ℤ) :
    (site.withKeys keys).structureFromStructureId lib N =
      (site.structureFromStructureId lib N).map fun (site, s) => (site.withKeys keys, s) := by
  have hstructures : (site.withKeys keys).structures = site.structures := rfl
  rw [Site.structureFromStructureId, Site.structureFromStructureId, hstructures]
  cases site.structures N with
  | some s => rfl
  | none =>
    refine bind_same fun query => bind_same fun node => ?_
    cases node with
    | attr value => rfl
    | node n => exact bind_same fun properties => bind_same fun s => rfl

theorem populateAttrs_withKeys (site : Site) (properties : Properties) :
    populateAttrs lib (site.withKeys keys) properties =
      (populateAttrs lib site properties).map fun (site, a) => (site.withKeys keys, a) := by
  refine bind_same fun a => ?_
  cases a with
  | none => rfl
  | some a =>
    dsimp only
    split
    · exact bind_map (structureFromStructureId_withKeys site _) fun _ => rfl
    · rfl

theorem removeNode_withKeys (site : Site) (n : NodeId) :
    (site.withKeys keys).removeNode n = (site.removeNode n).map (Site.withKeys keys) :=
  bind_same fun _ => bind_same fun _ => rfl

theorem enter_withKeys (site : Site) (n : NodeId) (a : Attrs) (s : Option VaeDbStructure) :
    (site.withKeys keys).enter n a s =
      (site.enter n a s).map fun (site, ctxt) => (site.withKeys keys, ctxt) :=
  bind_same fun _ => rfl

theorem keepOrKill_withKeys (site : Site) (n : NodeId) (ctxt : Option Context) :
    (site.withKeys keys).keepOrKill n ctxt = (site.keepOrKill n ctxt).map (Site.withKeys keys) := by
  cases ctxt with
  | none => exact removeNode_withKeys site n
  | some ctxt => rfl

mutual

theorem newContext_withKeys : ∀ (p : List ℕ) (t : Tree) (site : Site),
    newContext lib p t (site.withKeys keys) =
      (newContext lib p t site).map fun (site, ctxt) => (site.withKeys keys, ctxt)
  | p, .text _, site | p, .other _, site => rfl
  | p, .element name properties children, site => by
      rw [newContext, newContext]
      refine bind_map (populateAttrs_withKeys site properties) fun (site, r) => ?_
      rcases r with _ | ⟨a, s⟩
      · rfl
      · refine bind_map (g := Site.withKeys keys) ?_ fun site => ?_
        · split
          · rfl
          · exact newContexts_withKeys p 0 children site
        · exact bind_map (enter_withKeys site _ a s) fun _ => rfl

theorem newContexts_withKeys : ∀ (p : List ℕ) (i : ℕ) (ts : List Tree) (site : Site),
    newContexts lib p i ts (site.withKeys keys) =
      (newContexts lib p i ts site).map (Site.withKeys keys)
  | p, i, [], site => by
      rw [newContexts, newContexts]
      rfl
  | p, i, .text _ :: ts, site | p, i, .other _ :: ts, site => by
      rw [newContexts, newContexts]
      exact newContexts_withKeys p (i + 1) ts site
  | p, i, .element name properties children :: ts, site => by
      rw [newContexts, newContexts]
      refine bind_map (newContext_withKeys (i :: p) _ site) fun (site, ctxt) => ?_
      exact bind_map (keepOrKill_withKeys site _ ctxt) fun site =>
        newContexts_withKeys p (i + 1) ts site

end

theorem associate_withKeys (site : Site) (node associatedNode : NodeId) :
    (site.withKeys keys).associate node associatedNode =
      (site.associate node associatedNode).map (Site.withKeys keys) :=
  bind_same fun _ => bind_same fun _ => bind_same fun _ => bind_same fun _ => bind_same fun _ =>
    bind_same fun _ => bind_same fun _ => bind_same fun _ => bind_same fun _ => bind_same fun _ => rfl

theorem initializeAssociation_withKeys (site : Site) (node : NodeId) :
    (site.withKeys keys).initializeAssociation node =
      (site.initializeAssociation node).map (Site.withKeys keys) := by
  refine bind_same fun text => ?_
  have hnodes : (site.withKeys keys).nodes = site.nodes := rfl
  dsimp only
  rw [hnodes]
  cases if 0 < Cpp.atoi text then site.nodes (Cpp.atoi text) else none with
  | some associatedNode => exact associate_withKeys site node associatedNode
  | none => exact bind_map (removeNode_withKeys site node) fun _ => rfl

theorem initializeAssociations_withKeys : ∀ (ns : List NodeId) (site : Site),
    ns.foldlM Site.initializeAssociation (site.withKeys keys) =
      (ns.foldlM Site.initializeAssociation site).map (Site.withKeys keys)
  | [], site => rfl
  | n :: ns, site => by
      rw [List.foldlM_cons, List.foldlM_cons]
      exact bind_map (initializeAssociation_withKeys site n) fun site =>
        initializeAssociations_withKeys ns site

theorem loadContent_withKeys (doc : Document) (site : Site) (root : NodeId) :
    (site.withKeys keys).loadContent lib doc root =
      (site.loadContent lib doc root).map (Site.withKeys keys) := by
  cases root with
  | pointer k => rfl
  | parsed p => exact bind_same fun _ => newContexts_withKeys p 0 (doc.kids p) site

theorem loadXmlDoc_withKeys (site : Site) (rawxml : String) :
    (site.withKeys keys).loadXmlDoc lib rawxml =
      (site.loadXmlDoc lib rawxml).map (Site.withKeys keys) := by
  rw [Site.loadXmlDoc, Site.loadXmlDoc]
  cases lib.xmlReadMemory rawxml with
  | none => rfl
  | some doc =>
    refine bind_same fun query₁ => bind_same fun x => bind_same fun root => ?_
    refine bind_same fun query₂ => bind_same fun y => bind_same fun design => ?_
    have hcontent := @loadContent_withKeys lib keys doc { site with
      doc := doc.store, lists := .parsed, allocated := Tree.sizes doc + 1
      rootNode := some root, rootDesignNode := some design } root
    refine bind_map hcontent fun site => ?_
    refine bind_map (initializeAssociations_withKeys _ site) fun site => ?_
    exact bind_same fun query₃ => bind_same fun z => bind_same fun generation => rfl

/-- Whether a Site can be built from a feed, and how that fails, is settled by the feed alone. -/
theorem new_eq (cache : S3.CacheDir) (secret : S3.Fetch) (su : String) (stagingMode : Bool)
    (rawxml : String) :
    (Site.new lib cache secret su stagingMode rawxml).2 =
      ((Site.blank su stagingMode []).loadXmlDoc lib rawxml).map
        (Site.withKeys (Cpp.split [',', ';', '\n'] (secret.text cache (su ++ "-secret")))) := by
  rw [← loadXmlDoc_withKeys, ← S3.read_s3_snd]
  rfl

/-- A Site accepts the pieces of its `-secret` object. -/
theorem new_validateSecretKey {cache : S3.CacheDir} {secret : S3.Fetch} {su rawxml : String}
    {stagingMode : Bool} {site : Site}
    (h : (Site.new lib cache secret su stagingMode rawxml).2 = .ok site) (k : String) :
    site.validateSecretKey k = .ok () ↔
      k ∈ Cpp.split [',', ';', '\n'] (secret.text cache (su ++ "-secret")) := by
  rw [new_eq] at h
  cases hload : (Site.blank su stagingMode []).loadXmlDoc lib rawxml with
  | error e =>
    rw [hload] at h
    cases h
  | ok site₀ =>
    rw [hload] at h
    cases h
    rw [Site.validateSecretKey, Site.withKeys]
    split
    · next hk => simp [hk]
    · next hk => simp [hk]

end VaeDb
