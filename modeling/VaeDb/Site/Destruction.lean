import VaeDb.Schemes.Forests
import VaeDb.Site.PointerNodes

/-! `Site::~Site`: what a Site gives back.

    The tree of a loaded Site shares lists of children: a pointer node has those of the parent it
    stands for, an item those of the element it names. The destructor first takes back what is shared,
    from the pointer nodes (`nodesToClean`) and from the items (`nodesToClean2`), so that each node is in
    one list only; then it deletes the Contexts along the tree, and frees the tree.

        pointer ── children ──✂ list of its parent
        item ── children ──▶ text ── next ──✂ list of the element it names

    To delete a Context or to free a node or a list of attributes that is not there (any more) is
    undefined. -/

namespace VaeDb
open Schemes Xml

/-- `properties = NULL; _private = NULL`. -/
def Xml.Info.bare (i : Info) : Info := { i with properties := [], priv := none }

/-- The body of the first loop. -/
def cleanPointer (doc : Store) (node : NodeId) : Result Store := do
  let _ ← deref (doc node)
  pure (doc.modify node fun c => { c with children := none, last := none, data := c.data.bare })

/-- `if (children) children->next = NULL`. -/
def cutBehind (doc : Store) : Option NodeId → Result Store
  | none => pure doc
  | some first => do
    let _ ← deref (doc first)
    pure (doc.modify first fun c => { c with next := none })

/-- The body of the second loop. -/
def cleanItem (doc : Store) (node : NodeId) : Result Store := do
  let cell ← deref (doc node)
  let doc ← cutBehind doc cell.children
  pure (doc.modify node fun c => { c with last := cell.children, data := c.data.bare })

abbrev Contexts := NodeId → Option Context

/-- `delete (Context *)child->_private`, if there is one. -/
def deleteContext (contexts : Contexts) : Option NodeId → Result Contexts
  | none => pure contexts
  | some ptr => do
    let _ ← deref (contexts ptr)
    pure (Function.update contexts ptr none)

/-- `Site::freeContexts`, from a child on. -/
def freeContexts (doc : Store) : ℕ → Option NodeId → Contexts → Result Contexts
  | _, none, contexts => pure contexts
  | 0, some _, _ => throw .undefined
  | fuel + 1, some child, contexts => do
    let cell ← deref (doc child)
    if cell.data.type = .element then do
      let contexts ← deleteContext contexts cell.data.priv
      let contexts ← freeContexts doc fuel cell.children contexts
      freeContexts doc fuel cell.next contexts
    else freeContexts doc fuel cell.next contexts

/-- `Site::~Site`. `nodesToClean` and `nodesToClean2` are what loading has noted down. -/
def Site.destroy (site : Site) (nodesToClean nodesToClean2 : List NodeId) : Result Site := do
  let doc ← nodesToClean.foldlM cleanPointer site.doc
  let doc ← nodesToClean2.foldlM cleanItem doc
  let root ← deref site.rootNode
  let rootCell ← deref (doc root)
  let contexts ← freeContexts doc site.allocated rootCell.children site.contexts
  -- `xmlFreeDoc`
  let top ← deref (doc (.parsed []))
  let (doc, lists) ← deref (xmlFreeNodeList site.allocated doc site.lists top.children)
  pure { site with
    doc := doc.erase (.parsed []), lists := lists, contexts := contexts
    structures := fun _ => none, nodes := fun _ => none }

/-- `site->nodesToClean2.push_back(node)`: the item, if its text names an element. -/
def itemLinked (site : Site) (node : NodeId) : Option NodeId :=
  match site.firstText node with
  | .error _ => none
  | .ok text => (Staging.named site text).map fun _ => node

/-- The items that are linked in a run. -/
def itemsLinked (site : Site) (nodes : List NodeId) : List NodeId :=
  written Site.initializeAssociation itemLinked site nodes

/-! ### The two loops -/

/-- The store once the pointer nodes are cleaned. -/
def pointersCleaned (pointers : List NodeId) (doc : Store) : Store := fun n =>
  if n ∈ pointers then
    (doc n).map fun c => { c with children := none, last := none, data := c.data.bare }
  else doc n

theorem cleanPointers_eq {pointers : List NodeId} {doc : Store}
    (h : ∀ n ∈ pointers, ∃ c, doc n = some c) :
    pointers.foldlM cleanPointer doc = .ok (pointersCleaned pointers doc) := by
  induction pointers generalizing doc with
  | nil => rfl
  | cons n ns ih =>
    obtain ⟨⟨c, hc⟩, h⟩ := List.forall_mem_cons.mp h
    have hstep : cleanPointer doc n = .ok (doc.modify n fun c =>
        { c with children := none, last := none, data := c.data.bare }) := by
      rw [cleanPointer, hc]
      rfl
    rw [foldlM_cons_ok hstep, ih fun m hm => ?_]
    · congr 1
      funext m
      rw [pointersCleaned, pointersCleaned, Heap.modify]
      by_cases hm : m = n
      · subst hm
        by_cases hin : m ∈ ns
        · simp [hin, hc, Info.bare]
        · simp [hin]
      · simp [hm]
    · obtain ⟨d, hd⟩ := h m hm
      rw [Heap.modify, hd]
      split
      · exact ⟨_, rfl⟩
      · exact ⟨d, rfl⟩

/-- The first child. -/
def firstOf (doc : Store) (n : NodeId) : Option NodeId := (doc n).bind fun c => c.children

/-- The store once the items are cleaned. -/
def itemsCleaned (items : List NodeId) (doc : Store) : Store := fun n =>
  (doc n).map fun c => { c with
    next := if some n ∈ items.map (firstOf doc) then none else c.next
    last := if n ∈ items then c.children else c.last
    data := if n ∈ items then c.data.bare else c.data }

theorem cutBehind_eq {doc : Store} {l : Option NodeId} (h : ∀ f ∈ l, ∃ d, doc f = some d) :
    cutBehind doc l = .ok (doc.modifyLink l fun c => { c with next := none }) := by
  cases l with
  | none => rfl
  | some f =>
    obtain ⟨d, hd⟩ := h f rfl
    rw [cutBehind, hd]
    rfl

theorem cleanItem_eq {doc : Store} {a : NodeId} {c : Cell NodeId Info} (hc : doc a = some c)
    (hfirst : ∀ f ∈ c.children, ∃ d, doc f = some d) :
    cleanItem doc a = .ok (itemsCleaned [a] doc) := by
  have hof : firstOf doc a = c.children := by
    rw [firstOf, hc]
    rfl
  rw [cleanItem, hc]
  change (cutBehind doc c.children >>= _) = _
  rw [cutBehind_eq hfirst]
  change Except.ok _ = Except.ok _
  congr 1
  funext n
  simp only [itemsCleaned, List.map_cons, List.map_nil, hof, Heap.modify, Heap.modifyLink_apply,
    List.mem_singleton]
  by_cases hn : n = a
  · subst hn
    by_cases hf : c.children = some n <;> simp [hc, hf, eq_comm]
  · by_cases hf : c.children = some n
    · cases doc n <;> simp [hn, hf]
    · cases doc n <;> simp [hn, hf, Ne.symm hf]

theorem cleanItems_eq {items : List NodeId} {doc : Store} (h : ∀ a ∈ items, ∃ c, doc a = some c ∧
    ∀ f ∈ c.children, ∃ d, doc f = some d) :
    items.foldlM cleanItem doc = .ok (itemsCleaned items doc) := by
  induction items generalizing doc with
  | nil =>
    change Except.ok _ = Except.ok _
    congr 1
    funext n
    rw [itemsCleaned]
    cases doc n <;> simp
  | cons a items ih =>
    obtain ⟨⟨c, hc, hfirst⟩, h⟩ := List.forall_mem_cons.mp h
    have hlive : ∀ n d, doc n = some d → ∃ d', itemsCleaned [a] doc n = some d' ∧
        d'.children = d.children := by
      intro n d hd
      rw [itemsCleaned, hd]
      exact ⟨_, rfl, rfl⟩
    have hof : firstOf (itemsCleaned [a] doc) = firstOf doc := by
      funext n
      rw [firstOf, firstOf, itemsCleaned]
      cases doc n <;> rfl
    rw [foldlM_cons_ok (cleanItem_eq hc hfirst), ih fun b hb => ?_]
    · congr 1
      funext n
      rw [itemsCleaned, hof, itemsCleaned, itemsCleaned]
      cases doc n with
      | none => rfl
      | some d =>
        simp only [Option.map_some, Option.some.injEq, Cell.mk.injEq, List.map_cons, List.map_nil,
          List.mem_cons, List.not_mem_nil, or_false, true_and]
        refine ⟨?_, ?_, ?_⟩
        · by_cases hn : n = a <;> simp [hn]
        · by_cases hfa : some n = firstOf doc a <;> simp [hfa]
        · by_cases hn : n = a <;> simp [hn, Info.bare]
    · obtain ⟨d, hd, hfirst⟩ := h b hb
      obtain ⟨d', hd', hchildren⟩ := hlive b d hd
      refine ⟨d', hd', fun f hf => ?_⟩
      obtain ⟨e, he⟩ := hfirst f (hchildren ▸ hf)
      obtain ⟨e', he', -⟩ := hlive f e he
      exact ⟨e', he'⟩

/-! ### The Contexts along the tree -/

theorem deleteContext_eq {contexts : Contexts} {l : Option NodeId}
    (h : ∀ p ∈ l, ∃ ctxt, contexts p = some ctxt) :
    deleteContext contexts l = .ok fun m => if l = some m then none else contexts m := by
  cases l with
  | none =>
    change Except.ok _ = Except.ok _
    simp
  | some p =>
    obtain ⟨ctxt, hctxt⟩ := h p rfl
    rw [deleteContext, hctxt]
    change Except.ok _ = Except.ok _
    congr 1
    funext m
    rw [Function.update_apply]
    simp [eq_comm]

/-- The Context of an element, as far as the element has one, is its own. -/
def OwnContext (doc : Store) (contexts : Contexts) (n : NodeId) : Prop :=
  ∀ c, doc n = some c → (c.data.type ≠ .element → c.children = none) ∧
    (c.data.type = .element → ∀ p ∈ c.data.priv, p = n ∧ ∃ ctxt, contexts p = some ctxt)

/-- Going through a forest deletes the Contexts of its elements, and no other. -/
theorem freeContexts_eq {doc : Store} {l : Option NodeId} {ns : List NodeId}
    (h : Forest doc l ns) : ∀ {fuel : ℕ} {contexts : Contexts}, ns.Nodup → ns.length ≤ fuel →
      (∀ n ∈ ns, OwnContext doc contexts n) →
      ∃ contexts', freeContexts doc fuel l contexts = .ok contexts' ∧
        (∀ n ∈ ns, ∀ c, doc n = some c → c.data.type = .element → c.data.priv = some n →
          contexts' n = none) ∧
        ∀ m, (m ∉ ns → contexts' m = contexts m) ∧ (contexts m = none → contexts' m = none) := by
  induction h with
  | nil =>
    intro fuel contexts _ _ _
    refine ⟨contexts, ?_, by simp, fun m => ⟨fun _ => rfl, id⟩⟩
    cases fuel <;> rfl
  | @cons n c below rest hn hbelow _ ihBelow ihRest =>
    intro fuel contexts hnodup hfuel hown
    obtain ⟨hnot, hnodup⟩ := List.nodup_cons.mp hnodup
    obtain ⟨hnodupBelow, hnodupRest, hdisjoint⟩ := List.nodup_append.mp hnodup
    rw [List.length_cons, List.length_append] at hfuel
    obtain ⟨fuel, rfl⟩ : ∃ k, fuel = k + 1 := ⟨fuel - 1, by omega⟩
    obtain ⟨hownNode, hown⟩ := List.forall_mem_cons.mp hown
    obtain ⟨hleaf, hpriv⟩ := hownNode c hn
    -- what is done at other nodes leaves the Context of a node alone
    have hkeep : ∀ {m : NodeId} {contexts' : Contexts}, contexts' m = contexts m →
        OwnContext doc contexts m → OwnContext doc contexts' m := by
      intro m contexts' heq hm d hd
      refine ⟨(hm d hd).1, fun htype p hp => ?_⟩
      obtain ⟨rfl, ctxt, hctxt⟩ := (hm d hd).2 htype p hp
      exact ⟨rfl, ctxt, heq.trans hctxt⟩
    rw [freeContexts, hn]
    change ∃ contexts', (if c.data.type = .element then _ else _) = _ ∧ _
    by_cases htype : c.data.type = .element
    · rw [if_pos htype, deleteContext_eq fun p hp => (hpriv htype p hp).2]
      have hsame₀ : ∀ m, m ≠ n → (if c.data.priv = some m then none else contexts m) = contexts m := by
        intro m hm
        refine if_neg fun hp => ?_
        exact hm (hpriv htype m hp).1
      obtain ⟨contexts₁, hok₁, hgone₁, hkeep₁⟩ := @ihBelow fuel
        (fun m => if c.data.priv = some m then none else contexts m)
        hnodupBelow (show below.length ≤ fuel by omega) fun m hm => hkeep
          (hsame₀ m fun heq => hnot (List.mem_append_left _ (heq ▸ hm)))
          (hown m (List.mem_append_left _ hm))
      have hsame₁ : ∀ m ∈ rest, contexts₁ m = contexts m := by
        intro m hm
        rw [(hkeep₁ m).1 fun hm' => hdisjoint m hm' m hm rfl]
        exact hsame₀ m fun heq => hnot (List.mem_append_right _ (heq ▸ hm))
      obtain ⟨contexts₂, hok₂, hgone₂, hkeep₂⟩ := @ihRest fuel contexts₁ hnodupRest
        (show rest.length ≤ fuel by omega) fun m hm =>
          hkeep (hsame₁ m hm) (hown m (List.mem_append_right _ hm))
      refine ⟨contexts₂, ?_, fun m hm d hd hdtype hdpriv => ?_, fun m => ⟨fun hm => ?_, fun hm => ?_⟩⟩
      · rw [ok_bind, hok₁]
        exact hok₂
      · rcases List.mem_cons.mp hm with rfl | hm
        · cases hn.symm.trans hd
          exact (hkeep₂ m).2 ((hkeep₁ m).2 (if_pos hdpriv))
        · rcases List.mem_append.mp hm with hm | hm
          · exact (hkeep₂ m).2 (hgone₁ m hm d hd hdtype hdpriv)
          · exact hgone₂ m hm d hd hdtype hdpriv
      · rw [List.mem_cons, List.mem_append, not_or, not_or] at hm
        rw [(hkeep₂ m).1 hm.2.2, (hkeep₁ m).1 hm.2.1, hsame₀ m hm.1]
      · refine (hkeep₂ m).2 ((hkeep₁ m).2 ?_)
        split
        · rfl
        · exact hm
    · rw [if_neg htype]
      -- a node that is no element has nothing below it
      obtain rfl : below = [] := by
        rw [hleaf htype] at hbelow
        cases hbelow
        rfl
      obtain ⟨contexts₂, hok₂, hgone₂, hkeep₂⟩ := @ihRest fuel contexts hnodupRest
        (show rest.length ≤ fuel by omega) fun m hm => hown m hm
      refine ⟨contexts₂, hok₂, fun m hm d hd hdtype hdpriv => ?_, fun m => ⟨fun hm => ?_, (hkeep₂ m).2⟩⟩
      · rcases List.mem_cons.mp hm with rfl | hm
        · cases hn.symm.trans hd
          exact absurd hdtype htype
        · exact hgone₂ m hm d hd hdtype hdpriv
      · exact (hkeep₂ m).1 fun hm' => hm (List.mem_cons_of_mem _ hm')

end VaeDb
