import VaeDb.Site.Indexes
import VaeDb.Site.Joins

/-! Which association items lead to an element, by the feed alone.

    An item resolves if its text is the id of an ordinary element, or of an item that comes before it
    and resolves. Any other item goes wrong when the associations are dealt with, in whatever state
    the tree is by then: one that names nothing is taken out, one that names itself or an item that
    comes after it takes over a Context that is deleted at the turn of the other.

        link 4 "1" ──▶ page 1        link 6 "4" ──▶ link 4        link 8 "8" ──▶ ✂             -/

namespace VaeDb.Indexes
open Schemes Xml Walk Staging

variable {doc : Document} {S : Structures} {r : List ℕ} {site site' : Site} {a b m : List ℕ}
  {pend done : List (List ℕ)}

/-- The association items, in the order they are dealt with. -/
def items (doc : Document) (S : Structures) (r : List ℕ) : List (List ℕ) :=
  deferred (walkKids S r 0 (doc.kids r))

/-- The text of the item `a` is an id that leads to `m`. -/
def Names (doc : Document) (S : Structures) (r a m : List ℕ) : Prop :=
  ∃ content, doc.at? (0 :: a) = some (.text content) ∧ 0 < Cpp.atoi content ∧
    feedNodes doc S r (Cpp.atoi content) = some (.parsed m)

/-- The item `b` is dealt with before the item `a`. -/
def Before (doc : Document) (S : Structures) (r b a : List ℕ) : Prop :=
  ∃ done pend, items doc S r = done ++ a :: pend ∧ b ∈ done

/-- From the item one comes to an ordinary element, over items each before the last. -/
inductive Resolves (doc : Document) (S : Structures) (r : List ℕ) : List ℕ → Prop
  | ordinary {a m : List ℕ} : Names doc S r a m → Walked doc S r m → Resolves doc S r a
  | item {a b : List ℕ} : Names doc S r a b → Before doc S r b a → Resolves doc S r b →
      Resolves doc S r a

theorem mem_items : a ∈ items doc S r ↔ Item doc S r a := by
  constructor
  · intro ha
    exact placed_walkKids (S := S) (.root (r := r)) (@kidsFrom_kids doc r) _ (mem_deferred.mp ha)
  · rintro ⟨i, p, name, ps, children, rfl, hp, hat, hstaged, hassoc⟩
    refine mem_deferred.mpr (walkNode_subset hp hat ?_)
    rw [walkNode, if_neg hstaged, if_pos hassoc]
    simp

theorem Names.unique {m' : List ℕ} (h : Names doc S r a m) (h' : Names doc S r a m') : m = m' := by
  obtain ⟨content, hat, -, hm⟩ := h
  obtain ⟨content', hat', -, hm'⟩ := h'
  rw [hat, Option.some.injEq, Tree.text.injEq] at hat'
  rw [hat', hm', Option.some.injEq, NodeId.parsed.injEq] at hm
  exact hm.symm

/-- An item at its turn, apart from the ones before and after it. -/
structure Turn (doc : Document) (S : Structures) (r : List ℕ) (done : List (List ℕ)) (a : List ℕ)
    (pend : List (List ℕ)) : Prop where
  items : items doc S r = done ++ a :: pend
  notDone : a ∉ done
  notPend : a ∉ pend

theorem nodup_items {l : List (List ℕ)} (h : items doc S r = l) : l.Nodup :=
  h ▸ (deferred_walkKids _ r 0).1

theorem turn (h : items doc S r = done ++ a :: pend) : Turn doc S r done a pend := by
  have hnodup := nodup_items h
  rw [List.nodup_middle, List.nodup_cons, List.mem_append, not_or] at hnodup
  exact ⟨h, hnodup.1.1, hnodup.1.2⟩

namespace Turn

theorem item (h : Turn doc S r done a pend) : Item doc S r a := mem_items.mp (by simp [h.items])

theorem done_item (h : Turn doc S r done a pend) (hb : b ∈ done) : Item doc S r b :=
  mem_items.mp (by simp [h.items, hb])

theorem pend_item (h : Turn doc S r done a pend) (hb : b ∈ pend) : Item doc S r b :=
  mem_items.mp (by simp [h.items, hb])

theorem done_ne (h : Turn doc S r done a pend) (hb : b ∈ done) : b ≠ a := by
  rintro rfl
  exact h.notDone hb

theorem pend_ne (h : Turn doc S r done a pend) (hb : b ∈ pend) : b ≠ a := by
  rintro rfl
  exact h.notPend hb

theorem apart (h : Turn doc S r done a pend) (hb : b ∈ done) : b ∉ pend := fun hpend =>
  List.disjoint_of_nodup_append (nodup_items h.items) hb (List.mem_cons_of_mem _ hpend)

/-- Another item was dealt with or is to come. -/
theorem others (h : Turn doc S r done a pend) (hb : Item doc S r b) (hba : b ≠ a) :
    b ∈ done ∨ b ∈ pend := by
  have hmem := mem_items.mpr hb
  rw [h.items, List.mem_append, List.mem_cons] at hmem
  exact hmem.imp id fun hmem => hmem.resolve_left hba

end Turn

/-- What is dealt with before an item at its turn. -/
theorem Before.mem (h : Before doc S r b a) (hturn : Turn doc S r done a pend) : b ∈ done := by
  obtain ⟨done', pend', hitems, hb⟩ := h
  obtain ⟨rfl, -⟩ :=
    (List.append_cons_inj_of_notMem hturn.notDone hturn.notPend).mp (hturn.items.symm.trans hitems)
  exact hb

theorem Resolves.names (h : Resolves doc S r a) : ∃ t, Names doc S r a t := by
  cases h with
  | ordinary hnames _ => exact ⟨_, hnames⟩
  | item hnames _ _ => exact ⟨_, hnames⟩

/-- An item that resolves names a walked node, or an item that was dealt with and resolves. -/
theorem Turn.resolves (h : Turn doc S r done a pend) (hres : Resolves doc S r a)
    (hnames : Names doc S r a m) : Walked doc S r m ∨ m ∈ done ∧ Resolves doc S r m := by
  cases hres with
  | ordinary hnames' hwalked => exact .inl (hnames.unique hnames' ▸ hwalked)
  | item hnames' hbefore hres =>
    obtain rfl := hnames.unique hnames'
    exact .inr ⟨hbefore.mem h, hres⟩

/-! ### The texts of items -/

/-- While associations are dealt with, whatever is freed: the parent link of an item is as parsed or
    gone, its first child is as parsed unless it had none, and its text is as parsed. -/
structure Worded (doc : Document) (S : Structures) (r : List ℕ) (site : Site) : Prop where
  nodes : site.nodes = feedNodes doc S r
  indexed : Indexed doc S r site
  ctxs : PointerNodesIn (fun n => ∃ k, n = .pointer k) site.contexts
  parent : ∀ i p cell, Item doc S r (i :: p) → site.doc (.parsed (i :: p)) = some cell →
    ∀ m ∈ cell.parent, m = .parsed p
  first : ∀ a cell, Item doc S r a → site.doc (.parsed a) = some cell →
    cell.children = (doc.kidIds a).head? ∨
      (doc.kidIds a).head? = none ∧ ∃ k, cell.children = some (.pointer k)
  text : ∀ a cell, Item doc S r a → site.doc (.parsed (0 :: a)) = some cell →
    ∃ c, doc.store (.parsed (0 :: a)) = some c ∧ cell.data = c.data
  pointer : ∀ k cell, site.doc (.pointer k) = some cell → cell.data.content = ""

/-- An item whose text counts is read as it was parsed. -/
theorem Worded.at? (h : Worded doc S r site) (ha : Item doc S r a) {text : String}
    (htext : site.firstText (.parsed a) = .ok text) (hpos : 0 < Cpp.atoi text) :
    doc.at? (0 :: a) = some (.text text) := by
  have hne : text ≠ "" := by
    rintro rfl
    rw [atoi_empty] at hpos
    omega
  rw [Site.firstText] at htext
  obtain ⟨cell, hcell, h₁⟩ := bind_eq_ok.mp htext
  rw [deref_eq_ok] at hcell
  cases hchildren : cell.children with
  | none =>
    rw [hchildren] at h₁
    exact absurd (pure_eq_ok.mp h₁).symm hne
  | some child =>
    rw [hchildren] at h₁
    obtain ⟨childCell, hchild, h₂⟩ := bind_eq_ok.mp h₁
    rw [deref_eq_ok] at hchild
    rw [pure_eq_ok] at h₂
    rcases h.first a cell ha hcell with hfirst | ⟨-, k, hk⟩
    · obtain rfl : child = .parsed (0 :: a) := by
        rw [hchildren] at hfirst
        obtain ⟨i, t, ht, rfl⟩ := Document.mem_kidIds.mp (List.mem_of_mem_head? hfirst.symm)
        obtain ⟨u, hu⟩ : ∃ u, doc.at? (0 :: a) = some u := by
          rw [Document.at?_eq_some_iff]
          have := Document.at?_eq_some_iff.mp ⟨t, ht⟩
          omega
        rw [kidIds_head hu] at hfirst
        cases hfirst
        rfl
      obtain ⟨c, hc, hdata⟩ := h.text a childCell ha hchild
      rw [hdata] at h₂
      rw [Document.store] at hc
      cases hat : doc.at? (0 :: a) with
      | none =>
        rw [hat] at hc
        cases hc
      | some t =>
        rw [hat] at hc
        cases hc
        cases t with
        | element name ps children => exact absurd h₂.symm hne
        | text content => exact congrArg (fun text => some (Tree.text text)) h₂
        | other content => exact absurd h₂.symm hne
    · rw [hchildren, Option.some.injEq] at hk
      rw [hk] at hchild
      rw [h.pointer k childCell hchild, ite_self] at h₂
      exact absurd h₂.symm hne

/-- An item that starts with a text is read as that text. -/
theorem Worded.firstText_eq (h : Worded doc S r site) (ha : Item doc S r a) {text content : String}
    (htext : site.firstText (.parsed a) = .ok text) (hat : doc.at? (0 :: a) = some (.text content)) :
    text = content := by
  rw [Site.firstText] at htext
  obtain ⟨cell, hcell, h₁⟩ := bind_eq_ok.mp htext
  rw [deref_eq_ok] at hcell
  have hhead := kidIds_head hat
  obtain hfirst | ⟨hnone, -⟩ := h.first a cell ha hcell
  · rw [hfirst, hhead] at h₁
    obtain ⟨child, hchild, h₂⟩ := bind_eq_ok.mp h₁
    rw [deref_eq_ok] at hchild
    obtain ⟨c, hc, hdata⟩ := h.text a child ha hchild
    rw [Document.store, hat, Option.some.injEq] at hc
    rw [hdata, ← hc] at h₂
    exact (pure_eq_ok.mp h₂).symm
  · rw [hhead] at hnone
    cases hnone

/-- What an item can do at its turn: it is associated with the node it names, or it names nothing and
    is taken out. -/
theorem Worded.cases (h : Worded doc S r site) (ha : Item doc S r a)
    (hok : site.initializeAssociation (.parsed a) = .ok site') :
    (∃ t, Names doc S r a t ∧ ∃ s : Stages site (.parsed a) (.parsed t), s.Sound ∧
      site' = s.result) ∨
    (¬ ∃ t, Names doc S r a t) ∧ ∃ site₁, site.removeNode (.parsed a) = .ok site₁ ∧
      site' = { site₁ with contexts := Function.update site₁.contexts (.parsed a) none } := by
  obtain ⟨text, htext, ⟨n, hpos, hn, hassociate⟩ | ⟨hnone, site₁, hremove, rfl⟩⟩ :=
    initializeAssociation_cases hok
  · obtain ⟨t, -, rfl, -⟩ := h.indexed.nodes _ n hn
    obtain ⟨s, hs, rfl⟩ := associate_eq_ok hassociate
    exact .inl ⟨t, ⟨text, h.at? ha htext hpos, hpos, by rw [← h.nodes, hn]⟩, s, hs, rfl⟩
  · refine .inr ⟨?_, site₁, hremove, rfl⟩
    rintro ⟨t, content, hat, hpos, hfeed⟩
    rw [h.firstText_eq ha htext hat, h.nodes] at hnone
    rw [hnone hpos] at hfeed
    cases hfeed

theorem item_not_walked (ha : Item doc S r a) : ¬ Walked doc S r a :=
  not_walked_of_association (ElementWith.child ha) ha.associationAt.2

/-- The text of an item is no item. -/
theorem text_not_item (ha : Item doc S r a) : ¬ Item doc S r (0 :: a) := fun h0 =>
  child_not_inside (ElementWith.child h0) a (ElementWith.child ha) (item_not_walked ha)
    (inside_cons List.suffix_rfl)

theorem Worded.step (h : Worded doc S r site) (ha : Item doc S r a)
    (hok : site.initializeAssociation (.parsed a) = .ok site') : Worded doc S r site' := by
  have hsame := initializeAssociation_sameIndex hok
  obtain ⟨hturned, hctxs⟩ : Turned a site.doc site'.doc ∧
      PointerNodesIn (fun n => ∃ k, n = .pointer k) site'.contexts := by
    rcases h.cases ha hok with ⟨t, -, s, hs, rfl⟩ | ⟨-, site₁, hremove, rfl⟩
    · exact ⟨hs.turned h.ctxs, PointerNodesIn.drop (PointerNodesIn.stages h.ctxs hs ⟨_, rfl⟩) _⟩
    · refine ⟨(turned_remove hremove : Turned a site.doc site₁.doc), PointerNodesIn.drop ?_ _⟩
      obtain ⟨σ, lists, -, -, rfl⟩ := removeNode_eq_ok hremove
      exact h.ctxs
  refine ⟨hsame.1.trans h.nodes, h.indexed.congr hsame, hctxs, fun i p cell' hb hcell' m hm => ?_,
    fun b cell' hb hcell' => ?_, fun b cell' hb hcell' => ?_, fun k cell' hcell' => ?_⟩
  · obtain ⟨cell, hcell, -, hparent, -⟩ := hturned.parsed _ cell' hcell'
    exact h.parent i p cell hb hcell m (hparent m hm)
  · obtain ⟨cell, hcell, -, -, hchildren⟩ := hturned.parsed _ cell' hcell'
    rcases hchildren with hchildren | ⟨hnone, hpointer⟩ | ⟨item, hitem, hparent⟩
    · rw [hchildren]
      exact h.first b cell hb hcell
    · rcases h.first b cell hb hcell with hfirst | ⟨-, k, hk⟩
      · exact .inr ⟨hfirst.symm.trans hnone, hpointer⟩
      · rw [hnone] at hk
        cases hk
    · -- the parent of an item is walked
      obtain ⟨i, p, t, rfl, hp, -⟩ := ElementWith.child ha
      cases h.parent i p item ha hitem _ hparent
      exact absurd hp (item_not_walked hb)
  · obtain ⟨cell, hcell, hdata, -⟩ := hturned.parsed _ cell' hcell'
    obtain ⟨c, hc, hsame⟩ := h.text b cell hb hcell
    refine ⟨c, hc, (hdata ?_).trans hsame⟩
    rintro rfl
    exact text_not_item hb ha
  · rcases hturned.pointer k cell' hcell' with hempty | ⟨cell, hcell, hdata⟩
    · exact hempty
    · rw [hdata]
      exact h.pointer k cell hcell

/-! ### What becomes of an item in any run -/

/-- The items in `done` have lost their Contexts, and each has the Context of what it names, if it is
    left; the others have their own. -/
structure Fated (doc : Document) (S : Structures) (r : List ℕ) (done : List (List ℕ)) (site : Site) :
    Prop where
  dead : ∀ b ∈ done, site.contexts (.parsed b) = none
  own : ∀ b, Item doc S r b → b ∉ done → ∀ cell, site.doc (.parsed b) = some cell →
    cell.data.priv = some (.parsed b)
  fate : ∀ b ∈ done, ∀ cell, site.doc (.parsed b) = some cell → ∃ m, Names doc S r b m ∧
    (Walked doc S r m ∨ Before doc S r m b ∨
      ∃ c, Item doc S r c ∧ cell.data.priv = some (.parsed c))

/-- An element that is entered is walked or an item. -/
theorem Names.walked_or_item (h : Names doc S r a m) (hw : Worded doc S r site) :
    Walked doc S r m ∨ Item doc S r m := by
  obtain ⟨content, -, -, hfeed⟩ := h
  rw [← hw.nodes] at hfeed
  obtain ⟨c, attrs, hc, helement, -⟩ := hw.indexed.nodes _ _ hfeed
  cases hc
  exact or_iff_not_imp_right.mpr (walked_of_not_item helement)

theorem Fated.step (h : Fated doc S r done site) (hw : Worded doc S r site)
    (hitems : items doc S r = done ++ a :: pend)
    (hok : site.initializeAssociation (.parsed a) = .ok site') :
    Fated doc S r (done ++ [a]) site' := by
  have hturn := turn hitems
  have ha := hturn.item
  -- the cells of the other items keep their data, and no Context is made
  obtain ⟨hturned, hgone, hnone⟩ : Turned a site.doc site'.doc ∧
      site'.contexts (.parsed a) = none ∧
      ∀ n, site.contexts n = none → site'.contexts n = none := by
    rcases hw.cases ha hok with ⟨t, -, s, hs, rfl⟩ | ⟨-, site₁, hremove, rfl⟩
    · refine ⟨hs.turned hw.ctxs, Function.update_self .., fun n hn => ?_⟩
      dsimp only [Stages.result]
      rw [Function.update_apply]
      split
      · rfl
      · rw [Stages.contexts, Function.update_of_ne, hn]
        rintro rfl
        rw [hs.parentContext] at hn
        cases hn
    · refine ⟨(turned_remove hremove : Turned a site.doc site₁.doc), Function.update_self ..,
        fun n hn => ?_⟩
      obtain ⟨σ, lists, -, -, rfl⟩ := removeNode_eq_ok hremove
      dsimp only
      rw [Function.update_apply, hn, ite_self]
  have hback : ∀ b, b ≠ a → ∀ cell', site'.doc (.parsed b) = some cell' →
      ∃ cell, site.doc (.parsed b) = some cell ∧ cell'.data = cell.data := by
    intro b hba cell' hcell'
    obtain ⟨cell, hcell, hdata, -⟩ := hturned.parsed b cell' hcell'
    exact ⟨cell, hcell, hdata hba⟩
  refine ⟨fun b hb => ?_, fun b hb hnot cell' hcell' => ?_, fun b hb cell' hcell' => ?_⟩
  · rcases List.mem_append.mp hb with hb | hb
    · exact hnone _ (h.dead b hb)
    · rw [List.mem_singleton.mp hb]
      exact hgone
  · rw [List.mem_append, List.mem_singleton, not_or] at hnot
    obtain ⟨cell, hcell, hdata⟩ := hback b hnot.2 cell' hcell'
    rw [hdata]
    exact h.own b hb hnot.1 cell hcell
  · rcases List.mem_append.mp hb with hbd | hb
    · obtain ⟨cell, hcell, hdata⟩ := hback b (hturn.done_ne hbd) cell' hcell'
      rw [hdata]
      exact h.fate b hbd cell hcell
    · obtain rfl := List.mem_singleton.mp hb
      rcases hw.cases ha hok with ⟨t, hnames, s, hs, rfl⟩ | ⟨-, site₁, hremove, rfl⟩
      · obtain ⟨target, htarget, hpriv⟩ := hs.takes hw.ctxs hcell'
        refine ⟨t, hnames, ?_⟩
        rcases hnames.walked_or_item hw with hwalked | hitem
        · exact .inl hwalked
        · by_cases htd : t ∈ done
          · exact .inr (.inl ⟨done, pend, hitems, htd⟩)
          · exact .inr (.inr ⟨t, hitem, hpriv.trans (h.own t hitem htd target htarget)⟩)
      · obtain ⟨σ, lists, -, hσ, rfl⟩ := removeNode_eq_ok hremove
        obtain ⟨-, -, hnone, -⟩ := free_eq_some hσ
        have hcell' : σ (.parsed b) = some cell' := hcell'
        rw [hnone] at hcell'
        cases hcell'

/-- An element that an id or a permalink leads to. -/
def Entry (doc : Document) (S : Structures) (r a : List ℕ) : Prop :=
  (∃ id, feedNodes doc S r id = some (.parsed a)) ∨ ∃ s, feedPermalinks doc S r s = some (.parsed a)

theorem Names.entry (h : Names doc S r a m) : Entry doc S r m := by
  obtain ⟨content, -, -, hfeed⟩ := h
  exact .inl ⟨_, hfeed⟩

/-- Every association item that an id or a permalink leads to resolves. -/
def EntriesResolve (doc : Document) (S : Structures) (r : List ℕ) : Prop :=
  ∀ a, Item doc S r a → Entry doc S r a → Resolves doc S r a

/-- If at the end every entry has a Context that is there, every item that is an entry resolves. -/
theorem Fated.resolve (h : Fated doc S r (items doc S r) site)
    (hlive : ∀ a, Item doc S r a → Entry doc S r a → ∃ cell p ctxt,
      site.doc (.parsed a) = some cell ∧ cell.data.priv = some p ∧ site.contexts p = some ctxt) :
    EntriesResolve doc S r := by
  -- by induction on the items before
  have hall : ∀ k, ∀ done a pend, done.length = k → items doc S r = done ++ a :: pend →
      Entry doc S r a → Resolves doc S r a := by
    intro k
    induction k using Nat.strong_induction_on with
    | _ k ih =>
      rintro done a pend rfl hitems hentry
      have ha : Item doc S r a := mem_items.mp (by simp [hitems])
      obtain ⟨cell, p, ctxt, hcell, hpriv, hctxt⟩ := hlive a ha hentry
      obtain ⟨m, hnames, hwalked | hbefore | ⟨c, hc, hpriv'⟩⟩ :=
        h.fate a (mem_items.mpr ha) cell hcell
      · exact .ordinary hnames hwalked
      · obtain ⟨first, second, hdone⟩ := List.append_of_mem (hbefore.mem (turn hitems))
        refine .item hnames hbefore (ih first.length ?_ first m (second ++ a :: pend) rfl ?_
          hnames.entry)
        · rw [hdone, List.length_append, List.length_cons]
          omega
        · rw [hitems, hdone, List.append_assoc, List.cons_append]
      · -- the Context of an item is gone
        rw [hpriv, Option.some.injEq] at hpriv'
        rw [hpriv', h.dead c (mem_items.mpr hc)] at hctxt
        cases hctxt
  intro a ha hentry
  obtain ⟨done, pend, hitems⟩ := List.append_of_mem (mem_items.mpr ha)
  exact hall _ done a pend rfl hitems hentry

end VaeDb.Indexes
