import VaeDb.Site.Resolving

/-! Items that name an item which comes after them.

    Such an item puts a pointer node behind the last child of one that still awaits its turn. The
    pointer node shares the children of the item's parent, among them the item, and the text of the
    item is followed by the children of the one it names: a circle. At its turn that one frees what
    follows its text, and with it the text, or a node that is gone by then. So loading fails.

        later ── text ─▶ … ─▶ last ─▶ pointer ── child ─▶ … ─▶ item ── text ─▶ text of later     -/

namespace VaeDb.Indexes
open Schemes Xml Walk Staging

variable {doc : Document} {S : Structures} {r : List ℕ} {site site' : Site} {σ σ' : Store}
  {a b m t p : List ℕ} {pend done : List (List ℕ)}

/-! ### What a turn spares -/

/-- What the turn of the item `a` leaves of the other items: `E` may get another last child, and the
    children of `F` may change. -/
structure Spares (doc : Document) (S : Structures) (r a : List ℕ) (E F : List ℕ → Prop)
    (σ σ' : Store) : Prop where
  item : ∀ b, Item doc S r b → b ≠ a → ∀ cell, σ (.parsed b) = some cell →
    ∃ cell', σ' (.parsed b) = some cell' ∧ cell'.data = cell.data ∧
      (¬ E b ∨ cell.children ≠ none → cell'.children = cell.children) ∧
      (¬ E b → cell'.last = cell.last)
  inside : ∀ b, Item doc S r b → b ≠ a → ¬ F b → ∀ n, Inside b n → σ' n = σ n
  pointer : ∀ k cell, σ (.pointer k) = some cell →
    ∃ cell', σ' (.pointer k) = some cell' ∧ cell'.children = cell.children
  walked : ∀ p, Walked doc S r p → ∀ cell', σ' (.parsed p) = some cell' →
    ∃ cell, σ (.parsed p) = some cell ∧ cell'.data = cell.data

/-- Taking out an item spares all others. -/
theorem spares_takenOut (h : ∀ p, Walked doc S r p → KidChain σ p) (ha : Item doc S r a)
    (ht : TakenOut σ σ' a) : Spares doc S r a (fun _ => False) (fun _ => False) σ σ' := by
  have hachild := ElementWith.child ha
  have haw := item_not_walked ha
  obtain ⟨u, p, tree, rfl, hp, -⟩ := id hachild
  have hchain := h p hp
  obtain ⟨cu, hcu⟩ := ht.there
  have hparent := hchain.parent u cu hcu
  have hback : ∀ c, c ≠ u :: p → ¬ Inside (u :: p) (.parsed c) → ∀ cell',
      σ' (.parsed c) = some cell' → ∃ cell, σ (.parsed c) = some cell ∧ cell'.data = cell.data := by
    intro c hne hc cell' hcell'
    rw [ht.outside _ (by simpa using hne) hc] at hcell'
    obtain ⟨cell, hcell, hdata⟩ := unlink_eq_some hcell'
    exact ⟨cell, hcell, hdata⟩
  refine ⟨fun b hb hba cell hcell => ?_, fun b hb hba _ n hn => ?_, fun k cell hcell => ?_,
    fun q hq cell' hcell' => hback q ?_ (walked_outside hachild haw hq) cell' hcell'⟩
  · obtain ⟨cu', cell', hcu', hcell', -, hdata, hchildren, hlast, -⟩ :=
      ht.cell (by simpa using hba) (child_not_inside (ElementWith.child hb) _ hachild haw) hcell
    obtain rfl := Option.some.inj (hcu.symm.trans hcu')
    have hne : cu.parent ≠ some (.parsed b) := by
      rw [hparent]
      rintro ⟨⟩
      exact item_not_walked hb hp
    rw [if_neg fun hcond => hne hcond.1] at hchildren hlast
    exact ⟨cell', hcell', hdata, fun _ => hchildren, fun _ => hlast⟩
  · obtain ⟨q, rfl, hbq, hqb⟩ := hn
    have hbchild := ElementWith.child hb
    have hbw := item_not_walked hb
    have hout : ¬ u :: p <:+ q := not_inside_both hachild haw hbchild hbw hba hbq
    rw [ht.outside, hchain.unlink_same hcu]
    · simp
    · rintro ⟨⟩
      exact not_suffix_walked hbchild hbw hp hbq
    · rintro i ⟨⟩
      exact kid_outside hbchild hbw hp i ⟨_, rfl, hbq, hqb⟩
    · rintro ⟨⟩
      exact hout List.suffix_rfl
    · rintro ⟨q', ⟨⟩, hsuffix, -⟩
      exact hout hsuffix
  · obtain ⟨cu', cell', hcu', hcell', -, -, hchildren, -⟩ :=
      ht.cell (n := .pointer k) (by simp) (by rintro ⟨q, ⟨⟩, -⟩) hcell
    obtain rfl := Option.some.inj (hcu.symm.trans hcu')
    rw [if_neg (by simp [hparent])] at hchildren
    exact ⟨cell', hcell', hchildren⟩
  · rintro rfl
    exact haw hq

/-- Where the last child of the node at `t` may be: at the end of a chain of children, or inside the
    item that `t` is. -/
def LastAt (doc : Document) (S : Structures) (r t : List ℕ) (σ : Store)
    (target : Cell NodeId Info) : Prop :=
  ∀ n ∈ target.last, AtEnd doc S r σ n ∨ Item doc S r t ∧ Inside t n

theorem atEnd_outside {n : NodeId} (h : AtEnd doc S r σ n) (hb : Item doc S r b) :
    ¬ Inside b n := by
  rcases h with ⟨k, rfl⟩ | ⟨i, q, rfl, hq, -⟩
  · rintro ⟨q, ⟨⟩, -⟩
  · exact kid_outside (ElementWith.child hb) (item_not_walked hb) hq i

/-- A node inside one item is inside no other. -/
theorem inside_unique (ha : Item doc S r a) (hb : Item doc S r b) {n : NodeId}
    (hna : Inside a n) (hnb : Inside b n) : a = b := by
  by_contra hne
  obtain ⟨q, rfl, haq, -⟩ := hna
  obtain ⟨q', ⟨⟩, hbq, -⟩ := hnb
  exact not_inside_both (ElementWith.child hb) (item_not_walked hb) (ElementWith.child ha)
    (item_not_walked ha) hne haq hbq

/-- An element that is entered is not inside an item. -/
theorem target_outside (ht : Walked doc S r t ∨ Item doc S r t) (hb : Item doc S r b) :
    ¬ Inside b (.parsed t) := by
  rcases ht with ht | ht
  · exact walked_outside (ElementWith.child hb) (item_not_walked hb) ht
  · exact child_not_inside (ElementWith.child ht) _ (ElementWith.child hb) (item_not_walked hb)

/-- An association spares all items but its target, and the inside of that one too, unless its last
    child is there. -/
theorem spares_joined {k : ℕ} {target : Cell NodeId Info} (ha : Item doc S r a)
    (ht : Walked doc S r t ∨ Item doc S r t) (hlast : LastAt doc S r t σ target)
    (hfresh : σ (.pointer k) = none) (h : Joined a t p k target σ σ') :
    Spares doc S r a (fun b => b = t) (fun b => b = t ∧ ∃ n ∈ target.last, Inside t n) σ σ' := by
  have hachild := ElementWith.child ha
  have haw := item_not_walked ha
  refine ⟨fun b hb hba cell hcell => ?_, fun b hb hba hF n hn => ?_, fun j cell hcell => ?_,
    fun q hq cell' hcell' => ?_⟩
  · obtain ⟨cell', hcell', hhung⟩ :=
      h.parsed b hba (child_not_inside (ElementWith.child hb) _ hachild haw) cell hcell
    refine ⟨cell', hcell', hhung.data, fun hcond => ?_, fun hne => ?_⟩
    · rw [hhung.children, if_neg]
      rintro ⟨rfl, hnone⟩
      obtain rfl := Option.some.inj (hcell.symm.trans h.there)
      exact hcond.elim (fun hne => hne rfl) fun hne => hne hnone
    · rw [hhung.last, if_neg hne]
  · have hna : ¬ Inside a n := fun hna => hba (inside_unique ha hb hna hn).symm
    obtain ⟨q, rfl, hbq, hqb⟩ := id hn
    cases hcell : σ (.parsed q) with
    | none => exact h.none q hcell
    | some cell =>
      have hqa : q ≠ a := by
        rintro rfl
        exact child_not_inside hachild _ (ElementWith.child hb) (item_not_walked hb) hn
      obtain ⟨cell', hcell', hhung⟩ := h.parsed q hqa hna cell hcell
      have hqt : q ≠ t := by
        rintro rfl
        exact target_outside ht hb hn
      have hnext : target.last ≠ some (.parsed q) := by
        intro hl
        rcases hlast _ hl with hend | ⟨hitem, hin⟩
        · exact atEnd_outside hend hb hn
        · exact hF ⟨inside_unique hb hitem hn hin, _, hl, hin⟩
      rw [hcell', hhung.same hqt hnext]
  · refine h.pointer j cell ?_ hcell
    rintro rfl
    rw [hfresh] at hcell
    cases hcell
  · have hqa : q ≠ a := by
      rintro rfl
      exact haw hq
    cases hcell : σ (.parsed q) with
    | none =>
      rw [h.none q hcell] at hcell'
      cases hcell'
    | some cell =>
      obtain ⟨cell'', hcell'', hhung⟩ := h.parsed q hqa (walked_outside hachild haw hq) cell hcell
      obtain rfl := Option.some.inj (hcell'.symm.trans hcell'')
      exact ⟨cell, rfl, hhung.data⟩

/-! ### A circle -/

/-- Behind the last child of the item `m` stands the pointer node `k`, which leads over the children of
    `p`, from `i` on, to the item `j :: p`, whose text leads back to the text of `m`. -/
structure Tangle (doc : Document) (σ : Store) (m : List ℕ) (k : ℕ) (p : List ℕ) (i j : ℕ) : Prop where
  kids : ∀ x < (doc.kids m).length, ∃ c, σ (.parsed (x :: m)) = some c ∧ c.next =
    some (if x + 1 < (doc.kids m).length then .parsed ((x + 1) :: m) else .pointer k)
  pointer : ∃ c, σ (.pointer k) = some c ∧ c.children = some (.parsed (i :: p))
  order : i ≤ j
  item : ∃ c, σ (.parsed (j :: p)) = some c ∧ c.children = some (.parsed (0 :: j :: p))
  text : ∃ c, σ (.parsed (0 :: j :: p)) = some c ∧ c.next = some (.parsed (0 :: m))

/-- Every child of `m` leads to the pointer node. -/
theorem Tangle.reach {k i j : ℕ} (h : Tangle doc σ m k p i j) : ∀ d x,
    x + d + 1 = (doc.kids m).length → ∃ c n, σ (.parsed (x :: m)) = some c ∧ c.next = some n ∧
      Relation.ReflTransGen σ.Link n (.pointer k)
  | 0, x, hx => by
      obtain ⟨c, hc, hnext⟩ := h.kids x (by omega)
      rw [if_neg (by omega)] at hnext
      exact ⟨c, _, hc, hnext, .refl⟩
  | d + 1, x, hx => by
      obtain ⟨c, hc, hnext⟩ := h.kids x (by omega)
      rw [if_pos (by omega)] at hnext
      obtain ⟨c', n, hc', hn, hreach⟩ := h.reach d (x + 1) (by omega)
      exact ⟨c, _, hc, hnext, .head ⟨c', hc', .inr hn⟩ hreach⟩

/-- Freeing what follows the text of `m` frees the text. -/
theorem Tangle.frees_text {k i j : ℕ} (h : Tangle doc σ m k p i j) (hchain : KidChain σ p)
    (hkids : 0 < (doc.kids m).length) {cell : Cell NodeId Info}
    (hcell : σ (.parsed (0 :: m)) = some cell) {fuel : ℕ}
    (hfree : Heap.freeList fuel σ cell.next = some σ') : σ' (.parsed (0 :: m)) = none := by
  obtain ⟨c, n, hc, hnext, hreach⟩ := h.reach ((doc.kids m).length - 1) 0 (by omega)
  obtain rfl := Option.some.inj (hcell.symm.trans hc)
  rw [hnext] at hfree
  obtain ⟨k', hk', hchildren⟩ := h.pointer
  obtain ⟨c', hc', hfirst⟩ := h.item
  obtain ⟨d, hd, hback⟩ := h.text
  -- the pointer node is freed, so what it leads to is there
  obtain ⟨-, hgone⟩ := freeList_reach hfree hreach
  obtain ⟨⟨e, he⟩, -⟩ := freeList_link hfree hgone ⟨k', hk', .inl hchildren⟩
  have hround : Relation.ReflTransGen σ.Link n (.parsed (0 :: m)) :=
    (((hreach.tail ⟨k', hk', .inl hchildren⟩).trans (hchain.reach he j c' hc' h.order)).tail
      ⟨c', hc', .inl hfirst⟩).tail ⟨d, hd, .inr hback⟩
  exact (freeList_reach hfree hround).2

/-- The item `m` is on a circle, by an item that was dealt with and resolves not. -/
structure Tangled (doc : Document) (S : Structures) (r : List ℕ) (done : List (List ℕ)) (σ : Store)
    (m : List ℕ) : Prop where
  last : ∀ cell, σ (.parsed m) = some cell → ∀ n ∈ cell.last, ∃ k, n = .pointer k
  circle : ∃ k p i j, Walked doc S r p ∧ Item doc S r (j :: p) ∧ j :: p ∈ done ∧
    ¬ Resolves doc S r (j :: p) ∧ Tangle doc σ m k p i j

/-- At its turn an item on a circle is not associated with anything. -/
theorem Tangled.stuck (h : Tangled doc S r done site.doc a)
    (hchain : ∀ p, Walked doc S r p → KidChain site.doc p) (hw : Worded doc S r site)
    (ha : Item doc S r a) {content : String} (hat : doc.at? (0 :: a) = some (.text content))
    {s : Stages site (.parsed a) (.parsed t)} (hs : s.Sound) : False := by
  obtain ⟨cell, firstCell, target, first, σ₁, lists₁, lists₂, hcell, hchildren, hfirst,
    ⟨-, hfree, -, d, hd⟩, -⟩ := graft_eq_ok hs.graft
  obtain rfl : first = .parsed (0 :: a) := by
    have hhead := kidIds_head hat
    rcases hw.first a cell ha hcell with heq | ⟨hnone, -⟩
    · rw [hchildren, hhead] at heq
      exact Option.some.inj heq
    · rw [hhead] at hnone
      cases hnone
  obtain ⟨k, p, i, j, hp, -, -, -, htangle⟩ := h.circle
  have hkids : 0 < (doc.kids a).length := Document.at?_eq_some_iff.mp ⟨_, hat⟩
  rw [htangle.frees_text (hchain p hp) hkids hfirst (freeList_of_each hfree)] at hd
  cases hd

/-- The item is as parsed. -/
structure Untouched (doc : Document) (σ : Store) (b : List ℕ) : Prop where
  intact : Intact doc σ b
  last : ∀ cell, σ (.parsed b) = some cell → cell.last = (doc.kidIds b).getLast?

section Spares

variable {E F : List ℕ → Prop}

theorem Spares.untouched (h : Spares doc S r a E F σ σ') (hb : Item doc S r b) (hba : b ≠ a)
    (hE : ¬ E b) (hF : ¬ F b) {cell : Cell NodeId Info} (hcell : σ (.parsed b) = some cell)
    (hun : Untouched doc σ b) : Untouched doc σ' b := by
  obtain ⟨cell', hcell', -, hchildren, hlast⟩ := h.item b hb hba cell hcell
  refine ⟨⟨fun q hq hqb => ?_, fun d hd => ?_⟩, fun d hd => ?_⟩
  · rw [h.inside b hb hba hF _ ⟨q, rfl, hq, hqb⟩, hun.intact.below q hq hqb]
  · obtain rfl := Option.some.inj (hcell'.symm.trans hd)
    rw [hchildren (.inl hE), hun.intact.children cell hcell]
  · obtain rfl := Option.some.inj (hcell'.symm.trans hd)
    rw [hlast hE, hun.last cell hcell]

/-- A circle stays, as the items whose children change resolve. -/
theorem Spares.tangled (h : Spares doc S r a E F σ σ') (hb : Item doc S r b) (hba : b ≠ a)
    (hF : ¬ F b) (hE : ∀ c, Item doc S r c → E c ∨ F c → Resolves doc S r c) (hnot : a ∉ done)
    (hlast : ∀ cell, σ' (.parsed b) = some cell → ∀ n ∈ cell.last, ∃ k, n = .pointer k)
    (ht : Tangled doc S r done σ b) : Tangled doc S r (done ++ [a]) σ' b := by
  obtain ⟨k, p, i, j, hp, hitem, hdone, hres, htangle⟩ := ht.circle
  have hja : j :: p ≠ a := by
    rintro rfl
    exact hnot hdone
  refine ⟨hlast, k, p, i, j, hp, hitem, List.mem_append_left _ hdone, hres, fun x hx => ?_, ?_,
    htangle.order, ?_, ?_⟩
  · rw [h.inside b hb hba hF _ (inside_cons List.suffix_rfl)]
    exact htangle.kids x hx
  · obtain ⟨c, hc, hchildren⟩ := htangle.pointer
    obtain ⟨c', hc', hsame⟩ := h.pointer k c hc
    exact ⟨c', hc', hsame.trans hchildren⟩
  · obtain ⟨c, hc, hchildren⟩ := htangle.item
    obtain ⟨c', hc', -, hsame, -⟩ := h.item _ hitem hja c hc
    exact ⟨c', hc', (hsame (.inr (by simp [hchildren]))).trans hchildren⟩
  · rw [h.inside _ hitem hja (fun hF' => hres (hE _ hitem (.inr hF'))) _
      (inside_cons List.suffix_rfl)]
    exact htangle.text

end Spares

/-! ### What an association does -/

/-- The element named is a child of a walked node. -/
theorem Names.child (h : Names doc S r a t) (hw : Worded doc S r site) : Child doc S r t := by
  obtain ⟨content, -, -, hfeed⟩ := h
  rw [← hw.nodes] at hfeed
  obtain ⟨c, attrs, hc, helement, -⟩ := hw.indexed.nodes _ _ hfeed
  cases hc
  exact ElementWith.child helement

/-- The children of walked nodes stay in order, and the item has the last child of its target. -/
theorem orderly_joined {T T' : List ℕ → Prop} {k : ℕ} {target : Cell NodeId Info}
    (h : Orderly doc S r T σ) (ha : Item doc S r a) (hlast : LastAt doc S r t σ target)
    (hj : Joined a t p k target σ σ') (hT : ∀ t, T' t → T t ∧ Item doc S r t ∨ t = a)
    (hend : T' a → ∀ n ∈ target.last, AtEnd doc S r σ n) : Orderly doc S r T' σ' := by
  have hachild := ElementWith.child ha
  have haw := item_not_walked ha
  have hnone : ∀ c, σ (.parsed c) = none → σ' (.parsed c) = none := hj.none
  -- a child of a walked node that is the last of the target has no other behind it
  have hbehind : ∀ q, Walked doc S r q → ∀ i, target.last = some (.parsed (i :: q)) →
      NoneBehind σ q i := by
    intro q hq i hi
    rcases hlast _ hi with (⟨j, ⟨⟩⟩ | ⟨j, q', ⟨⟩, -, hnone⟩) | ⟨hitem, hin⟩
    · exact hnone
    · exact absurd hin (kid_outside (ElementWith.child hitem) (item_not_walked hitem) hq i)
  refine ⟨fun q hq => (h.chain q hq).congr (fun cell hcell => ?_) (fun i c hc => ?_)
    fun i hi => hnone _ hi, fun x hx cell' hcell' n hn => ?_⟩
  · have hqa : q ≠ a := by
      rintro rfl
      exact haw hq
    obtain ⟨cell', hcell', hhung⟩ := hj.parsed q hqa (walked_outside hachild haw hq) cell hcell
    refine ⟨cell', hcell', fun hchildren => ?_⟩
    rw [hhung.children, if_neg]
    rintro ⟨rfl, hnil⟩
    obtain rfl := Option.some.inj (hcell.symm.trans hj.there)
    exact hchildren hnil
  · rcases eq_or_ne (i :: q) a with rfl | hia
    · obtain ⟨cell, cell', hcell, hcell', hparent, hprev, -, -, -, hnext⟩ := hj.item
      obtain rfl := Option.some.inj (hc.symm.trans hcell)
      refine ⟨cell', hcell', hparent, hprev, ?_⟩
      rw [hnext]
      split
      · next hcond => exact .inr ⟨hbehind q hq i hcond.2, k, rfl⟩
      · exact .inl rfl
    · obtain ⟨c', hc', hhung⟩ := hj.parsed _ hia (kid_outside hachild haw hq i) c hc
      refine ⟨c', hc', hhung.parent, hhung.prev, ?_⟩
      rw [hhung.next]
      split
      · next hcond => exact .inr ⟨hbehind q hq i hcond.2, k, rfl⟩
      · exact .inl rfl
  · rcases eq_or_ne x a with rfl | hxa
    · have hT' : T' x := hx.resolve_left haw
      obtain ⟨cell, cell'', -, hcell'', -, -, -, hsame, -⟩ := hj.item
      obtain rfl := Option.some.inj (hcell'.symm.trans hcell'')
      rw [hsame] at hn
      exact (hend hT' n hn).mono hnone
    · have hx : Walked doc S r x ∨ T x ∧ Item doc S r x :=
        hx.imp id fun hx => (hT x hx).resolve_right hxa
      cases hcell : σ (.parsed x) with
      | none =>
        rw [hnone x hcell] at hcell'
        cases hcell'
      | some cell =>
        obtain ⟨cell'', hcell'', hhung⟩ :=
          hj.parsed x hxa (target_outside (hx.imp id And.right) ha) cell hcell
        obtain rfl := Option.some.inj (hcell'.symm.trans hcell'')
        rw [hhung.last] at hn
        split at hn
        · exact .inl ⟨k, (Option.some.inj hn).symm⟩
        · exact (h.ends x (hx.imp id And.left) cell hcell n hn).mono hnone

/-- An item that is named before its turn is on a circle from then on. -/
theorem tangle_joined {k j : ℕ} {target : Cell NodeId Info} (ha : Item doc S r (j :: p))
    (ht : Item doc S r t) (hta : t ≠ j :: p) (hchain : KidChain σ p) (hun : Untouched doc σ t)
    (hfirst : (doc.kidIds (j :: p)).head? = some (.parsed (0 :: j :: p)))
    (hitem : Intact doc σ (j :: p)) (hkids : 0 < (doc.kids t).length)
    (h : Joined (j :: p) t p k target σ σ') : ∃ i, Tangle doc σ' t k p i j := by
  have hachild := ElementWith.child ha
  have haw := item_not_walked ha
  have hchildren : target.children = some (.parsed (0 :: t)) := by
    rw [hun.intact.children target h.there, List.head?_eq_getElem?, kidIds_get hkids]
  have hlast : target.last = some (.parsed (((doc.kids t).length - 1) :: t)) := by
    rw [hun.last target h.there, List.getLast?_eq_getElem?, Document.kidIds, List.length_map,
      List.length_range]
    exact kidIds_get (by omega)
  obtain ⟨cell, cell', hcell, hcell', -, -, hsame, -⟩ := h.item
  obtain ⟨parent, copy, hparent, hcopy, hcopied⟩ := h.copy
  obtain ⟨i, hij, hi⟩ := hchain.children_before hparent j cell hcell
  obtain ⟨text, htext, hnext⟩ := h.text
  have hin : Inside (j :: p) (.parsed (0 :: j :: p)) := inside_cons List.suffix_rfl
  refine ⟨i, fun x hx => ?_, ⟨copy, hcopy, hcopied.trans hi⟩, hij, ⟨cell', hcell', ?_⟩,
    text, htext, ?_⟩
  · have hxt : Inside t (.parsed (x :: t)) := inside_cons List.suffix_rfl
    have hxa : x :: t ≠ j :: p := by
      intro heq
      exact child_not_inside hachild t (ElementWith.child ht) (item_not_walked ht) (heq ▸ hxt)
    obtain ⟨tree, hat⟩ := Document.at?_eq_some_iff.mpr hx
    have hstore : ∃ c, σ (.parsed (x :: t)) = some c ∧ c.next = (doc.kidIds t)[x + 1]? := by
      rw [hun.intact.below _ (List.suffix_cons _ _) (by simp), Document.store, hat]
      exact ⟨_, rfl, rfl⟩
    obtain ⟨c, hc, hcnext⟩ := hstore
    obtain ⟨c', hc', hhung⟩ := h.parsed _ hxa
      (fun hna => hta (inside_unique ht ha hxt hna)) c hc
    refine ⟨c', hc', ?_⟩
    rw [hhung.next, hchildren, hlast, hcnext]
    by_cases hx' : x + 1 < (doc.kids t).length
    · rw [if_neg, kidIds_get hx', if_pos hx']
      rintro ⟨-, heq⟩
      cases heq
      omega
    · rw [if_pos, if_neg hx']
      obtain rfl : x = (doc.kids t).length - 1 := by omega
      exact ⟨by simp, rfl⟩
  · rw [hsame, hitem.children cell hcell, hfirst]
  · rw [hnext, hchildren]
    intro heq
    rw [hlast, Option.some.injEq] at heq
    refine hta (inside_unique ht ha (n := .parsed (((doc.kids t).length - 1) :: t)) ?_ (heq ▸ hin))
    exact inside_cons List.suffix_rfl

end VaeDb.Indexes
