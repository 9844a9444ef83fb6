import Mathlib.Data.Nat.Find
import VaeDb.Site.Staging

/-! The children of walked nodes, whatever the association items name.

    Two items that name one element, or an item that is named itself, leave lists of children behind
    that are no longer proper: the element knows one last child and the item another, and what is put
    behind the one is cut off from the other. The children that come from the feed stay together all
    the same. Each leads to the next one that is left, as a pointer node is only put behind the last.

        walked ──▶ a ◀──▶ b ◀──▶ c ──▶ pointer
                                 ▲
        last of walked, last of an item that names it                                       -/

namespace VaeDb.Staging
open Schemes Xml Walk

variable {doc : Document} {S : Structures} {r : List ℕ} {σ σ' : Store} {p : List ℕ} {i j u : ℕ}

/-- No child of `p` before `i` is left. -/
def NoneBefore (σ : Store) (p : List ℕ) (i : ℕ) : Prop := ∀ j < i, σ (.parsed (j :: p)) = none

/-- No child of `p` behind `i` is left. -/
def NoneBehind (σ : Store) (p : List ℕ) (i : ℕ) : Prop := ∀ j, i < j → σ (.parsed (j :: p)) = none

/-- No child of `p` between `i` and `j` is left. -/
def NoneBetween (σ : Store) (p : List ℕ) (i j : ℕ) : Prop :=
  ∀ k, i < k → k < j → σ (.parsed (k :: p)) = none

/-- The children of `p` that are left are linked in the order of the document. -/
structure KidChain (σ : Store) (p : List ℕ) : Prop where
  here : ∃ cell, σ (.parsed p) = some cell
  parent : ∀ i c, σ (.parsed (i :: p)) = some c → c.parent = some (.parsed p)
  first : ∀ i c cell, σ (.parsed (i :: p)) = some c → NoneBefore σ p i →
    σ (.parsed p) = some cell → cell.children = some (.parsed (i :: p)) ∧ c.prev = none
  next : ∀ i j c d, i < j → σ (.parsed (i :: p)) = some c → σ (.parsed (j :: p)) = some d →
    NoneBetween σ p i j → c.next = some (.parsed (j :: p)) ∧ d.prev = some (.parsed (i :: p))
  behind : ∀ i c, σ (.parsed (i :: p)) = some c → NoneBehind σ p i →
    ∀ m ∈ c.next, ∃ k, m = .pointer k

/-! ### Neighbours -/

/-- There is a child before `j`, and then a last one, or there is none. -/
theorem before_cases (σ : Store) (p : List ℕ) (j : ℕ) : NoneBefore σ p j ∨
    ∃ i c, i < j ∧ σ (.parsed (i :: p)) = some c ∧ NoneBetween σ p i j := by
  induction j with
  | zero => exact .inl fun i hi => absurd hi (Nat.not_lt_zero i)
  | succ j ih =>
    cases hj : σ (.parsed (j :: p)) with
    | some c => exact .inr ⟨j, c, Nat.lt_succ_self j, hj, fun k hk hkj => by omega⟩
    | none =>
      rcases ih with hnone | ⟨i, c, hij, hc, hbetween⟩
      · refine .inl fun i hi => ?_
        rcases Nat.lt_succ_iff_lt_or_eq.mp hi with hi | rfl
        · exact hnone i hi
        · exact hj
      · refine .inr ⟨i, c, by omega, hc, fun k hk hkj => ?_⟩
        rcases Nat.lt_succ_iff_lt_or_eq.mp hkj with hkj | rfl
        · exact hbetween k hk hkj
        · exact hj

/-- There is a child behind `i`, and then a first one, or there is none. -/
theorem behind_cases (σ : Store) (p : List ℕ) (i : ℕ) : NoneBehind σ p i ∨
    ∃ j c, i < j ∧ σ (.parsed (j :: p)) = some c ∧ NoneBetween σ p i j := by
  by_cases h : ∃ j, i < j ∧ σ (.parsed (j :: p)) ≠ none
  · classical
    obtain ⟨hij, hj⟩ := Nat.find_spec h
    obtain ⟨c, hc⟩ := Option.ne_none_iff_exists'.mp hj
    refine .inr ⟨Nat.find h, c, hij, hc, fun k hk hkj => ?_⟩
    by_contra hsome
    exact Nat.find_min h hkj ⟨hk, hsome⟩
  · refine .inl fun j hij => ?_
    by_contra hsome
    exact h ⟨j, hij, hsome⟩

/-- From the first child on, and from each child to the next one. -/
theorem kid_induction {Q : ℕ → Prop}
    (first : ∀ i c, σ (.parsed (i :: p)) = some c → NoneBefore σ p i → Q i)
    (next : ∀ i j c d, i < j → σ (.parsed (i :: p)) = some c → σ (.parsed (j :: p)) = some d →
      NoneBetween σ p i j → Q i → Q j) :
    ∀ j d, σ (.parsed (j :: p)) = some d → Q j := by
  intro j
  induction j using Nat.strong_induction_on with
  | _ j ih =>
    intro d hd
    rcases before_cases σ p j with hnone | ⟨i, c, hij, hc, hbetween⟩
    · exact first j d hd hnone
    · exact next i j c d hij hc hd hbetween (ih i hij c hc)

namespace KidChain

/-- The sibling link to the left. -/
theorem prev_cases (h : KidChain σ p) {c : Cell NodeId Info} (hc : σ (.parsed (u :: p)) = some c) :
    NoneBefore σ p u ∧ c.prev = none ∨ ∃ i d, i < u ∧ σ (.parsed (i :: p)) = some d ∧
      NoneBetween σ p i u ∧ c.prev = some (.parsed (i :: p)) := by
  rcases before_cases σ p u with hnone | ⟨i, d, hiu, hd, hbetween⟩
  · obtain ⟨cell, hcell⟩ := h.here
    exact .inl ⟨hnone, (h.first u c cell hc hnone hcell).2⟩
  · exact .inr ⟨i, d, hiu, hd, hbetween, (h.next i u d c hiu hd hc hbetween).2⟩

/-- The sibling link to the right. -/
theorem next_cases (h : KidChain σ p) {c : Cell NodeId Info} (hc : σ (.parsed (u :: p)) = some c) :
    (NoneBehind σ p u ∧ ∀ m ∈ c.next, ∃ k, m = .pointer k) ∨ ∃ j d, u < j ∧
      σ (.parsed (j :: p)) = some d ∧ NoneBetween σ p u j ∧ c.next = some (.parsed (j :: p)) := by
  rcases behind_cases σ p u with hnone | ⟨j, d, huj, hd, hbetween⟩
  · exact .inl ⟨hnone, h.behind u c hc hnone⟩
  · exact .inr ⟨j, d, huj, hd, hbetween, (h.next u j c d huj hc hd hbetween).1⟩

/-- Every child that is left is reached from the one before. -/
theorem reach (h : KidChain σ p) {c : Cell NodeId Info} (hc : σ (.parsed (i :: p)) = some c) :
    ∀ j d, σ (.parsed (j :: p)) = some d → i ≤ j →
      Relation.ReflTransGen σ.Link (.parsed (i :: p)) (.parsed (j :: p)) := by
  refine kid_induction (fun j d hd hnone hij => ?_) fun k j b d hkj hb hd hbetween ih hij => ?_
  · rcases hij.eq_or_lt with rfl | hij
    · exact .refl
    · rw [hnone i hij] at hc
      cases hc
  · rcases hij.eq_or_lt with rfl | hij
    · exact .refl
    · have hik : i ≤ k := by
        by_contra hki
        rw [hbetween i (by omega) hij] at hc
        cases hc
      exact (ih hik).tail ⟨b, hb, .inr (h.next k j b d hkj hb hd hbetween).1⟩

/-- The children that are left lie below whatever `p` lies below. -/
theorem below (h : KidChain σ p) {n : NodeId} (hp : .parsed p = n ∨ Below σ n (.parsed p)) :
    ∀ j d, σ (.parsed (j :: p)) = some d → Below σ n (.parsed (j :: p)) := by
  refine kid_induction (fun j d hd hnone => ?_) fun k j b d hkj hb hd hbetween ih =>
    ih.next hb (h.next k j b d hkj hb hd hbetween).1
  obtain ⟨cell, hcell⟩ := h.here
  have hfirst := (h.first j d cell hd hnone hcell).1
  rcases hp with rfl | hp
  · exact .root hcell hfirst
  · exact hp.child hcell hfirst

/-- The first child that is left stands before every other one. -/
theorem children_before (h : KidChain σ p) {cell : Cell NodeId Info} (hcell : σ (.parsed p) = some cell) :
    ∀ j d, σ (.parsed (j :: p)) = some d → ∃ i ≤ j, cell.children = some (.parsed (i :: p)) := by
  refine kid_induction (fun j d hd hnone => ⟨j, le_rfl, (h.first j d cell hd hnone hcell).1⟩) ?_
  rintro k j - - hkj - - - ⟨i, hik, hi⟩
  exact ⟨i, hik.trans hkj.le, hi⟩

/-- The chain only depends on the first child of `p` and on the links among the children; behind the
    last one a pointer node may come. -/
theorem congr (h : KidChain σ p)
    (hp : ∀ cell, σ (.parsed p) = some cell → ∃ cell', σ' (.parsed p) = some cell' ∧
      (cell.children ≠ none → cell'.children = cell.children))
    (hkids : ∀ i c, σ (.parsed (i :: p)) = some c → ∃ c', σ' (.parsed (i :: p)) = some c' ∧
      c'.parent = c.parent ∧ c'.prev = c.prev ∧
      (c'.next = c.next ∨ NoneBehind σ p i ∧ ∃ k, c'.next = some (.pointer k)))
    (hnone : ∀ i, σ (.parsed (i :: p)) = none → σ' (.parsed (i :: p)) = none) :
    KidChain σ' p := by
  have hback : ∀ {i c'}, σ' (.parsed (i :: p)) = some c' → ∃ c, σ (.parsed (i :: p)) = some c ∧
      c'.parent = c.parent ∧ c'.prev = c.prev ∧
      (c'.next = c.next ∨ NoneBehind σ p i ∧ ∃ k, c'.next = some (.pointer k)) := by
    intro i c' hc'
    cases hc : σ (.parsed (i :: p)) with
    | none =>
      rw [hnone i hc] at hc'
      cases hc'
    | some c =>
      obtain ⟨c'', hc'', hsame⟩ := hkids i c hc
      obtain rfl := Option.some.inj (hc'.symm.trans hc'')
      exact ⟨c, rfl, hsame⟩
  have hgone : ∀ {i}, σ' (.parsed (i :: p)) = none → σ (.parsed (i :: p)) = none := by
    intro i hi
    refine Option.eq_none_iff_forall_not_mem.mpr fun c hc => ?_
    obtain ⟨c', hc', -⟩ := hkids i c hc
    rw [hi] at hc'
    cases hc'
  obtain ⟨cell, hcell⟩ := h.here
  obtain ⟨cell', hcell', hchildren⟩ := hp cell hcell
  refine ⟨⟨cell', hcell'⟩, fun i c' hc' => ?_, fun i c' d hc' hbefore hd => ?_,
    fun i j c' d' hij hc' hd' hbetween => ?_, fun i c' hc' hbehind m hm => ?_⟩
  · obtain ⟨c, hc, hparent, -⟩ := hback hc'
    exact hparent.trans (h.parent i c hc)
  · obtain rfl := Option.some.inj (hcell'.symm.trans hd)
    obtain ⟨c, hc, -, hprev, -⟩ := hback hc'
    obtain ⟨hfirst, hnil⟩ := h.first i c cell hc (fun j hj => hgone (hbefore j hj)) hcell
    exact ⟨(hchildren (by simp [hfirst])).trans hfirst, hprev.trans hnil⟩
  · obtain ⟨c, hc, -, -, hnext⟩ := hback hc'
    obtain ⟨d, hd, -, hprev, -⟩ := hback hd'
    obtain ⟨hij', hji⟩ := h.next i j c d hij hc hd fun k hk hkj => hgone (hbetween k hk hkj)
    refine ⟨?_, hprev.trans hji⟩
    rcases hnext with hnext | ⟨hlast, -⟩
    · exact hnext.trans hij'
    · rw [hlast j hij] at hd
      cases hd
  · obtain ⟨c, hc, -, -, hnext⟩ := hback hc'
    rcases hnext with hnext | ⟨-, k, hk⟩
    · rw [hnext] at hm
      exact h.behind i c hc (fun j hj => hgone (hbehind j hj)) m hm
    · rw [hk] at hm
      exact ⟨k, (Option.some.inj hm).symm⟩

end KidChain

/-! ### A child that is taken out -/

/-- The node at `u` is unlinked and freed, with what is below it. -/
structure TakenOut (σ σ' : Store) (u : List ℕ) : Prop where
  there : ∃ cell, σ (.parsed u) = some cell
  gone : σ' (.parsed u) = none
  outside : ∀ n, n ≠ .parsed u → ¬ Inside u n → σ' n = σ.unlink (.parsed u) n
  none : ∀ n, σ n = none → σ' n = none

theorem not_inside_parent (u : ℕ) (p : List ℕ) : ¬ Inside (u :: p) (.parsed p) := by
  rintro ⟨q, ⟨⟩, hq, -⟩
  have := hq.length_le
  rw [List.length_cons] at this
  omega

theorem not_inside_sibling (u i : ℕ) (p : List ℕ) : ¬ Inside (u :: p) (.parsed (i :: p)) := by
  rintro ⟨q, ⟨⟩, hq, hne⟩
  exact hne (hq.eq_of_length rfl).symm

/-- The links of the child `u` lead to `p`, to its other children and to pointer nodes. -/
theorem KidChain.links (h : KidChain σ p) {c : Cell NodeId Info}
    (hc : σ (.parsed (u :: p)) = some c) {n : NodeId} (hpointer : ∀ k, n ≠ .pointer k)
    (hp : n ≠ .parsed p) (hkid : ∀ i, n ≠ .parsed (i :: p)) :
    c.parent ≠ some n ∧ c.next ≠ some n ∧ c.prev ≠ some n := by
  refine ⟨fun hn => ?_, fun hn => ?_, fun hn => ?_⟩
  · rw [h.parent u c hc, Option.some.injEq] at hn
    exact hp hn.symm
  · rcases h.next_cases hc with ⟨-, hnext⟩ | ⟨j, d, -, -, -, hnext⟩
    · obtain ⟨k, hk⟩ := hnext n hn
      exact hpointer k hk
    · rw [hnext, Option.some.injEq] at hn
      exact hkid j hn.symm
  · rcases h.prev_cases hc with ⟨-, hprev⟩ | ⟨i, d, -, -, -, hprev⟩
    · rw [hprev] at hn
      cases hn
    · rw [hprev, Option.some.injEq] at hn
      exact hkid i hn.symm

/-- Unlinking a child changes `p`, its other children and pointer nodes. -/
theorem KidChain.unlink_same (h : KidChain σ p) {c : Cell NodeId Info}
    (hc : σ (.parsed (u :: p)) = some c) {n : NodeId} (hpointer : ∀ k, n ≠ .pointer k)
    (hp : n ≠ .parsed p) (hkid : ∀ i, n ≠ .parsed (i :: p)) :
    σ.unlink (.parsed (u :: p)) n = σ n := by
  obtain ⟨hparent, hnext, hprev⟩ := h.links hc hpointer hp hkid
  rw [unlink_of_ne hc (hkid u)]
  simp [hparent, hnext, hprev]

/-- Freeing a child that is as parsed takes it out. -/
theorem KidChain.takenOut (h : KidChain σ p) (hintact : Intact doc σ (u :: p)) {fuel : ℕ}
    (hfree : Heap.free fuel (σ.unlink (.parsed (u :: p))) (.parsed (u :: p)) = some σ') :
    TakenOut σ σ' (u :: p) := by
  obtain ⟨c', hc', hgone, -, hsub, hframe⟩ := free_eq_some hfree
  obtain ⟨c, hc, -⟩ := unlink_eq_some hc'
  have hinside : ∀ n, Inside (u :: p) n → σ.unlink (.parsed (u :: p)) n = σ n := by
    intro n hn
    refine h.unlink_same hc ?_ ?_ ?_
    · rintro k rfl
      obtain ⟨q, ⟨⟩, -⟩ := hn
    · rintro rfl
      exact not_inside_parent u p hn
    · rintro i rfl
      exact not_inside_sibling u i p hn
  have hclosed : ClosedUnder (σ.unlink (.parsed (u :: p))) (Inside (u :: p)) :=
    hintact.closed.mono fun n d hn hd => by rwa [hinside n hn] at hd
  have hchildren : c'.children = c.children := by
    have hparent : c.parent ≠ some (.parsed (u :: p)) := by simp [h.parent u c hc]
    obtain ⟨d, hd, hchildren, -⟩ := unlink_self hc hparent
    obtain rfl := Option.some.inj (hc'.symm.trans hd)
    exact hchildren
  refine ⟨⟨c, hc⟩, hgone, fun n hne hn => ?_, fun n hn => ?_⟩
  · exact hframe _ hclosed (hchildren ▸ hintact.first_inside hc) n hne hn
  · refine Option.eq_none_iff_forall_not_mem.mpr fun d hd => ?_
    obtain ⟨d₀, hd₀, -⟩ := unlink_eq_some (hsub n d hd)
    rw [hn] at hd₀
    cases hd₀

/-- The chain closes over a child that is taken out. -/
theorem KidChain.remove (h : KidChain σ p) (ht : TakenOut σ σ' (u :: p)) : KidChain σ' p := by
  obtain ⟨c, hc⟩ := ht.there
  obtain ⟨cell, hcell⟩ := h.here
  have hkid : ∀ {i d'}, σ' (.parsed (i :: p)) = some d' → i ≠ u ∧
      ∃ d, σ (.parsed (i :: p)) = some d ∧ d'.parent = d.parent ∧
        d'.prev = (if c.next = some (.parsed (i :: p)) then c.prev else d.prev) ∧
        d'.next = if c.prev = some (.parsed (i :: p)) then c.next else d.next := by
    intro i d' hd'
    have hne : i ≠ u := by
      rintro rfl
      rw [ht.gone] at hd'
      cases hd'
    rw [ht.outside _ (by simpa using hne) (not_inside_sibling u i p),
      unlink_of_ne hc (by simpa using hne)] at hd'
    obtain ⟨d, hd, rfl⟩ := Option.map_eq_some_iff.mp hd'
    exact ⟨hne, d, hd, rfl, rfl, rfl⟩
  have hgone : ∀ {i}, i ≠ u → σ' (.parsed (i :: p)) = none → σ (.parsed (i :: p)) = none := by
    intro i hne hi
    rw [ht.outside _ (by simpa using hne) (not_inside_sibling u i p),
      unlink_of_ne hc (by simpa using hne), Option.map_eq_none_iff] at hi
    exact hi
  have hnode : ∃ cell', σ' (.parsed p) = some cell' ∧ cell'.children =
      if cell.children = some (.parsed (u :: p)) then c.next else cell.children := by
    rw [ht.outside _ (by simp) (not_inside_parent u p), unlink_of_ne hc (by simp), hcell]
    exact ⟨_, rfl, by simp [h.parent u c hc]⟩
  obtain ⟨cell', hcell', hchildren⟩ := hnode
  refine ⟨⟨cell', hcell'⟩, fun i d' hd' => ?_, fun i d' e hd' hbefore he => ?_,
    fun i j d' e' hij hd' he' hbetween => ?_, fun i d' hd' hbehind => ?_⟩
  · obtain ⟨-, d, hd, hparent, -⟩ := hkid hd'
    exact hparent.trans (h.parent i d hd)
  · obtain rfl := Option.some.inj (hcell'.symm.trans he)
    obtain ⟨hne, d, hd, -, hprev, -⟩ := hkid hd'
    rw [hchildren, hprev]
    rcases Nat.lt_or_gt_of_ne hne with hiu | hui
    · -- the first child stays the first
      obtain ⟨hfirst, hnil⟩ := h.first i d cell hd
        (fun j hj => hgone (by omega) (hbefore j hj)) hcell
      rw [hfirst, if_neg (by simpa using hne), hnil, ite_eq_right_iff]
      refine ⟨rfl, fun hnext => ?_⟩
      rcases h.next_cases hc with ⟨-, hpointer⟩ | ⟨j, -, huj, -, -, hj⟩
      · obtain ⟨k, hk⟩ := hpointer _ hnext
        cases hk
      · rw [hj] at hnext
        cases hnext
        omega
    · -- the first child goes, and the next one takes its place
      obtain ⟨hfirst, hnil⟩ := h.first u c cell hc
        (fun j hj => hgone (by omega) (hbefore j (by omega))) hcell
      obtain ⟨hnext, -⟩ := h.next u i c d hui hc hd
        fun k hk hki => hgone (by omega) (hbefore k hki)
      rw [hfirst, if_pos rfl, hnext, if_pos rfl, hnil]
      exact ⟨rfl, rfl⟩
  · obtain ⟨hiu, d, hd, -, -, hnext⟩ := hkid hd'
    obtain ⟨hju, e, he, -, hprev, -⟩ := hkid he'
    rw [hnext, hprev]
    by_cases hbt : i < u ∧ u < j
    · obtain ⟨-, hcprev⟩ := h.next i u d c hbt.1 hd hc
        fun k hk hku => hgone (by omega) (hbetween k hk (by omega))
      obtain ⟨hcnext, -⟩ := h.next u j c e hbt.2 hc he
        fun k hk hkj => hgone (by omega) (hbetween k (by omega) hkj)
      rw [hcprev, hcnext, if_pos rfl, if_pos rfl]
      exact ⟨rfl, rfl⟩
    · obtain ⟨hij', hji⟩ := h.next i j d e hij hd he
        fun k hk hkj => hgone (by omega) (hbetween k hk hkj)
      rw [hij', hji, ite_eq_right_iff, ite_eq_right_iff]
      refine ⟨fun hcprev => ?_, fun hcnext => ?_⟩
      · rcases h.prev_cases hc with ⟨-, hnil⟩ | ⟨k, -, hku, -, hnone, hk⟩
        · rw [hnil] at hcprev
          cases hcprev
        · rw [hk] at hcprev
          cases hcprev
          rw [hnone j hij (by omega)] at he
          cases he
      · rcases h.next_cases hc with ⟨-, hpointer⟩ | ⟨k, -, huk, -, hnone, hk⟩
        · obtain ⟨k, hk⟩ := hpointer _ hcnext
          cases hk
        · rw [hk] at hcnext
          cases hcnext
          rw [hnone i (by omega) hij] at hd
          cases hd
  · obtain ⟨hne, d, hd, -, -, hnext⟩ := hkid hd'
    rw [hnext]
    rcases Nat.lt_or_gt_of_ne hne with hiu | hui
    · -- the last child goes, and the one before takes over what follows
      obtain ⟨-, hcprev⟩ := h.next i u d c hiu hd hc
        fun k hk hku => hgone (by omega) (hbehind k hk)
      rw [hcprev, if_pos rfl]
      exact h.behind u c hc fun j hj => hgone (by omega) (hbehind j (by omega))
    · rw [if_neg fun hcprev => ?_]
      · exact h.behind i d hd fun j hj => hgone (by omega) (hbehind j hj)
      · rcases h.prev_cases hc with ⟨-, hnil⟩ | ⟨k, -, hku, -, -, hk⟩
        · rw [hnil] at hcprev
          cases hcprev
        · rw [hk] at hcprev
          cases hcprev
          omega

/-! ### Where a last child may be -/

/-- A pointer node, or a child of a walked node behind which no other is left. -/
def AtEnd (doc : Document) (S : Structures) (r : List ℕ) (σ : Store) (n : NodeId) : Prop :=
  (∃ k, n = .pointer k) ∨ ∃ i q, n = .parsed (i :: q) ∧ Walked doc S r q ∧ NoneBehind σ q i

theorem AtEnd.mono {n : NodeId} (h : AtEnd doc S r σ n)
    (hnone : ∀ c, σ (.parsed c) = none → σ' (.parsed c) = none) : AtEnd doc S r σ' n := by
  rcases h with hpointer | ⟨i, q, hn, hq, hbehind⟩
  · exact .inl hpointer
  · exact .inr ⟨i, q, hn, hq, fun j hj => hnone _ (hbehind j hj)⟩

/-- The walked nodes have chains of children. `last` of these, and of the nodes in `T`, leads to the
    end of such a chain, if the node it leads to is left at all. -/
structure Orderly (doc : Document) (S : Structures) (r : List ℕ) (T : List ℕ → Prop) (σ : Store) :
    Prop where
  chain : ∀ p, Walked doc S r p → KidChain σ p
  ends : ∀ t, Walked doc S r t ∨ T t → ∀ cell, σ (.parsed t) = some cell →
    ∀ n ∈ cell.last, AtEnd doc S r σ n

variable {T : List ℕ → Prop}

/-- A child of a walked node does not lie inside another one that is not walked. -/
theorem kid_outside {u : List ℕ} (hu : Child doc S r u) (huw : ¬ Walked doc S r u) {q : List ℕ}
    (hq : Walked doc S r q) (i : ℕ) : ¬ Inside u (.parsed (i :: q)) := by
  rintro ⟨q', ⟨⟩, hsuffix, hne⟩
  rcases List.suffix_cons_iff.mp hsuffix with heq | hsuffix
  · exact hne heq.symm
  · exact not_suffix_walked hu huw hq hsuffix

theorem walked_outside {u : List ℕ} (hu : Child doc S r u) (huw : ¬ Walked doc S r u) {q : List ℕ}
    (hq : Walked doc S r q) : ¬ Inside u (.parsed q) := by
  rintro ⟨q', ⟨⟩, hsuffix, -⟩
  exact not_suffix_walked hu huw hq hsuffix

/-- A change of data is no change of the links. -/
theorem modify_links {u : NodeId} {f : Cell NodeId Info → Cell NodeId Info}
    (hf : ∀ cell, SameLinks cell (f cell) ∧ (f cell).last = cell.last) :
    (∀ n, σ n = none → σ.modify u f n = none) ∧ ∀ n cell, σ n = some cell →
      ∃ cell', σ.modify u f n = some cell' ∧ SameLinks cell cell' ∧ cell'.last = cell.last := by
  refine ⟨fun n hn => ?_, fun n cell hcell => ?_⟩
  · rw [Heap.modify, hn]
    simp
  · rcases eq_or_ne n u with rfl | hne
    · exact ⟨f cell, by rw [Heap.modify_self, hcell]; rfl, hf cell⟩
    · exact ⟨cell, by rw [Heap.modify_of_ne _ _ hne, hcell], ⟨rfl, rfl, rfl, rfl⟩, rfl⟩

/-- The order is a matter of the links. -/
theorem Orderly.congr (h : Orderly doc S r T σ)
    (hnone : ∀ n, σ n = none → σ' n = none)
    (hsome : ∀ n cell, σ n = some cell →
      ∃ cell', σ' n = some cell' ∧ SameLinks cell cell' ∧ cell'.last = cell.last) :
    Orderly doc S r T σ' := by
  refine ⟨fun p hp => (h.chain p hp).congr (fun cell hcell => ?_) (fun i c hc => ?_)
    fun i hi => hnone _ hi, fun t ht cell' hcell' n hn => ?_⟩
  · obtain ⟨cell', hcell', hlinks, -⟩ := hsome _ cell hcell
    exact ⟨cell', hcell', fun _ => hlinks.children⟩
  · obtain ⟨c', hc', hlinks, -⟩ := hsome _ c hc
    exact ⟨c', hc', hlinks.parent, hlinks.prev, .inl hlinks.next⟩
  · cases hcell : σ (.parsed t) with
    | none =>
      rw [hnone _ hcell] at hcell'
      cases hcell'
    | some cell =>
      obtain ⟨cell'', hcell'', -, hlast⟩ := hsome _ cell hcell
      obtain rfl := Option.some.inj (hcell'.symm.trans hcell'')
      rw [hlast] at hn
      exact (h.ends t ht cell hcell n hn).mono fun c hc => hnone _ hc

section TakenOut

variable {c : List ℕ}

/-- What taking out a child leaves of a cell that does not lie inside it. -/
theorem TakenOut.cell (ht : TakenOut σ σ' c) {n : NodeId} (hne : n ≠ .parsed c)
    (hn : ¬ Inside c n) {cell : Cell NodeId Info} (hcell : σ n = some cell) :
    ∃ cu cell', σ (.parsed c) = some cu ∧ σ' n = some cell' ∧ cell'.parent = cell.parent ∧
      cell'.data = cell.data ∧
      cell'.children = (if cu.parent = some n ∧ cell.children = some (.parsed c) then cu.next
        else cell.children) ∧
      cell'.last = (if cu.parent = some n ∧ cell.last = some (.parsed c) then cu.prev
        else cell.last) ∧
      cell'.prev = (if cu.next = some n then cu.prev else cell.prev) ∧
      cell'.next = if cu.prev = some n then cu.next else cell.next := by
  obtain ⟨cu, hcu⟩ := ht.there
  rw [ht.outside n hne hn, unlink_of_ne hcu hne, hcell]
  exact ⟨cu, _, hcu, rfl, rfl, rfl, rfl, rfl, rfl, rfl⟩

/-- Taking out a child that is not walked keeps the order. -/
theorem Orderly.remove (h : Orderly doc S r T σ) (hc : Child doc S r c) (hcw : ¬ Walked doc S r c)
    (hT : ∀ t, T t → Child doc S r t) (ht : TakenOut σ σ' c) : Orderly doc S r T σ' := by
  obtain ⟨u, p, tree, rfl, hp, -⟩ := id hc
  have hchain := h.chain p hp
  refine ⟨fun q hq => ?_, fun t htar cell' hcell' n hn => ?_⟩
  · rcases eq_or_ne q p with rfl | hqp
    · exact hchain.remove ht
    · obtain ⟨cu, hcu⟩ := ht.there
      have hout : ∀ i, cu.next ≠ some (.parsed (i :: q)) ∧ cu.prev ≠ some (.parsed (i :: q)) := by
        refine fun i => ⟨fun hnext => ?_, fun hprev => ?_⟩
        · rcases hchain.next_cases hcu with ⟨-, hpointer⟩ | ⟨j, -, -, -, -, hj⟩
          · obtain ⟨k, hk⟩ := hpointer _ hnext
            cases hk
          · rw [hj] at hnext
            cases hnext
            exact hqp rfl
        · rcases hchain.prev_cases hcu with ⟨-, hnil⟩ | ⟨j, -, -, -, -, hj⟩
          · rw [hnil] at hprev
            cases hprev
          · rw [hj] at hprev
            cases hprev
            exact hqp rfl
      refine (h.chain q hq).congr (fun cell hcell => ?_) (fun i d hd => ?_) fun i hi => ht.none _ hi
      · have hne : NodeId.parsed q ≠ .parsed (u :: p) := by
          rintro ⟨⟩
          exact hcw hq
        obtain ⟨cu', cell', hcu', hcell', -, -, hchildren, -⟩ :=
          ht.cell hne (walked_outside hc hcw hq) hcell
        refine ⟨cell', hcell', fun _ => ?_⟩
        rw [hchildren, if_neg]
        rintro ⟨hparent, -⟩
        rw [hchain.parent u cu' hcu', Option.some.injEq] at hparent
        cases hparent
        exact hqp rfl
      · obtain ⟨cu', d', hcu', hd', hparent, -, -, -, hprev, hnext⟩ :=
          ht.cell (by simp [hqp]) (kid_outside hc hcw hq i) hd
        obtain rfl := Option.some.inj (hcu.symm.trans hcu')
        rw [if_neg (hout i).1] at hprev
        rw [if_neg (hout i).2] at hnext
        exact ⟨d', hd', hparent, hprev, .inl hnext⟩
  · have hne : NodeId.parsed t ≠ .parsed (u :: p) := by
      rintro ⟨⟩
      rw [ht.gone] at hcell'
      cases hcell'
    have hout : ¬ Inside (u :: p) (.parsed t) := by
      rcases htar with htw | htT
      · exact walked_outside hc hcw htw
      · exact child_not_inside (hT t htT) _ hc hcw
    cases hcell : σ (.parsed t) with
    | none =>
      rw [ht.none _ hcell] at hcell'
      cases hcell'
    | some cell =>
      obtain ⟨cu, cell'', hcu, hcell'', -, -, -, hlast, -⟩ := ht.cell hne hout hcell
      obtain rfl := Option.some.inj (hcell'.symm.trans hcell'')
      rw [hlast] at hn
      split at hn
      · -- the last child of `p` goes, and the one before is the last
        next hcond =>
        have hend := h.ends t htar cell hcell _ hcond.2
        rcases hchain.prev_cases hcu with ⟨-, hnil⟩ | ⟨i, d, hiu, -, hbetween, hprev⟩
        · rw [hnil] at hn
          cases hn
        · rw [hprev, Option.mem_def, Option.some.injEq] at hn
          rcases hend with ⟨k, ⟨⟩⟩ | ⟨j, q, ⟨⟩, -, hbehind⟩
          refine .inr ⟨i, p, hn.symm, hp, fun j hj => ?_⟩
          rcases lt_trichotomy j u with hju | rfl | hju
          · exact ht.none _ (hbetween j hj hju)
          · exact ht.gone
          · exact ht.none _ (hbehind j hju)
      · exact (h.ends t htar cell hcell n hn).mono fun d hd => ht.none _ hd

end TakenOut

/-! ### From the parsed document to the end of the walk -/

theorem kidIds_getElem? (p : List ℕ) (i : ℕ) :
    (doc.kidIds p)[i]? = (doc.at? (i :: p)).map fun _ => .parsed (i :: p) := by
  rw [Document.kidIds, List.getElem?_map, Document.at?]
  rcases Nat.lt_or_ge i (doc.kids p).length with hi | hi
  · rw [List.getElem?_range hi, List.getElem?_eq_getElem hi]
    rfl
  · rw [List.getElem?_eq_none (by simpa using hi), List.getElem?_eq_none hi]
    rfl

theorem kidIds_get {p : List ℕ} {i : ℕ} (hi : i < (doc.kids p).length) :
    (doc.kidIds p)[i]? = some (.parsed (i :: p)) := by
  obtain ⟨t, ht⟩ := Document.at?_eq_some_iff.mpr hi
  rw [kidIds_getElem?, ht]
  rfl

/-- The parsed document, child by child. -/
theorem store_kid {i : ℕ} {p : List ℕ} {c : Cell NodeId Info}
    (h : doc.store (.parsed (i :: p)) = some c) : i < (doc.kids p).length ∧
      c.parent = some (.parsed p) ∧ c.next = (doc.kidIds p)[i + 1]? ∧
      c.prev = ((doc.kidIds p).take i).getLast? := by
  rw [Document.store] at h
  split at h
  · cases h
  · next t ht =>
    cases h
    exact ⟨Document.at?_eq_some_iff.mp ⟨t, ht⟩, rfl, rfl, rfl⟩

theorem store_none {i : ℕ} {p : List ℕ} :
    doc.store (.parsed (i :: p)) = none ↔ (doc.kids p).length ≤ i := by
  rw [Document.store, ← not_lt, ← Document.at?_eq_some_iff]
  cases doc.at? (i :: p) <;> simp

/-- After parsing, the children are linked in the order of the document. -/
theorem kidChain_store {p : List ℕ} (hp : p = [] ∨ ∃ t, doc.at? p = some t) :
    KidChain doc.store p := by
  obtain ⟨cell, hcell, hhead, -⟩ := @Document.store_ends doc p hp
  refine ⟨⟨cell, hcell⟩, fun i c hc => (store_kid hc).2.1, fun i c d hc hbefore hd => ?_,
    fun i j c d hij hc hd hbetween => ?_, fun i c hc hbehind m hm => ?_⟩
  · obtain rfl := Option.some.inj (hcell.symm.trans hd)
    obtain ⟨hi, -, -, hprev⟩ := store_kid hc
    obtain rfl : i = 0 := by
      by_contra hne
      have := store_none.mp (hbefore 0 (by omega))
      omega
    exact ⟨by rw [hhead, List.head?_eq_getElem?, kidIds_get hi], hprev⟩
  · obtain ⟨-, -, hnext, -⟩ := store_kid hc
    obtain ⟨hj, -, -, hprev⟩ := store_kid hd
    obtain rfl : j = i + 1 := by
      by_contra hne
      have := store_none.mp (hbetween (i + 1) (by omega) (by omega))
      omega
    refine ⟨hnext.trans (kidIds_get hj), ?_⟩
    rw [hprev, List.take_add_one, kidIds_get (by omega), Option.toList_some, List.getLast?_concat]
  · obtain ⟨-, -, hnext, -⟩ := store_kid hc
    have hlen := store_none.mp (hbehind (i + 1) (Nat.lt_succ_self i))
    rw [hnext, List.getElem?_eq_none (by simpa [Document.kidIds] using hlen)] at hm
    cases hm

/-- `last` as parsed. -/
def LastParsed (doc : Document) (S : Structures) (r : List ℕ) (σ : Store) : Prop :=
  ∀ a, Item doc S r a → ∀ cell, σ (.parsed a) = some cell → cell.last = (doc.kidIds a).getLast?

theorem LastParsed.congr (h : LastParsed doc S r σ) (hnone : ∀ n, σ n = none → σ' n = none)
    (hsome : ∀ n cell, σ n = some cell →
      ∃ cell', σ' n = some cell' ∧ SameLinks cell cell' ∧ cell'.last = cell.last) :
    LastParsed doc S r σ' := by
  intro a ha cell' hcell'
  cases hcell : σ (.parsed a) with
  | none =>
    rw [hnone _ hcell] at hcell'
    cases hcell'
  | some cell =>
    obtain ⟨cell'', hcell'', -, hlast⟩ := hsome _ cell hcell
    obtain rfl := Option.some.inj (hcell'.symm.trans hcell'')
    exact hlast.trans (h a ha cell hcell)

theorem orderly_store (hr : r = [] ∨ ∃ t, doc.at? r = some t) :
    Orderly doc S r (fun _ => False) doc.store := by
  refine ⟨fun p hp => kidChain_store (walked_exists hr hp), fun t ht cell hcell n hn => ?_⟩
  have ht := ht.resolve_right id
  obtain ⟨cell', hcell', -, hlast⟩ := @Document.store_ends doc t (walked_exists hr ht)
  obtain rfl := Option.some.inj (hcell.symm.trans hcell')
  rw [hlast, Option.mem_def, List.getLast?_eq_getElem?, kidIds_getElem?] at hn
  obtain ⟨tree, -, rfl⟩ := Option.map_eq_some_iff.mp hn
  refine .inr ⟨_, t, rfl, ht, fun j hj => store_none.mpr ?_⟩
  rw [Document.kidIds, List.length_map, List.length_range] at hj
  omega

theorem orderly_step {site site' : Site} {m : Move} (hm : Placed doc S r m)
    (hw : Walking doc S r site) (h : Orderly doc S r (fun _ => False) site.doc)
    (hlast : LastParsed doc S r site.doc) (hstep : Step doc site m site') :
    Orderly doc S r (fun _ => False) site'.doc ∧ LastParsed doc S r site'.doc := by
  cases hstep with
  | visit _ => exact ⟨h, hlast⟩
  | defer => exact ⟨h, hlast⟩
  | @enter _ c _ _ _ ha henter =>
    obtain ⟨⟨permalinks, rfl, -⟩, -⟩ := enter_eq_ok henter
    obtain ⟨hnone, hcells⟩ := modify_links (σ := site.doc) (u := .parsed c)
      (f := fun cell => { cell with data := { cell.data with priv := some (.parsed c) } })
      fun _ => ⟨⟨rfl, rfl, rfl, rfl⟩, rfl⟩
    refine ⟨h.congr hnone hcells, hlast.congr hnone hcells⟩
  | @kill _ c hremove =>
    obtain ⟨σ, lists, -, hσ, rfl⟩ := removeNode_eq_ok hremove
    obtain ⟨i, q, name, ps, children, rfl, hq, hat, hstaged⟩ := id hm
    have hc := ElementWith.child hm
    have hcw : ¬ Walked doc S r (i :: q) :=
      not_walked_of_staged hc ⟨name, ps, children, hat, hstaged⟩
    obtain ⟨c', hc', -⟩ := free_eq_some hσ
    obtain ⟨cu, hcu, -⟩ := unlink_eq_some hc'
    have ht := (h.chain q hq).takenOut (hw.inv.intact _ hc hcw (fun _ => trivial) cu hcu) hσ
    refine ⟨h.remove hc hcw (fun _ => False.elim) ht, fun a ha cell' hcell' => ?_⟩
    change σ _ = _ at hcell'
    have hachild := ElementWith.child ha
    have haw := not_walked_of_association hachild ha.associationAt.2
    have hne : NodeId.parsed a ≠ .parsed (i :: q) := by
      rintro ⟨⟩
      rw [ht.gone] at hcell'
      cases hcell'
    cases hcell : site.doc (.parsed a) with
    | none =>
      rw [ht.none _ hcell] at hcell'
      cases hcell'
    | some cell =>
      obtain ⟨cu', cell'', hcu', hcell'', -, -, -, hlast', -⟩ :=
        ht.cell hne (child_not_inside hachild _ hc hcw) hcell
      obtain rfl := Option.some.inj (hcell'.symm.trans hcell'')
      rw [hlast', if_neg]
      · exact hlast a ha cell hcell
      · rintro ⟨hparent, -⟩
        rw [(h.chain q hq).parent i cu' hcu', Option.some.injEq] at hparent
        cases hparent
        exact haw hq

theorem lastParsed_store : LastParsed doc S r doc.store := by
  intro a ha cell hcell
  obtain ⟨i, p, name, ps, children, -, -, hat, -⟩ := ha
  obtain ⟨cell', hcell', -, hlast⟩ := @Document.store_ends doc a (.inr ⟨_, hat⟩)
  obtain rfl := Option.some.inj (hcell.symm.trans hcell')
  exact hlast

/-- At the end of the walk. -/
theorem walk_orderly {site₀ site : Site} (hr : r = [] ∨ ∃ t, doc.at? r = some t)
    (hstore : site₀.doc = doc.store) (hnodes : ∀ id, site₀.nodes id = none)
    (hpermalinks : ∀ s, site₀.permalinks s = none) (hctxs : ∀ n, site₀.contexts n = none)
    (htrace : Trace (Step doc) site₀ (walkKids S r 0 (doc.kids r)) site) :
    Orderly doc S r (fun _ => False) site.doc ∧ LastParsed doc S r site.doc := by
  have hplaced := placed_walkKids (S := S) (.root (r := r)) (@kidsFrom_kids doc r)
  refine (htrace.invariant (I := fun site => Walking doc S r site ∧
      Orderly doc S r (fun _ => False) site.doc ∧ LastParsed doc S r site.doc)
    (fun s m t hm hs hstep => ?_) ⟨walking_start hr hstore hnodes hpermalinks hctxs, ?_⟩).2
  · obtain ⟨hw, h, hlast⟩ := hs
    exact ⟨walking_step s m t (hplaced m hm) hw hstep,
      orderly_step (hplaced m hm) hw h hlast hstep⟩
  · rw [hstore]
    exact ⟨orderly_store hr, lastParsed_store⟩

end VaeDb.Staging
