import Mathlib.Data.List.Perm.Subperm
import Mathlib.Data.Nat.Init
import Mathlib.Logic.Relation
import VaeDb.Schemes.Ends
import VaeDb.Schemes.Forests

/-! Heaps whose cells form one tree.

    Every cell but the root is the child of one other cell, and the depth grows from a cell to its
    children. Then what lies below a cell is a forest without repetition, and what lies below the root
    is everything else: freeing the children of the root comes to its end and leaves the root alone.

        root ── a ── b ── c        below the root   a d e b c
                │                  below a          d e
                d ── e                                          -/

namespace Schemes
open Heap Relation

universe u v

variable {ι : Type u} {β : Type v}

/-- `n` is a child, a child of a child and so on, of `p`. -/
def Under (kids : ι → List ι) (n p : ι) : Prop := TransGen (fun n p => n ∈ kids p) n p

/-- The cells form a tree; `kids` are the children of a cell that is there. -/
structure Hierarchy (σ : Heap ι β) (root : ι) (kids : ι → List ι) (depth : ι → ℕ) (bound : ℕ) :
    Prop where
  spells : ∀ p c, σ p = some c → σ.Spells c.children (kids p)
  nodup : ∀ p, (kids p).Nodup
  deeper : ∀ p n, n ∈ kids p → depth p < depth n
  single : ∀ p q n, n ∈ kids p → n ∈ kids q → p = q
  owned : ∀ n c, σ n = some c → n ≠ root → ∃ p d, σ p = some d ∧ n ∈ kids p
  bounded : ∀ n c, σ n = some c → depth n ≤ bound

theorem Heap.Spells.mem {σ : Heap ι β} : ∀ {l : Option ι} {L : List ι}, σ.Spells l L →
    ∀ n ∈ L, ∃ c, σ n = some c
  | _, [], _, _, hn => by cases hn
  | _, _ :: _, ⟨_, c, hc, hrest⟩, n, hn => by
      rcases List.mem_cons.mp hn with rfl | hn
      · exact ⟨c, hc⟩
      · exact hrest.mem n hn

theorem Heap.Spells.congr {σ τ : Heap ι β} : ∀ {l : Option ι} {L : List ι}, σ.Spells l L →
    (∀ n ∈ L, ∀ c, σ n = some c → ∃ d, τ n = some d ∧ d.next = c.next) → τ.Spells l L
  | _, [], h, _ => h
  | _, n :: _, ⟨hl, c, hc, hrest⟩, hsame => by
      obtain ⟨hn, hsame⟩ := List.forall_mem_cons.mp hsame
      obtain ⟨d, hd, hnext⟩ := hn c hc
      exact ⟨hl, d, hd, hnext ▸ hrest.congr hsame⟩

namespace Hierarchy

variable {σ : Heap ι β} {root : ι} {kids : ι → List ι} {depth : ι → ℕ} {bound : ℕ}

theorem depth_le (h : Hierarchy σ root kids depth bound) {n p : ι}
    (hn : ReflTransGen (fun n p => n ∈ kids p) n p) : depth p ≤ depth n := by
  induction hn with
  | refl => exact Nat.le_refl _
  | tail _ hp ih => exact Nat.le_trans (Nat.le_of_lt (h.deeper _ _ hp)) ih

theorem depth_lt (h : Hierarchy σ root kids depth bound) {n p : ι} (hn : Under kids n p) :
    depth p < depth n := by
  obtain ⟨m, hm, hp⟩ := TransGen.tail'_iff.mp hn
  exact Nat.lt_of_lt_of_le (h.deeper _ _ hp) (h.depth_le hm)

/-- Of two children of one cell, what is under the one is not under the other. -/
theorem apart (h : Hierarchy σ root kids depth bound) {p m m' n : ι} (hm : m ∈ kids p)
    (hm' : m' ∈ kids p) (hn : ReflTransGen (fun n p => n ∈ kids p) n m)
    (hn' : ReflTransGen (fun n p => n ∈ kids p) n m') : m = m' := by
  have hunique : Relator.RightUnique fun n p => n ∈ kids p := fun n p q => h.single p q n
  -- from a child of `p` one only comes to the other one by way of `p`
  have hup : ∀ {x y : ι}, x ∈ kids p → y ∈ kids p →
      ReflTransGen (fun n p => n ∈ kids p) x y → x = y := by
    intro x y hx hy hxy
    rcases ReflTransGen.cases_head hxy with heq | ⟨q, hq, hqy⟩
    · exact heq
    · rw [h.single q p x hq hx] at hqy
      exact absurd (h.depth_le hqy) (Nat.not_le_of_lt (h.deeper p y hy))
  rcases hn.total_of_right_unique hunique hn' with hmm | hmm
  · exact hup hm hm' hmm
  · exact (hup hm' hm hmm).symm

/-- A list of children, each of them with what is below it. -/
theorem forest_list (h : Hierarchy σ root kids depth bound) {p : ι} :
    ∀ {L : List ι} {l : Option ι}, σ.Spells l L → L.Nodup → (∀ m ∈ L, m ∈ kids p) →
      (∀ m ∈ L, ∀ c, σ m = some c →
        ∃ ns, Forest σ c.children ns ∧ ns.Nodup ∧ ∀ n, n ∈ ns ↔ Under kids n m) →
      ∃ ns, Forest σ l ns ∧ ns.Nodup ∧
        ∀ n, n ∈ ns ↔ ∃ m ∈ L, ReflTransGen (fun n p => n ∈ kids p) n m
  | [], _, hspells, _, _, _ => ⟨[], hspells ▸ .nil, List.nodup_nil, by simp⟩
  | m :: L, _, ⟨hl, c, hc, hrest⟩, hnodup, hkids, hforest => by
      obtain ⟨hnot, hnodup⟩ := List.nodup_cons.mp hnodup
      obtain ⟨hm, hkids⟩ := List.forall_mem_cons.mp hkids
      obtain ⟨hbelow, hforest⟩ := List.forall_mem_cons.mp hforest
      obtain ⟨below, hbelow, hnodupBelow, hmemBelow⟩ := hbelow c hc
      obtain ⟨rest, hrest, hnodupRest, hmemRest⟩ := h.forest_list hrest hnodup hkids hforest
      -- what comes after `m` is not under `m`
      have hapart : ∀ n ∈ rest, ¬ ReflTransGen (fun n p => n ∈ kids p) n m := by
        intro n hn hnm
        obtain ⟨m', hm', hnm'⟩ := (hmemRest n).mp hn
        exact hnot (h.apart hm (hkids m' hm') hnm hnm' ▸ hm')
      refine ⟨m :: (below ++ rest), hl ▸ .cons hc hbelow hrest, ?_, fun n => ?_⟩
      · refine List.nodup_cons.mpr ⟨fun hmem => ?_, List.nodup_append.mpr
          ⟨hnodupBelow, hnodupRest, ?_⟩⟩
        · rcases List.mem_append.mp hmem with hmem | hmem
          · exact absurd (h.depth_lt ((hmemBelow m).mp hmem)) (Nat.lt_irrefl _)
          · exact hapart m hmem .refl
        · rintro n hn _ hn' rfl
          exact hapart n hn' ((hmemBelow n).mp hn).to_reflTransGen
      · rw [List.mem_cons, List.mem_append, hmemBelow, hmemRest, List.exists_mem_cons_iff,
          ← or_assoc]
        refine or_congr_left ?_
        rw [reflTransGen_iff_eq_or_transGen, eq_comm]
        rfl

/-- What lies below a cell. -/
theorem forest (h : Hierarchy σ root kids depth bound) {p : ι} {c : Cell ι β} (hc : σ p = some c) :
    ∃ ns, Forest σ c.children ns ∧ ns.Nodup ∧ ∀ n, n ∈ ns ↔ Under kids n p := by
  induction hk : bound - depth p using Nat.strong_induction_on generalizing p c with
  | _ k ih =>
    subst hk
    have hspells := h.spells p c hc
    obtain ⟨ns, hns, hnodup, hmem⟩ := h.forest_list hspells (h.nodup p) (fun _ hm => hm)
      fun m hm d hd => ih _ (by
        have hlt := h.deeper p m hm
        have hle := h.bounded m d hd
        omega) hd rfl
    refine ⟨ns, hns, hnodup, fun n => (hmem n).trans ?_⟩
    rw [Under, TransGen.tail'_iff]
    exact exists_congr fun m => and_comm

/-- Every cell but the root lies under it. -/
theorem under_root (h : Hierarchy σ root kids depth bound) {n : ι} {c : Cell ι β}
    (hc : σ n = some c) (hn : n ≠ root) : Under kids n root := by
  induction hk : depth n using Nat.strong_induction_on generalizing n c with
  | _ k ih =>
    subst hk
    obtain ⟨p, d, hd, hp⟩ := h.owned n c hc hn
    rcases eq_or_ne p root with rfl | hroot
    · exact .single hp
    · exact .head hp (ih _ (h.deeper p n hp) hd hroot rfl)

/-- What lies under a cell is there. -/
theorem there (h : Hierarchy σ root kids depth bound) {n p : ι} {c : Cell ι β} (hc : σ p = some c)
    (hn : Under kids n p) : ∃ d, σ n = some d := by
  obtain ⟨ns, hns, -, hmem⟩ := h.forest hc
  exact hns.there n ((hmem n).mpr hn)

/-- The data of the cells do not matter. -/
theorem of_map {γ : Type*} {g : β → γ} (h : Hierarchy (Heap.map g σ) root kids depth bound) :
    Hierarchy σ root kids depth bound where
  spells p c hc := Heap.spells_map.mp (h.spells p _ (Heap.map_of_some hc))
  nodup := h.nodup
  deeper := h.deeper
  single := h.single
  owned n c hc hn := by
    obtain ⟨p, _, hp, hmem⟩ := h.owned n _ (Heap.map_of_some hc) hn
    obtain ⟨d, hd, -⟩ := Option.map_eq_some_iff.mp hp
    exact ⟨p, d, hd, hmem⟩
  bounded n c hc := h.bounded n _ (Heap.map_of_some hc)

variable [DecidableEq ι]

/-- Freeing the children of the root leaves nothing but the root. -/
theorem freeListEach {α : Type*} {give : α → ι → Cell ι β → Option α} {P : α → ι → Prop} {a : α}
    (h : Hierarchy σ root kids depth bound)
    (hgive : ∀ a n c, σ n = some c → P a n →
      ∃ a', give a n c = some a' ∧ ∀ m, m ≠ n → P a m → P a' m)
    (hP : ∀ n d, σ n = some d → P a n) {c : Cell ι β} (hc : σ root = some c)
    {nodes : List ι} (hnodes : ∀ n d, σ n = some d → n ∈ nodes) {fuel : ℕ}
    (hfuel : nodes.length ≤ fuel) :
    ∃ σ' a', Heap.freeListEach give fuel σ a c.children = some (σ', a') ∧
      ∀ n, n ≠ root → σ' n = none := by
  obtain ⟨ns, hns, hnodup, hmem⟩ := h.forest hc
  have hsub : ns ⊆ nodes := fun n hn => by
    obtain ⟨d, hd⟩ := h.there hc ((hmem n).mp hn)
    exact hnodes n d hd
  have hPns : ∀ n ∈ ns, P a n := fun n hn => by
    obtain ⟨d, hd⟩ := h.there hc ((hmem n).mp hn)
    exact hP n d hd
  obtain ⟨σ', a', hfree, -, -⟩ := hns.freeListEach hgive (fun _ _ => rfl) hnodup
    (Nat.le_trans (hnodup.subperm hsub).length_le hfuel) hPns
  obtain ⟨hgone, hkeep⟩ := hns.freed (fun _ _ => rfl) hnodup (freeList_of_each hfree)
  refine ⟨σ', a', hfree, fun n hn => ?_⟩
  by_cases hin : n ∈ ns
  · exact hgone n hin
  · rw [hkeep n hin]
    cases hcell : σ n with
    | none => rfl
    | some d => exact absurd ((hmem n).mpr (h.under_root hcell hn)) hin

end Hierarchy

end Schemes
