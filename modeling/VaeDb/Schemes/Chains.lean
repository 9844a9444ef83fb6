import Mathlib.Data.List.Sublists
import VaeDb.Schemes.Siblings

/-! Chains of siblings, and how far a walk along one can get.

    A link spells a chain if following `next` from it comes to an end: over cells that are there, to
    a null link. A chain that ends has no cell twice, so it is no longer than the heap is large. A
    link may also lead to an erased cell, or around in a circle; then it spells no chain.

        first ──▶ a ──▶ b ──▶ c ──▶ ∅        [a, b, c]
        first ──▶ a ──▶ ✂                    none
        first ──▶ a ──▶ b ──▶ a ──▶ …        none

    `NoNew` says of two heaps that the second has no cell that the first has not. -/

namespace Schemes
open Heap

universe u v

variable {ι : Type u} {β : Type v} {σ σ' σ'' : Heap ι β}

/-! ### Chains -/

/-- Following `next` from a link comes by these cells, and ends. -/
inductive Chain (σ : Heap ι β) : Option ι → List (ι × Cell ι β) → Prop
  | nil : Chain σ none []
  | cons {n : ι} {c : Cell ι β} {cells : List (ι × Cell ι β)} : σ n = some c →
      Chain σ c.next cells → Chain σ (some n) ((n, c) :: cells)

namespace Chain

variable {first : Option ι} {cells cells' : List (ι × Cell ι β)}

/-- The links determine the chain. -/
theorem unique (h : Chain σ first cells) (h' : Chain σ first cells') : cells = cells' := by
  induction h generalizing cells' with
  | nil =>
    cases h'
    rfl
  | cons hn _ ih =>
    cases h' with
    | cons hn' hrest' =>
      rw [hn, Option.some.injEq] at hn'
      subst hn'
      rw [ih hrest']

/-- What follows a member is a chain, too. -/
theorem of_mem (h : Chain σ first cells) {n : ι} {c : Cell ι β} (hmem : (n, c) ∈ cells) :
    ∃ rest, Chain σ (some n) ((n, c) :: rest) ∧ (n, c) :: rest <:+ cells := by
  induction h with
  | nil => cases hmem
  | @cons m d cells hm hrest ih =>
    rcases List.mem_cons.mp hmem with heq | hmem
    · cases heq
      exact ⟨cells, .cons hm hrest, List.suffix_rfl⟩
    · obtain ⟨rest, hchain, hsuffix⟩ := ih hmem
      exact ⟨rest, hchain, hsuffix.trans (List.suffix_cons _ _)⟩

theorem cell_eq (h : Chain σ first cells) {n : ι} {c : Cell ι β} (hmem : (n, c) ∈ cells) :
    σ n = some c := by
  obtain ⟨rest, hchain, -⟩ := h.of_mem hmem
  cases hchain with
  | cons hn _ => exact hn

/-- No cell comes twice: the chain behind it would be longer than itself. -/
theorem nodup (h : Chain σ first cells) : (cells.map Prod.fst).Nodup := by
  induction h with
  | nil => exact List.nodup_nil
  | @cons n c cells hn hrest ih =>
    rw [List.map_cons, List.nodup_cons]
    refine ⟨fun hmem => ?_, ih⟩
    obtain ⟨⟨m, d⟩, hcell, rfl⟩ := List.mem_map.mp hmem
    obtain ⟨rest, hchain, hsuffix⟩ := hrest.of_mem hcell
    have hsame := hchain.unique (.cons hn hrest)
    have hlength := hsuffix.length_le
    rw [hsame, List.length_cons] at hlength
    omega

/-- A chain is no longer than a list of all cells. -/
theorem length_le (h : Chain σ first cells) {all : List ι}
    (hall : ∀ n c, σ n = some c → n ∈ all) : cells.length ≤ all.length := by
  have hsub : cells.map Prod.fst ⊆ all := by
    intro n hn
    obtain ⟨⟨m, c⟩, hmem, rfl⟩ := List.mem_map.mp hn
    exact hall m c (h.cell_eq hmem)
  rw [← List.length_map Prod.fst]
  exact (h.nodup.subperm hsub).length_le

end Chain

/-! ### No new cells -/

variable [DecidableEq ι]

def NoNew (σ σ' : Heap ι β) : Prop := ∀ n, σ n = none → σ' n = none

omit [DecidableEq ι] in
theorem NoNew.refl (σ : Heap ι β) : NoNew σ σ := fun _ h => h

omit [DecidableEq ι] in
theorem NoNew.trans (h : NoNew σ σ') (h' : NoNew σ' σ'') : NoNew σ σ'' := fun n hn => h' n (h n hn)

omit [DecidableEq ι] in
theorem NoNew.of_sub (h : ∀ n c, σ' n = some c → ∃ d, σ n = some d) : NoNew σ σ' := by
  intro n hn
  cases hc : σ' n with
  | none => rfl
  | some c =>
    obtain ⟨d, hd⟩ := h n c hc
    rw [hn] at hd
    cases hd

theorem noNew_modify (σ : Heap ι β) (n : ι) (f : Cell ι β → Cell ι β) : NoNew σ (σ.modify n f) := by
  intro m hm
  rw [Heap.modify, hm]
  split <;> rfl

theorem noNew_modifyLink (σ : Heap ι β) (l : Option ι) (f : Cell ι β → Cell ι β) :
    NoNew σ (σ.modifyLink l f) := by
  cases l with
  | none => exact .refl σ
  | some n => exact noNew_modify σ n f

theorem noNew_addChild (σ : Heap ι β) (p n : ι) : NoNew σ (σ.addChild p n) := by
  rw [addChild]
  cases σ p with
  | none => exact .refl σ
  | some c =>
    dsimp only
    cases c.children with
    | none => exact (noNew_modify _ _ _).trans (noNew_modify _ _ _)
    | some m =>
      exact (noNew_modify _ _ _).trans ((noNew_modifyLink _ _ _).trans
        ((noNew_modify _ _ _).trans (noNew_modify _ _ _)))

theorem noNew_freeList {fuel : ℕ} {l : Option ι} (h : freeList fuel σ l = some σ') : NoNew σ σ' :=
  .of_sub fun n c hc => ⟨c, freeList_sub h n c hc⟩

theorem noNew_free_unlink {fuel : ℕ} {n : ι} (h : free fuel (σ.unlink n) n = some σ') :
    NoNew σ σ' := by
  obtain ⟨-, -, -, -, hsub, -⟩ := free_eq_some h
  refine .of_sub fun m c hc => ?_
  obtain ⟨d, hd, -⟩ := unlink_eq_some (hsub m c hc)
  exact ⟨d, hd⟩

end Schemes
