import VaeDb.Schemes.Siblings

/-! The two ends of a list of children: the links `children` and `last` of a cell.

    A cell that copies the ends of another one shares its list. Of the operations on lists only those
    on the list itself move its ends, and only the ends of its owner: `unlink` and `addChild` leave
    those of a copy behind.

        p ── children ──▶ a ◀──▶ b ◀──▶ c ◀── last ── p
                          ▲             ▲
        copy ─ children ──┘             └── last ── copy       -/

namespace Schemes

universe u v

variable {ι : Type u} {β : Type v}

/-- The first and the last child of a cell. -/
def Heap.ends (σ : Heap ι β) (n : ι) : Option (Option ι × Option ι) :=
  (σ n).map fun c => (c.children, c.last)

/-- From a link on, `next` spells the list `L` up to the null link. -/
def Heap.Spells (σ : Heap ι β) : Option ι → List ι → Prop
  | l, [] => l = none
  | l, n :: L => l = some n ∧ ∃ c, σ n = some c ∧ Heap.Spells σ c.next L

open Heap

variable {σ σ' : Heap ι β} {p n u : ι} {L : List ι} {c : Cell ι β}

theorem Heap.ends_of_eq (h : σ n = some c) : σ.ends n = some (c.children, c.last) := by
  rw [Heap.ends, h]
  rfl

theorem Heap.ends_congr (h : σ' n = σ n) : σ'.ends n = σ.ends n := by
  rw [Heap.ends, Heap.ends, h]

theorem Heap.ends_eq_some {e : Option ι × Option ι} :
    σ.ends n = some e ↔ ∃ c, σ n = some c ∧ c.children = e.1 ∧ c.last = e.2 := by
  simp [Heap.ends, Prod.ext_iff]

theorem Linked.ends_eq (h : Linked σ p L) : σ.ends p = some (L.head?, L.getLast?) := by
  obtain ⟨c, hc, hchildren, hlast⟩ := h.ends
  rw [Heap.ends_of_eq hc, hchildren, hlast]

/-- A walk over the children, from any link to the first of them. -/
theorem Linked.spells (h : Linked σ p L) : σ.Spells L.head? L := by
  have hwalk : ∀ A B, L = A ++ B → σ.Spells B.head? B := by
    intro A B
    induction B generalizing A with
    | nil => exact fun _ => rfl
    | cons n B ih =>
      intro hsplit
      obtain ⟨c, hc, -, -, hnext⟩ := h.member A n B hsplit
      refine ⟨rfl, c, hc, ?_⟩
      rw [hnext]
      exact ih (A ++ [n]) (by simpa using hsplit)
  exact hwalk [] L rfl

variable [DecidableEq ι]

/-- Taking `u` out moves the ends of its parent only. -/
theorem Heap.ends_unlink (hc : σ u = some c) (hn : n ≠ u) :
    (σ.unlink u).ends n = if c.parent = some n then (σ.ends n).map fun e =>
        (if e.1 = some u then c.next else e.1, if e.2 = some u then c.prev else e.2)
      else σ.ends n := by
  rw [Heap.ends, Heap.ends, unlink_of_ne hc hn]
  by_cases hparent : c.parent = some n
  · rw [if_pos hparent]
    cases σ n <;> simp [hparent]
  · rw [if_neg hparent]
    cases σ n <;> simp [hparent]

/-- Appending `n` moves the ends of its new parent only. -/
theorem Heap.ends_addChild (hc : σ p = some c) (hpn : p ≠ n) (m : ι) :
    (σ.addChild p n).ends m = if m = p then
        some (if c.children = none then some n else c.children, some n)
      else σ.ends m := by
  rw [Heap.ends, Heap.ends, addChild_apply hc hpn]
  by_cases hm : m = p
  · rw [if_pos hm, hm, hc]
    cases hchildren : c.children <;> simp [hchildren]
  · rw [if_neg hm]
    cases σ m <;> simp [hm]

theorem Heap.ends_update (n : ι) (c : Cell ι β) (m : ι) :
    Heap.ends (Function.update σ n (some c)) m =
      if m = n then some (c.children, c.last) else σ.ends m := by
  rw [Heap.ends, Heap.ends, Function.update_apply]
  split <;> rfl

/-! ### Ends do not depend on data -/

section Data

variable {γ : Type*} {g : β → γ}

omit [DecidableEq ι]

theorem Heap.ends_map (n : ι) : (Heap.map g σ).ends n = σ.ends n := by
  rw [Heap.ends, Heap.ends, Heap.map, Option.map_map]
  rfl

theorem Heap.spells_map : ∀ {l : Option ι} {L : List ι},
    (Heap.map g σ).Spells l L ↔ σ.Spells l L
  | l, [] => Iff.rfl
  | l, n :: L => by
      simp only [Heap.Spells, Heap.map, Option.map_eq_some_iff]
      refine and_congr_right fun _ => ⟨?_, ?_⟩
      · rintro ⟨_, ⟨c, hc, rfl⟩, hspells⟩
        exact ⟨c, hc, Heap.spells_map.mp hspells⟩
      · rintro ⟨c, hc, hspells⟩
        exact ⟨_, ⟨c, hc, rfl⟩, Heap.spells_map.mpr hspells⟩

theorem linked_map : Linked (Heap.map g σ) p L ↔ Linked σ p L := by
  constructor
  · rintro ⟨hnodup, ⟨_, hp, hends⟩, hmember⟩
    obtain ⟨c, hc, rfl⟩ := Option.map_eq_some_iff.mp hp
    refine ⟨hnodup, ⟨c, hc, hends⟩, fun A n B hL => ?_⟩
    obtain ⟨_, hn, hlinks⟩ := hmember A n B hL
    obtain ⟨d, hd, rfl⟩ := Option.map_eq_some_iff.mp hn
    exact ⟨d, hd, hlinks⟩
  · rintro ⟨hnodup, ⟨c, hc, hends⟩, hmember⟩
    refine ⟨hnodup, ⟨_, Heap.map_of_some hc, hends⟩, fun A n B hL => ?_⟩
    obtain ⟨d, hd, hlinks⟩ := hmember A n B hL
    exact ⟨_, Heap.map_of_some hd, hlinks⟩

end Data

end Schemes
