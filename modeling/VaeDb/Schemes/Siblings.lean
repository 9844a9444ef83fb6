import Mathlib.Data.List.Induction
import Mathlib.Data.List.Nodup
import Mathlib.Data.Nat.Notation
import Mathlib.Logic.Function.Basic
import Mathlib.Logic.Relation
import Mathlib.Tactic.Common

/-! Sibling lists in a heap of cells.

    A cell knows its parent, its first and last child and its two siblings; the children of a cell
    form a doubly linked list. `unlink` takes a cell out of its list, `addChild` appends one, `free`
    erases a cell and everything below it by walking the links.

            p ── children ──▶ a ◀──▶ b ◀──▶ c ◀── last ── p

    `unlink` and `addChild` say what is written through the links that lead somewhere. A program that
    follows a link to a cell that is not there is undefined: `unlink?` and `addChild?` are `none`.

    `Linked σ p L` says that the links of `p` and of its children spell the list `L`. The operations
    are read off as list operations: `unlink` removes one member, `addChild` appends one, and a
    change elsewhere in the heap leaves the list alone. -/

namespace Schemes

universe u v

variable {ι : Type u} {β : Type v} [DecidableEq ι]

/-- A cell with its links. -/
structure Cell (ι : Type u) (β : Type v) where
  parent : Option ι
  children : Option ι
  last : Option ι
  next : Option ι
  prev : Option ι
  data : β

/-- A heap: `none` where nothing is allocated (any more). -/
abbrev Heap (ι : Type u) (β : Type v) := ι → Option (Cell ι β)

namespace Heap

/-- Change the cell `n`, if it is there. -/
def modify (σ : Heap ι β) (n : ι) (f : Cell ι β → Cell ι β) : Heap ι β :=
  fun m => if m = n then (σ m).map f else σ m

/-- The cell that a link leads to, changed, if the link leads to one. -/
def modifyLink (σ : Heap ι β) : Option ι → (Cell ι β → Cell ι β) → Heap ι β
  | none, _ => σ
  | some n, f => σ.modify n f

def erase (σ : Heap ι β) (n : ι) : Heap ι β := Function.update σ n none

@[simp] theorem modify_self (σ : Heap ι β) (n : ι) (f : Cell ι β → Cell ι β) :
    σ.modify n f n = (σ n).map f := if_pos rfl

theorem modify_of_ne (σ : Heap ι β) {n m : ι} (f : Cell ι β → Cell ι β) (h : m ≠ n) :
    σ.modify n f m = σ m := if_neg h

@[simp] theorem erase_self (σ : Heap ι β) (n : ι) : σ.erase n n = none := Function.update_self ..

theorem erase_of_ne (σ : Heap ι β) {n m : ι} (h : m ≠ n) : σ.erase n m = σ m :=
  Function.update_of_ne h ..

theorem modifyLink_apply (σ : Heap ι β) (l : Option ι) (f : Cell ι β → Cell ι β) (m : ι) :
    σ.modifyLink l f m = if l = some m then (σ m).map f else σ m := by
  cases l with
  | none => simp [modifyLink]
  | some n => simp [modifyLink, modify, eq_comm]

/-- Take `u` out of the list it is in. -/
def unlink (σ : Heap ι β) (u : ι) : Heap ι β :=
  match σ u with
  | none => σ
  | some c =>
    let σ := σ.modifyLink c.parent fun q => { q with
      children := if q.children = some u then c.next else q.children
      last := if q.last = some u then c.prev else q.last }
    let σ := σ.modifyLink c.next fun d => { d with prev := c.prev }
    let σ := σ.modifyLink c.prev fun d => { d with next := c.next }
    σ.modify u fun d => { d with parent := none, next := none, prev := none }

/-- Append the cell `n` to the children of `p`. -/
def addChild (σ : Heap ι β) (p n : ι) : Heap ι β :=
  match σ p with
  | none => σ
  | some c =>
    let σ := σ.modify n fun d => { d with parent := some p }
    match c.children with
    | none => σ.modify p fun q => { q with children := some n, last := some n }
    | some _ =>
      let σ := σ.modifyLink c.last fun d => { d with next := some n }
      let σ := σ.modify n fun d => { d with prev := c.last }
      σ.modify p fun q => { q with last := some n }

/-- A link is null, or leads to a cell. -/
def leads (σ : Heap ι β) : Option ι → Bool
  | none => true
  | some n => (σ n).isSome

/-- `unlink`, unless it writes through a link to a cell that is not there. -/
def unlink? (σ : Heap ι β) (u : ι) : Option (Heap ι β) :=
  match σ u with
  | none => none
  | some c =>
    if σ.leads c.parent && σ.leads c.next && σ.leads c.prev then some (σ.unlink u) else none

/-- `addChild`, unless there is no last child to put the new one behind, though there are some. -/
def addChild? (σ : Heap ι β) (p n : ι) : Option (Heap ι β) :=
  match σ p, σ n with
  | some c, some _ =>
    if c.children.isNone || c.last.isSome && σ.leads c.last then some (σ.addChild p n) else none
  | _, _ => none

/-- Erase every cell of the list that starts at a link, each after the cells below it. `none` where
    a link leads to a cell that is not there, or where the walk is longer than `fuel`. -/
def freeList : ℕ → Heap ι β → Option ι → Option (Heap ι β)
  | _, σ, none => some σ
  | 0, _, some _ => none
  | fuel + 1, σ, some n =>
    match σ n with
    | none => none
    | some c =>
      match freeList fuel σ c.children with
      | none => none
      | some σ => freeList fuel (σ.erase n) c.next

/-- Erase a cell and everything below it. -/
def free (fuel : ℕ) (σ : Heap ι β) (n : ι) : Option (Heap ι β) :=
  match σ n with
  | none => none
  | some c =>
    match freeList fuel σ c.children with
    | none => none
    | some σ => some (σ.erase n)

section Each

variable {α : Type*} (give : α → ι → Cell ι β → Option α)

/-- `freeList` where each cell gives up something else before it is erased. -/
def freeListEach : ℕ → Heap ι β → α → Option ι → Option (Heap ι β × α)
  | _, σ, a, none => some (σ, a)
  | 0, _, _, some _ => none
  | fuel + 1, σ, a, some n =>
    (σ n).bind fun c => (freeListEach fuel σ a c.children).bind fun below =>
      (give below.2 n c).bind fun a => freeListEach fuel (below.1.erase n) a c.next

def freeEach (fuel : ℕ) (σ : Heap ι β) (a : α) (n : ι) : Option (Heap ι β × α) :=
  (σ n).bind fun c => (freeListEach give fuel σ a c.children).bind fun below =>
    (give below.2 n c).map fun a => (below.1.erase n, a)

end Each

end Heap

open Heap

/-! ### Where the links lead -/

theorem unlink?_eq_some {σ σ' : Heap ι β} {u : ι} : σ.unlink? u = some σ' ↔
    (∃ c, σ u = some c ∧ σ.leads c.parent ∧ σ.leads c.next ∧ σ.leads c.prev) ∧ σ' = σ.unlink u := by
  rw [unlink?]
  cases σ u with
  | none => simp
  | some c =>
    dsimp only
    split
    · next h =>
      rw [Bool.and_eq_true, Bool.and_eq_true] at h
      rw [Option.some.injEq, and_iff_right ⟨c, rfl, h.1.1, h.1.2, h.2⟩, eq_comm]
    · next h =>
      rw [Bool.and_eq_true, Bool.and_eq_true] at h
      refine iff_of_false (by simp) ?_
      rintro ⟨⟨_, ⟨⟩, hparent, hnext, hprev⟩, -⟩
      exact h ⟨⟨hparent, hnext⟩, hprev⟩

theorem addChild?_eq_some {σ σ' : Heap ι β} {p n : ι} : σ.addChild? p n = some σ' ↔
    (∃ c, σ p = some c ∧ (∃ d, σ n = some d) ∧
      (c.children ≠ none → ∃ last d, c.last = some last ∧ σ last = some d)) ∧
      σ' = σ.addChild p n := by
  rw [addChild?]
  cases σ p with
  | none => simp
  | some c =>
    cases σ n with
    | none => simp
    | some d =>
      cases hchildren : c.children with
      | none => simp [hchildren, eq_comm]
      | some first =>
        cases hlast : c.last with
        | none => simp [hchildren, hlast]
        | some last => cases hd : σ last <;> simp [hchildren, hlast, leads, hd, eq_comm]

/-! ### What freeing leaves alone -/

section Each

variable {α : Type*} {give : α → ι → Cell ι β → Option α}

/-- What the cells give up does not change what is erased. -/
theorem freeList_of_each : ∀ {fuel : ℕ} {σ σ' : Heap ι β} {a a' : α} {l : Option ι},
    freeListEach give fuel σ a l = some (σ', a') → freeList fuel σ l = some σ'
  | fuel, σ, σ', a, a', none, h => by
      rw [freeListEach, Option.some.injEq] at h
      cases h
      rw [freeList]
  | 0, σ, σ', a, a', some n, h => by cases h
  | fuel + 1, σ, σ', a, a', some n, h => by
      rw [freeListEach] at h
      obtain ⟨c, hc, h₁⟩ := Option.bind_eq_some_iff.mp h
      obtain ⟨⟨σ₁, a₁⟩, hchildren, h₂⟩ := Option.bind_eq_some_iff.mp h₁
      obtain ⟨a₂, -, h₃⟩ := Option.bind_eq_some_iff.mp h₂
      rw [freeList, hc]
      dsimp only
      rw [freeList_of_each hchildren]
      exact freeList_of_each h₃

theorem free_of_each {fuel : ℕ} {σ σ' : Heap ι β} {a a' : α} {n : ι}
    (h : freeEach give fuel σ a n = some (σ', a')) : free fuel σ n = some σ' := by
  obtain ⟨c, hc, h₁⟩ := Option.bind_eq_some_iff.mp h
  obtain ⟨⟨σ₁, a₁⟩, hchildren, h₂⟩ := Option.bind_eq_some_iff.mp h₁
  obtain ⟨a₂, -, h₃⟩ := Option.map_eq_some_iff.mp h₂
  cases h₃
  rw [free, hc]
  dsimp only
  rw [freeList_of_each hchildren]

variable {G : Heap ι β → α → Prop}

/-- What is kept whenever a cell gives up what it has and is erased, is kept by freeing a list. -/
theorem freeListEach_keeps (hstep : ∀ σ a n c a', G σ a → give a n c = some a' →
      (∃ τ b, G τ b ∧ τ n = some c) → G (σ.erase n) a') :
    ∀ {fuel : ℕ} {σ σ' : Heap ι β} {a a' : α} {l : Option ι},
      freeListEach give fuel σ a l = some (σ', a') → G σ a → G σ' a'
  | fuel, σ, σ', a, a', none, h, hG => by
      rw [freeListEach, Option.some.injEq] at h
      cases h
      exact hG
  | 0, σ, σ', a, a', some n, h, _ => by cases h
  | fuel + 1, σ, σ', a, a', some n, h, hG => by
      rw [freeListEach] at h
      obtain ⟨c, hc, h₁⟩ := Option.bind_eq_some_iff.mp h
      obtain ⟨⟨σ₁, a₁⟩, hchildren, h₂⟩ := Option.bind_eq_some_iff.mp h₁
      obtain ⟨a₂, hgive, h₃⟩ := Option.bind_eq_some_iff.mp h₂
      have hbelow := freeListEach_keeps hstep hchildren hG
      exact freeListEach_keeps hstep h₃ (hstep σ₁ a₁ n c a₂ hbelow hgive ⟨σ, a, hG, hc⟩)

theorem freeEach_keeps (hstep : ∀ σ a n c a', G σ a → give a n c = some a' →
      (∃ τ b, G τ b ∧ τ n = some c) → G (σ.erase n) a') {fuel : ℕ} {σ σ' : Heap ι β} {a a' : α}
    {n : ι} (h : freeEach give fuel σ a n = some (σ', a')) (hG : G σ a) : G σ' a' := by
  obtain ⟨c, hc, h₁⟩ := Option.bind_eq_some_iff.mp h
  obtain ⟨⟨σ₁, a₁⟩, hchildren, h₂⟩ := Option.bind_eq_some_iff.mp h₁
  obtain ⟨a₂, hgive, h₃⟩ := Option.map_eq_some_iff.mp h₂
  cases h₃
  exact hstep σ₁ a₁ n c a' (freeListEach_keeps hstep hchildren hG) hgive ⟨σ, a, hG, hc⟩

end Each

/-- Links out of the cells of `S` stay in `S`. -/
def ClosedUnder (σ : Heap ι β) (S : ι → Prop) : Prop :=
  ∀ n c, S n → σ n = some c → (∀ m ∈ c.children, S m) ∧ ∀ m ∈ c.next, S m

omit [DecidableEq ι] in
theorem ClosedUnder.mono {σ σ' : Heap ι β} {S : ι → Prop} (h : ClosedUnder σ S)
    (hle : ∀ n c, S n → σ' n = some c → σ n = some c) : ClosedUnder σ' S :=
  fun n c hn hc => h n c hn (hle n c hn hc)

theorem erase_sub {σ σ' : Heap ι β} {n : ι} (h : ∀ m c, σ' m = some c → σ m = some c) (m : ι)
    (c : Cell ι β) (hc : σ'.erase n m = some c) : σ m = some c := by
  rcases eq_or_ne m n with rfl | hne
  · rw [erase_self] at hc
    cases hc
  · rw [erase_of_ne _ hne] at hc
    exact h m c hc

/-- Freeing only erases cells. -/
theorem freeList_sub : ∀ {fuel : ℕ} {σ σ' : Heap ι β} {l : Option ι},
    freeList fuel σ l = some σ' → ∀ n c, σ' n = some c → σ n = some c
  | fuel, σ, σ', none, h => by
      rw [freeList, Option.some.injEq] at h
      subst h
      exact fun _ _ hc => hc
  | 0, _, _, some _, h => by cases h
  | fuel + 1, σ, σ', some n, h => by
      rw [freeList] at h
      split at h
      · cases h
      split at h
      · cases h
      · next σ₁ hσ₁ =>
        intro m c hc
        exact erase_sub (freeList_sub hσ₁) m c (freeList_sub h m c hc)

/-- Freeing a list erases its first cell. -/
theorem freeList_first {fuel : ℕ} {σ σ' : Heap ι β} {n : ι}
    (h : freeList fuel σ (some n) = some σ') : σ' n = none := by
  cases fuel with
  | zero => cases h
  | succ fuel =>
    rw [freeList] at h
    split at h
    · cases h
    split at h
    · cases h
    · cases hn : σ' n with
      | none => rfl
      | some c =>
        have hc := freeList_sub h n c hn
        rw [erase_self] at hc
        cases hc

/-- Freeing a list inside a closed set only touches that set. -/
theorem freeList_frame {S : ι → Prop} : ∀ {fuel : ℕ} {σ σ' : Heap ι β} {l : Option ι},
    ClosedUnder σ S → (∀ n ∈ l, S n) → freeList fuel σ l = some σ' → ∀ n, ¬ S n → σ' n = σ n
  | fuel, σ, σ', none, _, _, h => by
      rw [freeList, Option.some.injEq] at h
      subst h
      exact fun _ _ => rfl
  | 0, _, _, some _, _, _, h => by cases h
  | fuel + 1, σ, σ', some n, hS, hl, h => by
      rw [freeList] at h
      split at h
      · cases h
      · next c hc =>
        split at h
        · cases h
        · next σ₁ hσ₁ =>
          have hn : S n := hl n rfl
          obtain ⟨hchild, hnext⟩ := hS n c hn hc
          have hout₁ := freeList_frame hS hchild hσ₁
          have hclosed : ClosedUnder (σ₁.erase n) S :=
            hS.mono fun m d _ hd => erase_sub (freeList_sub hσ₁) m d hd
          intro m hm
          have hne : m ≠ n := fun heq => hm (heq ▸ hn)
          rw [freeList_frame hclosed hnext h m hm, erase_of_ne _ hne, hout₁ m hm]

/-- One child link or one link to the next sibling. -/
def Heap.Link (σ : Heap ι β) (n m : ι) : Prop :=
  ∃ c, σ n = some c ∧ (c.children = some m ∨ c.next = some m)

/-- Freeing a list finds its first cell, and erases it. -/
theorem freeList_head {fuel : ℕ} {σ σ' : Heap ι β} {n : ι}
    (h : freeList fuel σ (some n) = some σ') : (∃ c, σ n = some c) ∧ σ' n = none := by
  refine ⟨?_, freeList_first h⟩
  cases fuel with
  | zero => cases h
  | succ fuel =>
    rw [freeList] at h
    split at h
    · cases h
    · next c hc => exact ⟨c, hc⟩

/-- A cell that is erased takes along what its links lead to, and finds it there. -/
theorem freeList_link : ∀ {fuel : ℕ} {σ σ' : Heap ι β} {l : Option ι},
    freeList fuel σ l = some σ' → ∀ {n m : ι}, σ' n = none → σ.Link n m →
      (∃ c, σ m = some c) ∧ σ' m = none
  | fuel, σ, σ', none, h, n, m, hn, ⟨c, hc, _⟩ => by
      rw [freeList, Option.some.injEq] at h
      rw [h, hn] at hc
      cases hc
  | 0, _, _, some _, h, _, _, _, _ => by cases h
  | fuel + 1, σ, σ', some x, h, n, m, hn, hlink => by
      obtain ⟨c, hc, hm⟩ := hlink
      rw [freeList] at h
      split at h
      · cases h
      · next d hd =>
        split at h
        · cases h
        · next σ₁ hσ₁ =>
          have hgone : ∀ y, σ₁ y = none → σ' y = none := by
            intro y hy
            refine Option.eq_none_iff_forall_not_mem.mpr fun e he => ?_
            have hy' := erase_sub (fun _ _ h => h) y e (freeList_sub h y e he)
            rw [hy] at hy'
            cases hy'
          have hthere : ∀ y, (∃ e, σ₁.erase x y = some e) → ∃ e, σ y = some e :=
            fun y ⟨e, he⟩ => ⟨e, erase_sub (freeList_sub hσ₁) y e he⟩
          rcases eq_or_ne n x with rfl | hne
          · -- the first cell: its children go before it, what follows after it
            obtain rfl := Option.some.inj (hc.symm.trans hd)
            rcases hm with hm | hm
            · rw [hm] at hσ₁
              exact ⟨(freeList_head hσ₁).1, hgone m (freeList_head hσ₁).2⟩
            · rw [hm] at h
              exact ⟨hthere m (freeList_head h).1, (freeList_head h).2⟩
          · cases hn₁ : σ₁ n with
            | none =>
              obtain ⟨hσm, hσ₁m⟩ := freeList_link hσ₁ hn₁ ⟨c, hc, hm⟩
              exact ⟨hσm, hgone m hσ₁m⟩
            | some e =>
              obtain rfl := Option.some.inj ((freeList_sub hσ₁ n e hn₁).symm.trans hc)
              have hlink : (σ₁.erase x).Link n m := ⟨e, by rw [erase_of_ne _ hne, hn₁], hm⟩
              obtain ⟨hσm, hσ'm⟩ := freeList_link h hn hlink
              exact ⟨hthere m hσm, hσ'm⟩

/-- Everything that links reach from the first cell of a list is erased with the list. -/
theorem freeList_reach {fuel : ℕ} {σ σ' : Heap ι β} {n m : ι}
    (h : freeList fuel σ (some n) = some σ') (hm : Relation.ReflTransGen σ.Link n m) :
    (∃ c, σ m = some c) ∧ σ' m = none := by
  induction hm with
  | refl => exact freeList_head h
  | tail _ hlink ih => exact freeList_link h ih.2 hlink

/-- What freeing one cell does: it is gone, its first child is gone, no cell is new, and outside a
    closed set around its children nothing else has changed. -/
theorem free_eq_some {fuel : ℕ} {σ σ' : Heap ι β} {n : ι} (h : free fuel σ n = some σ') :
    ∃ c, σ n = some c ∧ σ' n = none ∧ (∀ m ∈ c.children, σ' m = none) ∧
      (∀ m d, σ' m = some d → σ m = some d) ∧
      ∀ S : ι → Prop, ClosedUnder σ S → (∀ m ∈ c.children, S m) → ∀ m, m ≠ n → ¬ S m →
        σ' m = σ m := by
  rw [free] at h
  split at h
  · cases h
  · next c hc =>
    split at h
    · cases h
    · next σ₁ hσ₁ =>
      cases h
      refine ⟨c, hc, erase_self .., fun m hm => ?_, erase_sub (freeList_sub hσ₁), ?_⟩
      · rw [Option.mem_def] at hm
        rw [hm] at hσ₁
        cases hd : σ₁.erase n m with
        | none => rfl
        | some d =>
          have hd' := erase_sub (fun _ _ hx => hx) m d hd
          rw [freeList_first hσ₁] at hd'
          cases hd'
      · intro S hS hchildren m hne hm
        rw [erase_of_ne _ hne, freeList_frame hS hchildren hσ₁ m hm]

/-! ### Linked lists of children -/

/-- The links of `p` and of its children spell the list `L`. -/
structure Linked (σ : Heap ι β) (p : ι) (L : List ι) : Prop where
  nodup : L.Nodup
  ends : ∃ c, σ p = some c ∧ c.children = L.head? ∧ c.last = L.getLast?
  member : ∀ A n B, L = A ++ n :: B →
    ∃ c, σ n = some c ∧ c.parent = some p ∧ c.prev = A.getLast? ∧ c.next = B.head?

namespace Linked

variable {σ σ' : Heap ι β} {p : ι} {L : List ι}

omit [DecidableEq ι] in
theorem member_of_mem (h : Linked σ p L) {n : ι} (hn : n ∈ L) :
    ∃ c, σ n = some c ∧ c.parent = some p ∧ ∀ m ∈ c.next, m ∈ L := by
  obtain ⟨A, B, rfl⟩ := List.append_of_mem hn
  obtain ⟨c, hc, hparent, -, hnext⟩ := h.member A n B rfl
  refine ⟨c, hc, hparent, fun m hm => ?_⟩
  rw [hnext] at hm
  exact List.mem_append_right _ (List.mem_cons_of_mem _ (List.mem_of_mem_head? hm))

omit [DecidableEq ι] in
/-- The list only depends on the two ends in `p` and on the three links of its members. -/
theorem congr (h : Linked σ p L)
    (hp : ∀ c, σ p = some c → ∃ c', σ' p = some c' ∧ c'.children = c.children ∧ c'.last = c.last)
    (hL : ∀ n ∈ L, ∀ c, σ n = some c →
      ∃ c', σ' n = some c' ∧ c'.parent = c.parent ∧ c'.prev = c.prev ∧ c'.next = c.next) :
    Linked σ' p L := by
  refine ⟨h.nodup, ?_, fun A n B hsplit => ?_⟩
  · obtain ⟨c, hc, hhead, hlast⟩ := h.ends
    obtain ⟨c', hc', hchildren', hlast'⟩ := hp c hc
    exact ⟨c', hc', hchildren'.trans hhead, hlast'.trans hlast⟩
  · obtain ⟨c, hc, hparent, hprev, hnext⟩ := h.member A n B hsplit
    obtain ⟨c', hc', hparent', hprev', hnext'⟩ := hL n (by rw [hsplit]; simp) c hc
    exact ⟨c', hc', hparent'.trans hparent, hprev'.trans hprev, hnext'.trans hnext⟩

end Linked

/-! ### Taking a member out -/

/-- What `unlink` writes into a cell other than the one taken out. -/
theorem unlink_of_ne {σ : Heap ι β} {u n : ι} {c : Cell ι β} (hc : σ u = some c) (hne : n ≠ u) :
    σ.unlink u n = (σ n).map fun d => { d with
      children := if c.parent = some n ∧ d.children = some u then c.next else d.children
      last := if c.parent = some n ∧ d.last = some u then c.prev else d.last
      prev := if c.next = some n then c.prev else d.prev
      next := if c.prev = some n then c.next else d.next } := by
  simp only [unlink, hc, modify_of_ne _ _ hne, modifyLink_apply]
  cases σ n with
  | none => simp
  | some d => by_cases h₁ : c.parent = some n <;> by_cases h₂ : c.next = some n <;>
      by_cases h₃ : c.prev = some n <;> simp [h₁, h₂, h₃]

/-- Unlinking makes no cell, and keeps the data of every cell. -/
theorem unlink_eq_some {σ : Heap ι β} {u n : ι} {d' : Cell ι β} (h : σ.unlink u n = some d') :
    ∃ d, σ n = some d ∧ d'.data = d.data := by
  cases hc : σ u with
  | none =>
    rw [unlink, hc] at h
    exact ⟨d', h, rfl⟩
  | some c =>
    rcases eq_or_ne n u with rfl | hne
    · simp only [unlink, hc, modify_self, modifyLink_apply] at h
      refine ⟨c, hc, ?_⟩
      split at h <;> split at h <;> split at h <;> cases h <;> rfl
    · rw [unlink_of_ne hc hne] at h
      obtain ⟨d, hd, rfl⟩ := Option.map_eq_some_iff.mp h
      exact ⟨d, hd, rfl⟩

/-- The cell taken out keeps its children. -/
theorem unlink_self {σ : Heap ι β} {u : ι} {c : Cell ι β} (hc : σ u = some c)
    (hparent : c.parent ≠ some u) :
    ∃ c', σ.unlink u u = some c' ∧ c'.children = c.children ∧ c'.last = c.last ∧
      c'.next = none ∧ c'.data = c.data := by
  simp only [unlink, hc, modify_self, modifyLink_apply, if_neg hparent]
  by_cases h₂ : c.next = some u <;> by_cases h₃ : c.prev = some u <;> simp [h₂, h₃]

namespace Linked

variable {σ : Heap ι β} {p u : ι} {A B : List ι}

omit [DecidableEq ι] in
theorem getLast?_middle (b : ι) : (A ++ u :: (B ++ [b])).getLast? = some b := by
  rw [← List.cons_append, ← List.append_assoc, List.getLast?_concat]

theorem unlink_ends (h : Linked σ p (A ++ u :: B)) (hpu : p ≠ u) :
    ∃ c, σ.unlink u p = some c ∧ c.children = (A ++ B).head? ∧ c.last = (A ++ B).getLast? := by
  obtain ⟨cu, hcu, hparent, hprev, hnext⟩ := h.member A u B rfl
  obtain ⟨cp, hcp, hhead, hlast⟩ := h.ends
  have hnodup := h.nodup
  rw [unlink_of_ne hcu hpu, hcp]
  refine ⟨_, rfl, ?_, ?_⟩
  · simp only [hparent, hhead, hnext, true_and]
    cases A with
    | nil => simp
    | cons a A =>
      have hau : a ≠ u := by
        rintro rfl
        simp at hnodup
      simp [hau]
  · simp only [hparent, hlast, hprev, true_and]
    rcases List.eq_nil_or_concat' B with rfl | ⟨B, b, rfl⟩
    · simp
    · have hbu : b ≠ u := by
        rintro rfl
        simp [List.nodup_append] at hnodup
      rw [getLast?_middle, if_neg (by simpa using hbu), ← List.append_assoc, List.getLast?_concat]

omit [DecidableEq ι] in
/-- A member of `A ++ B` stands in `B` or in `A`. -/
theorem split_append {n : ι} {A' B' : List ι} (h : A ++ B = A' ++ n :: B') :
    (∃ C, A' = A ++ C ∧ B = C ++ n :: B') ∨ ∃ C, A = A' ++ n :: C ∧ B' = C ++ B := by
  rcases List.append_eq_append_iff.mp h with hC | ⟨C, hA, hB⟩
  · exact Or.inl hC
  · cases C with
    | nil => exact Or.inl ⟨[], by simpa using hA.symm, by simpa using hB.symm⟩
    | cons m C =>
      obtain ⟨rfl, rfl⟩ := List.cons.inj hB
      exact Or.inr ⟨C, hA, rfl⟩

/-- Taking `u` out of a list leaves the list without it. -/
theorem unlink (h : Linked σ p (A ++ u :: B)) (hpu : p ≠ u) : Linked (σ.unlink u) p (A ++ B) := by
  obtain ⟨cu, hcu, hparent, hprev, hnext⟩ := h.member A u B rfl
  have hnodup := h.nodup
  refine ⟨hnodup.sublist (by simp), unlink_ends h hpu, fun A' n B' hsplit => ?_⟩
  have hnu : n ≠ u := by
    rintro rfl
    have hmem : n ∈ A ++ B := by rw [hsplit]; simp
    simp only [List.nodup_middle, List.nodup_cons] at hnodup
    exact hnodup.1 hmem
  rw [unlink_of_ne hcu hnu]
  -- the member stands behind `u`, or before it
  rcases split_append hsplit with ⟨C, rfl, rfl⟩ | ⟨C, rfl, rfl⟩
  · obtain ⟨cn, hcn, hparent', hprev', hnext'⟩ := h.member (A ++ u :: C) n B' (by simp)
    have hnA : A.getLast? ≠ some n := fun hn =>
      List.disjoint_of_nodup_append hnodup (List.mem_of_getLast? hn) (by simp)
    rw [hcn]
    refine ⟨_, rfl, hparent', ?_, ?_⟩
    · simp only [hnext, hprev, hprev']
      cases C with
      | nil => simp
      | cons x C =>
        have hxn : x ≠ n := by
          rintro rfl
          simp [List.nodup_append] at hnodup
        simp [hxn, List.getLast?_append]
    · simp only [hprev, if_neg hnA, hnext']
  · obtain ⟨cn, hcn, hparent', hprev', hnext'⟩ := h.member A' n (C ++ u :: B) (by simp)
    have hnB : B.head? ≠ some n := fun hn =>
      List.disjoint_of_nodup_append hnodup (by simp)
        (List.mem_cons_of_mem _ (List.mem_of_mem_head? hn))
    rw [hcn]
    refine ⟨_, rfl, hparent', ?_, ?_⟩
    · simp only [hnext, if_neg hnB, hprev']
    · simp only [hnext, hprev, hnext']
      rcases List.eq_nil_or_concat' C with rfl | ⟨C, x, rfl⟩
      · simp
      · have hxn : x ≠ n := by
          rintro rfl
          simp [List.nodup_append] at hnodup
        rw [getLast?_middle, if_neg (by simpa using hxn)]
        cases C <;> simp

/-- The links of a member and its neighbours lead somewhere. -/
theorem unlink? (h : Linked σ p (A ++ u :: B)) : σ.unlink? u = some (σ.unlink u) := by
  obtain ⟨cu, hcu, hparent, hprev, hnext⟩ := h.member A u B rfl
  obtain ⟨cp, hcp, -⟩ := h.ends
  refine unlink?_eq_some.mpr ⟨⟨cu, hcu, ?_, ?_, ?_⟩, rfl⟩
  · rw [hparent, leads, hcp, Option.isSome_some]
  · rw [hnext]
    cases B with
    | nil => rfl
    | cons b B =>
      obtain ⟨c, hc, -⟩ := h.member (A ++ [u]) b B (by simp)
      rw [List.head?_cons, leads, hc, Option.isSome_some]
  · rw [hprev]
    rcases List.eq_nil_or_concat' A with rfl | ⟨A, a, rfl⟩
    · rfl
    · obtain ⟨c, hc, -⟩ := h.member A a (u :: B) (by simp)
      rw [List.getLast?_concat, leads, hc, Option.isSome_some]

omit [DecidableEq ι] in
/-- Two parents share no child. -/
theorem not_mem_of_ne {q : ι} {L L' : List ι} (h : Linked σ p L) (h' : Linked σ q L') (hne : q ≠ p)
    {n : ι} (hn : n ∈ L') : n ∉ L := by
  intro hmem
  obtain ⟨c, hc, hparent, -⟩ := h.member_of_mem hmem
  obtain ⟨c', hc', hparent', -⟩ := h'.member_of_mem hn
  rw [hc, Option.some.injEq] at hc'
  subst hc'
  exact hne (Option.some.inj (hparent'.symm.trans hparent))

/-- Taking `u` out of one list leaves every other list alone. -/
theorem unlink_other {q : ι} {L : List ι} (h : Linked σ p (A ++ u :: B)) (h' : Linked σ q L)
    (hne : q ≠ p) (hpu : p ≠ u) : Linked (σ.unlink u) q L := by
  obtain ⟨cu, hcu, hparent, hprev, hnext⟩ := h.member A u B rfl
  refine h'.congr (fun c hc => ?_) fun n hn c hc => ?_
  · rcases eq_or_ne q u with rfl | hqu
    · rw [hcu, Option.some.injEq] at hc
      subst hc
      obtain ⟨c', hc', hchildren, hlast, -⟩ := unlink_self hcu (by simpa [hparent] using hpu)
      exact ⟨c', hc', hchildren, hlast⟩
    · rw [unlink_of_ne hcu hqu, hc]
      refine ⟨_, rfl, ?_, ?_⟩ <;> simp [hparent, hne.symm]
  · have hout := not_mem_of_ne h h' hne hn
    have hnu : n ≠ u := fun heq => hout (by simp [heq])
    rw [unlink_of_ne hcu hnu, hc]
    refine ⟨_, rfl, rfl, if_neg fun heq => ?_, if_neg fun heq => ?_⟩
    · rw [hnext] at heq
      exact hout (by simp [List.mem_of_mem_head? heq])
    · rw [hprev] at heq
      exact hout (by simp [List.mem_of_getLast? heq])

/-- Outside the list and its parent, nothing changes. -/
theorem unlink_outside (h : Linked σ p (A ++ u :: B)) {n : ι} (hp : n ≠ p)
    (hn : n ∉ A ++ u :: B) : σ.unlink u n = σ n := by
  obtain ⟨cu, hcu, hparent, hprev, hnext⟩ := h.member A u B rfl
  have hnu : n ≠ u := fun heq => hn (by simp [heq])
  have hhead : B.head? ≠ some n := fun heq => hn (by simp [List.mem_of_mem_head? heq])
  have hlast : A.getLast? ≠ some n := fun heq => hn (by simp [List.mem_of_getLast? heq])
  rw [unlink_of_ne hcu hnu]
  cases σ n <;> simp [hparent, hprev, hnext, hp.symm, hhead, hlast]

/-- A cell other than the one taken out stays, with its data, its parent and (unless it is the
    parent of the list) its children. -/
theorem unlink_keeps (h : Linked σ p (A ++ u :: B)) {n : ι} (hn : n ≠ u) {d : Cell ι β}
    (hd : σ n = some d) :
    ∃ d', σ.unlink u n = some d' ∧ d'.data = d.data ∧ d'.parent = d.parent ∧
      (n ≠ p → d'.children = d.children) := by
  obtain ⟨cu, hcu, hparent, -, -⟩ := h.member A u B rfl
  rw [unlink_of_ne hcu hn, hd]
  refine ⟨_, rfl, rfl, rfl, fun hp => ?_⟩
  simp [hparent, hp.symm]

end Linked

/-! ### Appending a member -/

/-- What `addChild` writes: the new last child, the sibling before it, and the parent's ends. -/
theorem addChild_apply {σ : Heap ι β} {p n : ι} {c : Cell ι β} (hc : σ p = some c) (hpn : p ≠ n)
    (m : ι) :
    σ.addChild p n m = (σ m).map fun d => { d with
      parent := if m = n then some p else d.parent
      prev := if m = n ∧ c.children ≠ none then c.last else d.prev
      next := if c.children ≠ none ∧ c.last = some m then some n else d.next
      children := if m = p ∧ c.children = none then some n else d.children
      last := if m = p then some n else d.last } := by
  simp only [addChild, hc]
  cases hchildren : c.children with
  | none =>
    simp only [Heap.modify]
    cases σ m with
    | none => simp
    | some d =>
      rcases eq_or_ne m p with rfl | hmp
      · simp [hpn]
      · by_cases hmn : m = n <;> simp [hmp, hmn, hpn.symm]
  | some _ =>
    simp only [Heap.modify, modifyLink_apply]
    cases σ m with
    | none => simp
    | some d =>
      rcases eq_or_ne m p with rfl | hmp
      · by_cases hlast : c.last = some m <;> simp [hpn, hlast]
      · by_cases hmn : m = n <;> by_cases hlast : c.last = some m <;> simp_all

namespace Linked

variable {σ : Heap ι β} {p n : ι} {L : List ι}

/-- There is a last member to put a new one behind. -/
theorem addChild? (h : Linked σ p L) {d : Cell ι β} (hd : σ n = some d) :
    σ.addChild? p n = some (σ.addChild p n) := by
  obtain ⟨c, hc, hhead, hlast⟩ := h.ends
  refine addChild?_eq_some.mpr ⟨⟨c, hc, ⟨d, hd⟩, fun hchildren => ?_⟩, rfl⟩
  rcases List.eq_nil_or_concat' L with rfl | ⟨L, a, rfl⟩
  · exact absurd hhead hchildren
  · obtain ⟨ca, hca, -⟩ := h.member L a [] rfl
    exact ⟨a, ca, by rw [hlast, List.getLast?_concat], hca⟩

/-- A cell that is in no list becomes the last member. -/
theorem addChild (h : Linked σ p L) {d : Cell ι β} (hd : σ n = some d) (hnext : d.next = none)
    (hprev : d.prev = none) (hn : n ∉ L) (hpn : p ≠ n) : Linked (σ.addChild p n) p (L ++ [n]) := by
  obtain ⟨c, hc, hhead, hlast⟩ := h.ends
  have hnone : c.children = none ↔ L = [] := by rw [hhead, List.head?_eq_none_iff]
  refine ⟨?_, ?_, fun A m B hsplit => ?_⟩
  · exact List.nodup_append.mpr ⟨h.nodup, by simp, by rintro a ha b hb rfl; simp_all⟩
  · rw [addChild_apply hc hpn, hc]
    refine ⟨_, rfl, ?_, ?_⟩
    · cases L <;> simp_all
    · simp
  · rcases Linked.split_append hsplit with ⟨C, rfl, hB⟩ | ⟨C, rfl, rfl⟩
    · -- the new member
      obtain ⟨rfl, hm, rfl⟩ : C = [] ∧ n = m ∧ B = [] := by
        cases C with
        | nil => simpa using hB
        | cons => simp at hB
      subst hm
      have hlast' : c.last ≠ some n := by
        rw [hlast]
        exact fun heq => hn (List.mem_of_getLast? heq)
      rw [addChild_apply hc hpn, hd]
      refine ⟨_, rfl, by simp, ?_, by simp [hlast', hnext]⟩
      by_cases hL : L = []
      · simp [hnone, hL, hprev]
      · simp [hnone, hL, hlast]
    · -- a member that was there
      obtain ⟨cm, hcm, hparent', hprev', hnext'⟩ := h.member A m C rfl
      have hmn : m ≠ n := by
        rintro rfl
        exact hn (by simp)
      rw [addChild_apply hc hpn, hcm]
      refine ⟨_, rfl, by simp [hmn, hparent'], by simp [hmn, hprev'], ?_⟩
      simp only [hhead, hlast, hnext']
      rcases List.eq_nil_or_concat' C with rfl | ⟨C, x, rfl⟩
      · simp
      · have hxm : x ≠ m := by
          rintro rfl
          have := h.nodup
          simp [List.nodup_append] at this
        rw [getLast?_middle]
        cases C <;> simp [hxm]

/-- Appending to one list leaves every other list alone. -/
theorem addChild_other {q : ι} {L' : List ι} (h : Linked σ p L) (h' : Linked σ q L') (hne : q ≠ p)
    (hn : n ∉ L') (hpn : p ≠ n) : Linked (σ.addChild p n) q L' := by
  obtain ⟨c, hc, hhead, hlast⟩ := h.ends
  refine h'.congr (fun d hd => ?_) fun m hm d hd => ?_
  · rw [addChild_apply hc hpn, hd]
    exact ⟨_, rfl, by simp [hne], by simp [hne]⟩
  · have hmn : m ≠ n := fun heq => hn (heq ▸ hm)
    have hml : c.last ≠ some m := by
      rw [hlast]
      exact fun heq => not_mem_of_ne h h' hne hm (List.mem_of_getLast? heq)
    rw [addChild_apply hc hpn, hd]
    exact ⟨_, rfl, by simp [hmn], by simp [hmn], by simp [hml]⟩

/-- Outside the list, its parent and the new member, nothing changes. -/
theorem addChild_outside (h : Linked σ p L) (hpn : p ≠ n) {m : ι} (hp : m ≠ p) (hn : m ≠ n)
    (hL : m ∉ L) : σ.addChild p n m = σ m := by
  obtain ⟨c, hc, hhead, hlast⟩ := h.ends
  have hml : L.getLast? ≠ some m := fun heq => hL (List.mem_of_getLast? heq)
  rw [addChild_apply hc hpn]
  cases σ m <;> simp [hp, hn, hlast, hml]

/-- Appending keeps the data of every cell and, but for the parent, its children. -/
theorem addChild_keeps (h : Linked σ p L) (hpn : p ≠ n) {m : ι} {d' : Cell ι β}
    (hd' : σ.addChild p n m = some d') :
    ∃ d, σ m = some d ∧ d'.data = d.data ∧ (m ≠ p → d'.children = d.children) := by
  obtain ⟨c, hc, -⟩ := h.ends
  rw [addChild_apply hc hpn] at hd'
  obtain ⟨d, hd, rfl⟩ := Option.map_eq_some_iff.mp hd'
  exact ⟨d, hd, rfl, fun hm => by simp [hm]⟩

theorem addChild_isSome (h : Linked σ p L) (hpn : p ≠ n) (m : ι) :
    (σ.addChild p n m).isSome = (σ m).isSome := by
  obtain ⟨c, hc, -⟩ := h.ends
  rw [addChild_apply hc hpn, Option.isSome_map]

end Linked

/-! ### What child links reach -/

/-- `n` is reached from `r` by following `children` and `next`. -/
inductive Below (σ : Heap ι β) (r : ι) : ι → Prop
  | root {c : Cell ι β} {m : ι} : σ r = some c → c.children = some m → Below σ r m
  | child {n m : ι} {c : Cell ι β} : Below σ r n → σ n = some c → c.children = some m → Below σ r m
  | next {n m : ι} {c : Cell ι β} : Below σ r n → σ n = some c → c.next = some m → Below σ r m

omit [DecidableEq ι] in
theorem Linked.below {σ : Heap ι β} {r p : ι} {L : List ι} (h : Linked σ p L)
    (hp : p = r ∨ Below σ r p) {n : ι} (hn : n ∈ L) : Below σ r n := by
  obtain ⟨A, B, hsplit⟩ := List.append_of_mem hn
  -- walk along the list, from the first member on
  induction A using List.reverseRecOn generalizing n B with
  | nil =>
    obtain ⟨c, hc, hhead, -⟩ := h.ends
    rw [hsplit] at hhead
    rcases hp with rfl | hp
    · exact .root hc hhead
    · exact .child hp hc hhead
  | append_singleton A m ih =>
    have hsplit' : L = A ++ m :: n :: B := by simpa using hsplit
    obtain ⟨c, hc, -, -, hnext⟩ := h.member A m (n :: B) hsplit'
    exact .next (ih (by simp [hsplit']) (n :: B) hsplit') hc hnext

omit [DecidableEq ι] in
/-- A set that holds the first child of `r` and is closed under child links holds all of them. -/
theorem Below.mem_of_closed {σ : Heap ι β} {r : ι} {S : ι → Prop} (hS : ClosedUnder σ S)
    (hr : ∀ c, σ r = some c → ∀ m ∈ c.children, S m) : ∀ {n : ι}, Below σ r n → S n
  | _, .root hc hm => hr _ hc _ hm
  | _, .child hn hc hm => (hS _ _ (mem_of_closed hS hr hn) hc).1 _ hm
  | _, .next hn hc hm => (hS _ _ (mem_of_closed hS hr hn) hc).2 _ hm

/-! ### Links do not depend on data -/

section Data

variable {γ : Type*}

def Cell.map (g : β → γ) (c : Cell ι β) : Cell ι γ :=
  ⟨c.parent, c.children, c.last, c.next, c.prev, g c.data⟩

/-- The same links with other data. -/
def Heap.map (g : β → γ) (σ : Heap ι β) : Heap ι γ := fun n => (σ n).map (Cell.map g)

variable {g : β → γ} {σ : Heap ι β}

omit [DecidableEq ι] in
theorem Heap.map_of_none {n : ι} (h : σ n = none) : Heap.map g σ n = none := by
  rw [Heap.map, h]
  rfl

omit [DecidableEq ι] in
theorem Heap.map_of_some {n : ι} {c : Cell ι β} (h : σ n = some c) :
    Heap.map g σ n = some (c.map g) := by
  rw [Heap.map, h]
  rfl

theorem Heap.map_modify {f : Cell ι β → Cell ι β} {h : Cell ι γ → Cell ι γ}
    (hf : ∀ c, (f c).map g = h (c.map g)) (n : ι) :
    Heap.map g (σ.modify n f) = (Heap.map g σ).modify n h := by
  funext m
  rw [Heap.map, modify, modify, Heap.map]
  split
  · rw [Option.map_map, Option.map_map]
    exact congrArg (fun k => (σ m).map k) (funext hf)
  · rfl

theorem Heap.map_modifyLink {f : Cell ι β → Cell ι β} {h : Cell ι γ → Cell ι γ}
    (hf : ∀ c, (f c).map g = h (c.map g)) (l : Option ι) :
    Heap.map g (σ.modifyLink l f) = (Heap.map g σ).modifyLink l h := by
  cases l with
  | none => rfl
  | some n => exact Heap.map_modify hf n

theorem Heap.map_update (n : ι) (c : Option (Cell ι β)) :
    Heap.map g (Function.update σ n c) = Function.update (Heap.map g σ) n (c.map (Cell.map g)) := by
  funext m
  rw [Heap.map, Function.update_apply, Function.update_apply]
  split <;> rfl

theorem Heap.map_erase (n : ι) : Heap.map g (σ.erase n) = (Heap.map g σ).erase n :=
  Heap.map_update n none

theorem Heap.map_unlink (u : ι) : Heap.map g (σ.unlink u) = (Heap.map g σ).unlink u := by
  rw [unlink, unlink]
  cases hu : σ u with
  | none =>
    rw [Heap.map_of_none hu]
  | some c =>
    rw [Heap.map_of_some hu]
    dsimp only
    rw [Heap.map_modify, Heap.map_modifyLink, Heap.map_modifyLink, Heap.map_modifyLink]
    all_goals intros; rfl

theorem Heap.map_addChild (p n : ι) : Heap.map g (σ.addChild p n) = (Heap.map g σ).addChild p n := by
  rw [addChild, addChild]
  cases hp : σ p with
  | none =>
    rw [Heap.map_of_none hp]
  | some c =>
    have hchildren : (c.map g).children = c.children := rfl
    rw [Heap.map_of_some hp]
    dsimp only
    rw [hchildren]
    cases c.children with
    | none =>
      dsimp only
      rw [Heap.map_modify, Heap.map_modify]
      all_goals intros; rfl
    | some m =>
      dsimp only
      rw [Heap.map_modify, Heap.map_modify, Heap.map_modifyLink, Heap.map_modify]
      all_goals intros; rfl

omit [DecidableEq ι] in
theorem Heap.leads_map (l : Option ι) : (Heap.map g σ).leads l = σ.leads l := by
  cases l with
  | none => rfl
  | some n =>
    rw [leads, leads, Heap.map, Option.isSome_map]

theorem Heap.map_unlink? (u : ι) :
    (Heap.map g σ).unlink? u = (σ.unlink? u).map (Heap.map g) := by
  rw [unlink?, unlink?]
  cases hu : σ u with
  | none =>
    rw [Heap.map_of_none hu]
    rfl
  | some c =>
    rw [Heap.map_of_some hu, ← Heap.map_unlink]
    dsimp only [Cell.map]
    rw [leads_map, leads_map, leads_map]
    split <;> rfl

theorem Heap.map_addChild? (p n : ι) :
    (Heap.map g σ).addChild? p n = (σ.addChild? p n).map (Heap.map g) := by
  rw [addChild?, addChild?, ← Heap.map_addChild]
  cases hp : σ p with
  | none =>
    rw [Heap.map_of_none hp]
    rfl
  | some c =>
    cases hn : σ n with
    | none =>
      rw [Heap.map_of_some hp, Heap.map_of_none hn]
      rfl
    | some d =>
      rw [Heap.map_of_some hp, Heap.map_of_some hn]
      dsimp only [Cell.map]
      rw [leads_map]
      split <;> rfl

section Each

variable {α : Type*} {give : α → ι → Cell ι β → Option α} {give' : α → ι → Cell ι γ → Option α}

theorem Heap.map_freeListEach (hgive : ∀ a n c, give' a n (c.map g) = give a n c) :
    ∀ (fuel : ℕ) (σ : Heap ι β) (a : α) (l : Option ι),
      freeListEach give' fuel (Heap.map g σ) a l =
        (freeListEach give fuel σ a l).map fun below => (Heap.map g below.1, below.2)
  | fuel, σ, a, none => by rw [freeListEach, freeListEach]; rfl
  | 0, σ, a, some n => rfl
  | fuel + 1, σ, a, some n => by
      rw [freeListEach, freeListEach]
      cases hn : σ n with
      | none =>
        rw [Heap.map_of_none hn]
        rfl
      | some c =>
        have hchildren : (c.map g).children = c.children := rfl
        rw [Heap.map_of_some hn, Option.bind_some, Option.bind_some, hchildren,
          map_freeListEach hgive fuel σ a c.children]
        cases freeListEach give fuel σ a c.children with
        | none => rfl
        | some below =>
          rw [Option.map_some, Option.bind_some, Option.bind_some, hgive]
          cases give below.2 n c with
          | none => rfl
          | some a =>
            rw [Option.bind_some, Option.bind_some, ← Heap.map_erase]
            exact map_freeListEach hgive fuel (below.1.erase n) a c.next

theorem Heap.map_freeEach (hgive : ∀ a n c, give' a n (c.map g) = give a n c) (fuel : ℕ)
    (σ : Heap ι β) (a : α) (n : ι) : freeEach give' fuel (Heap.map g σ) a n =
      (freeEach give fuel σ a n).map fun below => (Heap.map g below.1, below.2) := by
  rw [freeEach, freeEach]
  cases hn : σ n with
  | none =>
    rw [Heap.map_of_none hn]
    rfl
  | some c =>
    have hchildren : (c.map g).children = c.children := rfl
    rw [Heap.map_of_some hn, Option.bind_some, Option.bind_some, hchildren,
      map_freeListEach hgive fuel σ a c.children]
    cases freeListEach give fuel σ a c.children with
    | none => rfl
    | some below =>
      rw [Option.map_some, Option.bind_some, Option.bind_some, hgive]
      cases give below.2 n c with
      | none => rfl
      | some a =>
        rw [Option.map_some, Option.map_some, Option.map_some, Heap.map_erase]

end Each

omit [DecidableEq ι] in
/-- The same nodes are reached. -/
theorem Heap.below_map {r n : ι} : Below (Heap.map g σ) r n ↔ Below σ r n := by
  have hback : ∀ {m : ι} {d : Cell ι γ}, Heap.map g σ m = some d →
      ∃ c, σ m = some c ∧ d = c.map g := fun {m d} h => by
    obtain ⟨c, hc, rfl⟩ := Option.map_eq_some_iff.mp h
    exact ⟨c, hc, rfl⟩
  constructor
  · intro h
    induction h with
    | root hc hm =>
      obtain ⟨c, hc', rfl⟩ := hback hc
      exact .root hc' hm
    | child _ hc hm ih =>
      obtain ⟨c, hc', rfl⟩ := hback hc
      exact .child ih hc' hm
    | next _ hc hm ih =>
      obtain ⟨c, hc', rfl⟩ := hback hc
      exact .next ih hc' hm
  · intro h
    induction h with
    | root hc hm => exact .root (Heap.map_of_some hc) hm
    | child _ hc hm ih => exact .child ih (Heap.map_of_some hc) hm
    | next _ hc hm ih => exact .next ih (Heap.map_of_some hc) hm

end Data

end Schemes
