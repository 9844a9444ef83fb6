import VaeDb.Schemes.Siblings

/-! What lies below a link, and freeing it.

    A link leads to a list of siblings, and from each of them a link leads to its children. A `Forest`
    is what is found that way, each cell before those below it. Freeing needs every cell to be there
    when it comes by: in a forest without repetition it is, so that freeing comes to its end, and takes
    away the forest and nothing else.

        l ──▶ a ──▶ b ──▶ c
              │     │
              d     e ──▶ f        a d b e f c                                              -/

namespace Schemes
open Heap

universe u v

variable {ι : Type u} {β : Type v}

/-- The cells that a link leads to. -/
inductive Forest (σ : Heap ι β) : Option ι → List ι → Prop
  | nil : Forest σ none []
  | cons {n : ι} {c : Cell ι β} {below rest : List ι} : σ n = some c → Forest σ c.children below →
      Forest σ c.next rest → Forest σ (some n) (n :: (below ++ rest))

namespace Forest

variable {σ σ' : Heap ι β} {l : Option ι} {ns : List ι}

/-- A forest is a matter of its own cells. -/
theorem congr (h : Forest σ l ns) (hsame : ∀ n ∈ ns, σ' n = σ n) : Forest σ' l ns := by
  induction h with
  | nil => exact .nil
  | cons hn _ _ ihBelow ihRest =>
    refine .cons ((hsame _ List.mem_cons_self).trans hn) (ihBelow fun m hm => ?_) (ihRest fun m hm => ?_)
    · exact hsame m (List.mem_cons_of_mem _ (List.mem_append_left _ hm))
    · exact hsame m (List.mem_cons_of_mem _ (List.mem_append_right _ hm))

theorem there (h : Forest σ l ns) : ∀ n ∈ ns, ∃ c, σ n = some c := by
  induction h with
  | nil => simp
  | cons hn _ _ ihBelow ihRest =>
    intro m hm
    rcases List.mem_cons.mp hm with rfl | hm
    · exact ⟨_, hn⟩
    · exact (List.mem_append.mp hm).elim (ihBelow m) (ihRest m)

variable [DecidableEq ι]

section Each

variable {α : Type*} {give : α → ι → Cell ι β → Option α} {P : α → ι → Prop}

/-- Freeing a forest in which no cell comes twice, and each cell has what it gives up. -/
theorem freeListEach {τ : Heap ι β} {a : α} {fuel : ℕ} (h : Forest σ l ns)
    (hgive : ∀ a n c, σ n = some c → P a n →
      ∃ a', give a n c = some a' ∧ ∀ m, m ≠ n → P a m → P a' m)
    (hsame : ∀ n ∈ ns, τ n = σ n) (hnodup : ns.Nodup) (hfuel : ns.length ≤ fuel)
    (hP : ∀ n ∈ ns, P a n) :
    ∃ τ' a', Heap.freeListEach give fuel τ a l = some (τ', a') ∧ (∀ m, m ∉ ns → τ' m = τ m) ∧
      ∀ m, m ∉ ns → P a m → P a' m := by
  induction h generalizing τ a fuel with
  | nil => exact ⟨τ, a, by rw [Heap.freeListEach], fun _ _ => rfl, fun _ _ h => h⟩
  | @cons n c below rest hn _ _ ihBelow ihRest =>
    obtain ⟨hnot, hnodup⟩ := List.nodup_cons.mp hnodup
    obtain ⟨hnodupBelow, hnodupRest, hdisjoint⟩ := List.nodup_append.mp hnodup
    rw [List.length_cons, List.length_append] at hfuel
    obtain ⟨fuel, rfl⟩ : ∃ k, fuel = k + 1 := ⟨fuel - 1, by omega⟩
    obtain ⟨hPn, hPafter⟩ := List.forall_mem_cons.mp hP
    obtain ⟨τ₁, a₁, hbelow, hkeep₁, hP₁⟩ := ihBelow
      (fun m hm => hsame m (List.mem_cons_of_mem _ (List.mem_append_left _ hm))) hnodupBelow
      (show below.length ≤ fuel by omega) fun m hm => hPafter m (List.mem_append_left _ hm)
    obtain ⟨a₂, hgiven, hP₂⟩ :=
      hgive a₁ n c hn (hP₁ n (fun hn' => hnot (List.mem_append_left _ hn')) hPn)
    -- what follows is neither the cell nor below it
    have hne : ∀ m ∈ rest, m ≠ n := fun m hm heq => hnot (List.mem_append_right _ (heq ▸ hm))
    have hapart : ∀ m ∈ rest, m ∉ below := fun m hm hm' => hdisjoint m hm' m hm rfl
    have hrest : ∀ m ∈ rest, τ₁.erase n m = σ m := by
      intro m hm
      rw [erase_of_ne _ (hne m hm), hkeep₁ m (hapart m hm)]
      exact hsame m (List.mem_cons_of_mem _ (List.mem_append_right _ hm))
    obtain ⟨τ₂, a₃, hafter, hkeep₂, hP₃⟩ := ihRest hrest hnodupRest (show rest.length ≤ fuel by omega)
      fun m hm => hP₂ m (hne m hm) (hP₁ m (hapart m hm) (hPafter m (List.mem_append_right _ hm)))
    refine ⟨τ₂, a₃, ?_, fun m hm => ?_, fun m hm hPm => ?_⟩
    · rw [Heap.freeListEach, hsame n List.mem_cons_self, hn, Option.bind_some, hbelow,
        Option.bind_some, hgiven]
      exact hafter
    · rw [List.mem_cons, List.mem_append, not_or, not_or] at hm
      rw [hkeep₂ m hm.2.2, erase_of_ne _ hm.1, hkeep₁ m hm.2.1]
    · rw [List.mem_cons, List.mem_append, not_or, not_or] at hm
      exact hP₃ m hm.2.2 (hP₂ m hm.1 (hP₁ m hm.2.1 hPm))

/-- Freeing a cell with a forest below it. -/
theorem freeEach {n : ι} {c : Cell ι β} {a : α} {fuel : ℕ} (hn : σ n = some c)
    (h : Forest σ c.children ns)
    (hgive : ∀ a n c, σ n = some c → P a n →
      ∃ a', give a n c = some a' ∧ ∀ m, m ≠ n → P a m → P a' m)
    (hnodup : (n :: ns).Nodup) (hfuel : ns.length ≤ fuel) (hP : ∀ m ∈ n :: ns, P a m) :
    ∃ σ' a', Heap.freeEach give fuel σ a n = some (σ', a') ∧ ∀ m, m ∉ n :: ns → P a m → P a' m := by
  obtain ⟨hnot, hnodup⟩ := List.nodup_cons.mp hnodup
  obtain ⟨hPn, hPbelow⟩ := List.forall_mem_cons.mp hP
  obtain ⟨σ₁, a₁, hfree, -, hP₁⟩ := h.freeListEach hgive (fun _ _ => rfl) hnodup hfuel hPbelow
  obtain ⟨a₂, hgiven, hP₂⟩ := hgive a₁ n c hn (hP₁ n hnot hPn)
  refine ⟨σ₁.erase n, a₂, ?_, fun m hm hPm => ?_⟩
  · rw [Heap.freeEach, hn, Option.bind_some, hfree, Option.bind_some, hgiven, Option.map_some]
  · rw [List.mem_cons, not_or] at hm
    exact hP₂ m hm.1 (hP₁ m hm.2 hPm)

end Each

/-- What is gone once a forest is freed: its cells, and no other. -/
theorem freed {τ τ' : Heap ι β} {fuel : ℕ} (h : Forest σ l ns) (hsame : ∀ n ∈ ns, τ n = σ n)
    (hnodup : ns.Nodup) (hfree : Heap.freeList fuel τ l = some τ') :
    (∀ n ∈ ns, τ' n = none) ∧ ∀ m, m ∉ ns → τ' m = τ m := by
  induction h generalizing τ τ' fuel with
  | nil =>
    rw [Heap.freeList, Option.some.injEq] at hfree
    exact ⟨by simp, fun m _ => hfree ▸ rfl⟩
  | @cons n c below rest hn _ _ ihBelow ihRest =>
    obtain ⟨hnot, hnodup⟩ := List.nodup_cons.mp hnodup
    obtain ⟨hnodupBelow, hnodupRest, hdisjoint⟩ := List.nodup_append.mp hnodup
    cases fuel with
    | zero => cases hfree
    | succ fuel =>
      rw [Heap.freeList, hsame n List.mem_cons_self, hn] at hfree
      dsimp only at hfree
      split at hfree
      · cases hfree
      next τ₁ hbelow =>
      obtain ⟨hgone₁, hkeep₁⟩ := ihBelow
        (fun m hm => hsame m (List.mem_cons_of_mem _ (List.mem_append_left _ hm))) hnodupBelow hbelow
      have hrest : ∀ m ∈ rest, τ₁.erase n m = σ m := by
        intro m hm
        have hne : m ≠ n := fun heq => hnot (List.mem_append_right _ (heq ▸ hm))
        rw [erase_of_ne _ hne, hkeep₁ m fun hm' => hdisjoint m hm' m hm rfl]
        exact hsame m (List.mem_cons_of_mem _ (List.mem_append_right _ hm))
      obtain ⟨hgone₂, hkeep₂⟩ := ihRest hrest hnodupRest hfree
      refine ⟨fun m hm => ?_, fun m hm => ?_⟩
      · by_cases hm₂ : m ∈ rest
        · exact hgone₂ m hm₂
        · rw [hkeep₂ m hm₂]
          rcases List.mem_cons.mp hm with rfl | hm
          · exact erase_self ..
          · have hm₁ := (List.mem_append.mp hm).resolve_right hm₂
            have hne : m ≠ n := fun heq => hnot (List.mem_append_left _ (heq ▸ hm₁))
            rw [erase_of_ne _ hne, hgone₁ m hm₁]
      · rw [List.mem_cons, List.mem_append, not_or, not_or] at hm
        rw [hkeep₂ m hm.2.2, erase_of_ne _ hm.1, hkeep₁ m hm.2.1]

end Forest

end Schemes
