import VaeDb.Schemes.Calls
import VaeDb.Site.Load

/-! When a computation is defined.

    A call answers if it returns or throws VaeDbInternalError. `ReturnsIff P` says of a call that it
    returns if `P` holds and is undefined otherwise, `DefinedIff P` the same with an answer in place of
    a result. Both go along with the text of a program: what has to hold of a sequence of calls is what
    has to hold of the first, and of the second in the state that the first leaves.

        x >>= f        P of x, and Q a of f a wherever x returns a
        loop           P of each round that is come to                                         -/

namespace VaeDb
open Schemes

/-- The call returns, or throws VaeDbInternalError. -/
def Answers {α : Type} (x : Result α) : Prop :=
  (∃ a, x = .ok a) ∨ ∃ message, x = .error (.internalError message)

/-- The call returns exactly if `P` holds, and is undefined otherwise. -/
structure ReturnsIff {α : Type} (P : Prop) (x : Result α) : Prop where
  returns : P → ∃ a, x = .ok a
  undefined : ¬ P → x = .error .undefined

/-- The call answers exactly if `P` holds, and is undefined otherwise. -/
structure DefinedIff {α : Type} (P : Prop) (x : Result α) : Prop where
  answers : P → Answers x
  undefined : ¬ P → x = .error .undefined

variable {α β : Type} {P P' : Prop} {Q : α → Prop} {x : Result α} {f : α → Result β}

/-! ### Calls that throw nothing -/

/-- The call throws nothing; it can only run into undefined behaviour. -/
def NoThrow {α : Type} (x : Result α) : Prop := ∀ e, x = .error e → e = .undefined

namespace NoThrow

theorem pure (a : α) : NoThrow (pure a) := by rintro e ⟨⟩

theorem undefined : NoThrow (throw .undefined : Result α) := by
  rintro e ⟨⟩
  rfl

theorem deref (x : Option α) : NoThrow (deref x) := by
  cases x with
  | none => exact undefined
  | some a => exact pure a

theorem bind (hx : NoThrow x) (hf : ∀ a, NoThrow (f a)) : NoThrow (x >>= f) := by
  cases x with
  | error e =>
    rintro _ ⟨⟩
    exact hx e rfl
  | ok a => exact hf a

theorem foldlM {g : β → α → Result β} (hg : ∀ b a, NoThrow (g b a)) :
    ∀ (l : List α) (b : β), NoThrow (l.foldlM g b)
  | [], b => pure b
  | a :: l, b => by
    rw [List.foldlM_cons]
    exact (hg b a).bind fun b' => foldlM hg l b'

end NoThrow

/-! ### Calls that return -/

namespace ReturnsIff

theorem pure (a : α) : ReturnsIff True (Pure.pure a : Result α) :=
  ⟨fun _ => ⟨a, rfl⟩, fun h => absurd trivial h⟩

theorem undef : ReturnsIff False (throw .undefined : Result α) :=
  ⟨False.elim, fun _ => rfl⟩

theorem deref (o : Option α) : ReturnsIff (∃ a, o = some a) (deref o) := by
  cases o with
  | none => exact ⟨fun ⟨_, h⟩ => (by cases h), fun _ => rfl⟩
  | some a => exact ⟨fun _ => ⟨a, rfl⟩, fun h => absurd ⟨a, rfl⟩ h⟩

theorem congr (h : ReturnsIff P x) (hiff : P ↔ P') : ReturnsIff P' x :=
  ⟨fun hP => h.returns (hiff.mpr hP), fun hP => h.undefined (mt hiff.mp hP)⟩

/-- Whether it returns is what `P` says. -/
theorem iff (h : ReturnsIff P x) : (∃ a, x = .ok a) ↔ P := by
  refine ⟨fun ⟨a, ha⟩ => ?_, h.returns⟩
  by_contra hP
  rw [h.undefined hP] at ha
  cases ha

theorem bind (hx : ReturnsIff P x) (hf : ∀ a, x = .ok a → ReturnsIff (Q a) (f a)) :
    ReturnsIff (P ∧ ∀ a, x = .ok a → Q a) (x >>= f) := by
  constructor
  · rintro ⟨hP, hQ⟩
    obtain ⟨a, ha⟩ := hx.returns hP
    obtain ⟨b, hb⟩ := (hf a ha).returns (hQ a ha)
    exact ⟨b, bind_eq_ok.mpr ⟨a, ha, hb⟩⟩
  · intro hnot
    by_cases hP : P
    · obtain ⟨a, ha⟩ := hx.returns hP
      have hQ : ¬ Q a := fun hQ => hnot ⟨hP, fun a' ha' => by
        rw [ha] at ha'
        cases ha'
        exact hQ⟩
      rw [ha]
      exact (hf a ha).undefined hQ
    · rw [hx.undefined hP]
      rfl

/-- Where the second call asks the same of every result. -/
theorem andThen (hx : ReturnsIff P x) (hf : ∀ a, x = .ok a → ReturnsIff P' (f a)) :
    ReturnsIff (P ∧ P') (x >>= f) := by
  refine (bind hx hf).congr (and_congr_right fun hP => ⟨fun h => ?_, fun h _ _ => h⟩)
  obtain ⟨a, ha⟩ := hx.returns hP
  exact h a ha

/-- The last call of a sequence cannot go wrong. -/
theorem before (hx : ReturnsIff P x) (hf : ∀ a, x = .ok a → ∃ b, f a = .ok b) :
    ReturnsIff P (x >>= f) := by
  have hlast : ∀ a, x = .ok a → ReturnsIff True (f a) :=
    fun a ha => ⟨fun _ => hf a ha, fun h => absurd trivial h⟩
  exact (andThen hx hlast).congr (and_iff_left trivial)

/-- The first call of a sequence cannot go wrong. -/
theorem after (hx : ∃ a, x = .ok a) (hf : ∀ a, x = .ok a → ReturnsIff P (f a)) :
    ReturnsIff P (x >>= f) := by
  obtain ⟨a, ha⟩ := hx
  rw [ha]
  exact hf a ha

/-- A pointer is followed. -/
theorem follow {o : Option α} {f : α → Result β} (hf : ∀ a, o = some a → ReturnsIff (Q a) (f a)) :
    ReturnsIff (∃ a, o = some a ∧ Q a) (VaeDb.deref o >>= f) := by
  refine (bind (deref o) fun a ha => hf a (deref_eq_ok.mp ha)).congr ?_
  simp only [deref_eq_ok]
  constructor
  · rintro ⟨⟨a, ha⟩, hQ⟩
    exact ⟨a, ha, hQ a ha⟩
  · rintro ⟨a, ha, hQ⟩
    refine ⟨⟨a, ha⟩, fun a' ha' => ?_⟩
    obtain rfl := Option.some.inj (ha.symm.trans ha')
    exact hQ

theorem ite {c : Prop} [Decidable c] {x y : Result α} (hx : c → ReturnsIff P x)
    (hy : ¬ c → ReturnsIff P' y) : ReturnsIff ((c → P) ∧ (¬ c → P')) (if c then x else y) := by
  split
  · next hc => exact (hx hc).congr (by simp [hc])
  · next hc => exact (hy hc).congr (by simp [hc])

/-- A loop over items, each of which asks for something of its own. -/
theorem foldlM {γ : Type} {g : α → γ → Result α} {R : γ → Prop} (I : α → List γ → Prop)
    (hg : ∀ a c cs, I a (c :: cs) → ReturnsIff (R c) (g a c) ∧ ∀ a', g a c = .ok a' → I a' cs) :
    ∀ {cs : List γ} {a : α}, I a cs → ReturnsIff (∀ c ∈ cs, R c) (cs.foldlM g a)
  | [], a, _ => (pure a).congr (by simp)
  | c :: cs, a, hI => by
      obtain ⟨hc, hkeep⟩ := hg a c cs hI
      rw [List.foldlM_cons]
      refine (andThen hc fun a' ha' => foldlM I hg (hkeep a' ha')).congr ?_
      rw [List.forall_mem_cons]

/-- A loop that collects. -/
theorem mapM {R : α → Prop} (hf : ∀ a, ReturnsIff (R a) (f a)) :
    ∀ {l : List α}, ReturnsIff (∀ a ∈ l, R a) (l.mapM f)
  | [] => (pure []).congr (by simp)
  | a :: l => by
      rw [List.mapM_cons]
      refine (andThen (hf a) fun b _ => (mapM hf).before fun bs _ => ⟨b :: bs, rfl⟩).congr ?_
      rw [List.forall_mem_cons]

theorem defined (h : ReturnsIff P x) : DefinedIff P x :=
  ⟨fun hP => .inl (h.returns hP), h.undefined⟩

end ReturnsIff

/-! ### Calls that answer -/

namespace DefinedIff

theorem throw (message : String) : DefinedIff True (throw (.internalError message) : Result α) :=
  ⟨fun _ => .inr ⟨message, rfl⟩, fun h => absurd trivial h⟩

theorem congr (h : DefinedIff P x) (hiff : P ↔ P') : DefinedIff P' x :=
  ⟨fun hP => h.answers (hiff.mpr hP), fun hP => h.undefined (mt hiff.mp hP)⟩

/-- Whether it answers is what `P` says. -/
theorem iff (h : DefinedIff P x) : Answers x ↔ P := by
  refine ⟨fun hanswers => ?_, h.answers⟩
  by_contra hP
  rw [h.undefined hP] at hanswers
  rcases hanswers with ⟨a, ha⟩ | ⟨message, hmessage⟩
  · cases ha
  · cases hmessage

theorem bind (hx : DefinedIff P x) (hf : ∀ a, x = .ok a → DefinedIff (Q a) (f a)) :
    DefinedIff (P ∧ ∀ a, x = .ok a → Q a) (x >>= f) := by
  constructor
  · rintro ⟨hP, hQ⟩
    rcases hx.answers hP with ⟨a, ha⟩ | ⟨message, hmessage⟩
    · rw [ha]
      exact (hf a ha).answers (hQ a ha)
    · rw [hmessage]
      exact .inr ⟨message, rfl⟩
  · intro hnot
    by_cases hP : P
    · rcases hx.answers hP with ⟨a, ha⟩ | ⟨message, hmessage⟩
      · have hQ : ¬ Q a := fun hQ => hnot ⟨hP, fun a' ha' => by
          rw [ha] at ha'
          cases ha'
          exact hQ⟩
        rw [ha]
        exact (hf a ha).undefined hQ
      · refine absurd ⟨hP, fun a ha => ?_⟩ hnot
        rw [hmessage] at ha
        cases ha
    · rw [hx.undefined hP]
      rfl

theorem foldlM {γ : Type} {g : α → γ → Result α} {R : α → γ → Prop} (I : α → List γ → Prop)
    (hg : ∀ a c cs, I a (c :: cs) → DefinedIff (R a c) (g a c) ∧ ∀ a', g a c = .ok a' → I a' cs) :
    ∀ {cs : List γ} {a : α}, I a cs →
      DefinedIff (∀ call ∈ calls g a cs, R call.1 call.2) (cs.foldlM g a)
  | [], a, _ => (ReturnsIff.pure a).defined.congr (by simp [calls])
  | c :: cs, a, hI => by
      obtain ⟨hc, hkeep⟩ := hg a c cs hI
      rw [List.foldlM_cons]
      refine (bind hc fun a' ha' => foldlM I hg (hkeep a' ha')).congr ?_
      rw [calls, List.forall_mem_cons]
      refine and_congr_right fun _ => ?_
      cases hga : g a c with
      | error e => simp
      | ok a' => simp

end DefinedIff

end VaeDb
