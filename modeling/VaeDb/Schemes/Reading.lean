import Mathlib.Data.List.Forall2
import Mathlib.Tactic.Common

/-! Programs that take bytes off a stream.

    A `Reading` answers, throws, or demands the next so many bytes and goes on with them. What it does
    is settled by the bytes alone: a transport may hand them over in any portions. A reading that has
    come to its answer never looks at what follows, and one that lacks the end of what it needs is cut
    short, whatever the portions.

        demand 4 ──▶ demand 2 ──▶ answer
        b₀ b₁ b₂ b₃ │ b₄ b₅ │ rest …                                                             -/

namespace Schemes

universe u v w

variable {β : Type u} {ε : Type v} {α γ : Type w}

/-- A program that reads. -/
inductive Reading (β : Type u) (ε : Type v) (α : Type w) where
  | done (a : α)
  | fail (e : ε)
  | demand (len : ℕ) (next : List β → Reading β ε α)

/-- How reading ends without an answer: the stream is at its end, or the program throws. -/
inductive Halt (ε : Type v) where
  | cut
  | thrown (e : ε)
  deriving DecidableEq

namespace Reading

def bind : Reading β ε α → (α → Reading β ε γ) → Reading β ε γ
  | done a, f => f a
  | fail e, _ => fail e
  | demand len next, f => demand len fun bs => (next bs).bind f

instance : Monad (Reading β ε) where
  pure := done
  bind := bind

theorem bind_done (p : Reading β ε α) : p.bind done = p := by
  induction p with
  | done a => rfl
  | fail e => rfl
  | demand len next ih => exact congrArg _ (funext ih)

theorem bind_bind {δ : Type w} (p : Reading β ε α) (f : α → Reading β ε γ) (g : γ → Reading β ε δ) :
    (p.bind f).bind g = p.bind fun a => (f a).bind g := by
  induction p with
  | done a => rfl
  | fail e => rfl
  | demand len next ih => exact congrArg _ (funext ih)

instance : LawfulMonad (Reading β ε) := LawfulMonad.mk' _ bind_done (fun _ _ => rfl) bind_bind

/-- The next `len` bytes. -/
def readAll (len : ℕ) : Reading β ε (List β) := demand len done

/-- Reading from a stream whose bytes are all there. -/
def eval : Reading β ε α → List β → Except (Halt ε) (α × List β)
  | done a, s => .ok (a, s)
  | fail e, _ => .error (.thrown e)
  | demand len next, s =>
    if len ≤ s.length then (next (s.take len)).eval (s.drop len) else .error .cut

/-- A number of rounds, each with an answer. -/
def times (p : Reading β ε α) : ℕ → Reading β ε (List α)
  | 0 => pure []
  | n + 1 => do
    let a ← p
    let as ← times p n
    pure (a :: as)

section Evaluation
variable {p : Reading β ε α} {f : α → Reading β ε γ} {s r x : List β} {a : α}

@[simp] theorem eval_pure (a : α) (s : List β) : (pure a : Reading β ε α).eval s = .ok (a, s) := rfl

@[simp] theorem eval_fail (e : ε) (s : List β) :
    (fail e : Reading β ε α).eval s = .error (.thrown e) := rfl

theorem eval_bind (p : Reading β ε α) (f : α → Reading β ε γ) (s : List β) :
    (p >>= f).eval s = p.eval s >>= fun (a, r) => (f a).eval r := by
  change (p.bind f).eval s = _
  induction p generalizing s with
  | done a => rfl
  | fail e => rfl
  | demand len next ih =>
    rw [bind, eval, eval]
    split
    · exact ih _ _
    · rfl

theorem eval_bind_of_ok (h : p.eval s = .ok (a, r)) : (p >>= f).eval s = (f a).eval r := by
  rw [eval_bind, h]
  rfl

theorem eval_bind_eq_ok {c : γ} : (p >>= f).eval s = .ok (c, x) ↔
    ∃ a r, p.eval s = .ok (a, r) ∧ (f a).eval r = .ok (c, x) := by
  rw [eval_bind]
  cases hp : p.eval s with
  | error e =>
    constructor
    · intro h
      cases h
    · rintro ⟨_, _, h, _⟩
      cases h
  | ok ar =>
    obtain ⟨a, r⟩ := ar
    constructor
    · exact fun h => ⟨a, r, rfl, h⟩
    · rintro ⟨a', r', heq, h⟩
      cases heq
      exact h

/-- A failure is that of the first part, or the first part answers. -/
theorem eval_bind_eq_error {e : Halt ε} : (p >>= f).eval s = .error e ↔
    p.eval s = .error e ∨ ∃ a r, p.eval s = .ok (a, r) ∧ (f a).eval r = .error e := by
  rw [eval_bind]
  cases hp : p.eval s with
  | error e' =>
    constructor
    · intro h
      cases h
      exact .inl rfl
    · rintro (h | ⟨a, r, heq, -⟩)
      · cases h
        rfl
      · cases heq
  | ok ar =>
    obtain ⟨a, r⟩ := ar
    constructor
    · exact fun h => .inr ⟨a, r, rfl, h⟩
    · rintro (h | ⟨a', r', heq, h⟩)
      · cases h
      · cases heq
        exact h

theorem eval_readAll (len : ℕ) (s : List β) : (readAll len : Reading β ε (List β)).eval s =
    if len ≤ s.length then .ok (s.take len, s.drop len) else .error .cut := rfl

/-- The bytes that are demanded stand at the front. -/
theorem eval_readAll_append (bs s : List β) :
    (readAll bs.length : Reading β ε (List β)).eval (bs ++ s) = .ok (bs, s) := by
  rw [eval_readAll, if_pos (by simp), List.take_left, List.drop_left]

theorem eval_readAll_eq_ok {len : ℕ} {bs : List β} :
    (readAll len : Reading β ε (List β)).eval s = .ok (bs, r) ↔ bs.length = len ∧ s = bs ++ r := by
  constructor
  · intro h
    rw [eval_readAll] at h
    split at h
    · next hlen =>
      cases h
      exact ⟨List.length_take_of_le hlen, (List.take_append_drop len s).symm⟩
    · cases h
  · rintro ⟨rfl, rfl⟩
    exact eval_readAll_append bs r

/-! ### What follows does not matter -/

/-- What an answer has taken off the stream. -/
theorem eval_split (h : p.eval s = .ok (a, r)) : ∃ bs, s = bs ++ r ∧ p.eval bs = .ok (a, []) := by
  induction p generalizing s with
  | done a => cases h; exact ⟨[], rfl, rfl⟩
  | fail e => cases h
  | demand len next ih =>
    rw [eval] at h
    split at h
    · next hlen =>
      obtain ⟨bs, hbs, hanswer⟩ := ih _ h
      have htake : (s.take len).length = len := List.length_take_of_le hlen
      refine ⟨s.take len ++ bs, ?_, ?_⟩
      · rw [List.append_assoc, ← hbs, List.take_append_drop]
      · rw [eval, if_pos (by rw [List.length_append]; omega), List.take_left' htake,
          List.drop_left' htake]
        exact hanswer
    · cases h

/-- Reading takes off the stream, and puts nothing back. -/
theorem eval_length_le (h : p.eval s = .ok (a, r)) : r.length ≤ s.length := by
  obtain ⟨bs, rfl, -⟩ := eval_split h
  simp

/-- Without the end of what was read, reading is cut short. -/
theorem eval_cut (h : p.eval (s ++ x) = .ok (a, [])) (hx : x ≠ []) : p.eval s = .error .cut := by
  induction p generalizing s with
  | done b =>
    rw [eval, Except.ok.injEq, Prod.mk.injEq, List.append_eq_nil_iff] at h
    exact absurd h.2.2 hx
  | fail e => cases h
  | demand len next ih =>
    rw [eval] at h ⊢
    split
    · next hlen =>
      rw [if_pos (by rw [List.length_append]; omega), List.take_append_of_le_length hlen,
        List.drop_append_of_le_length hlen] at h
      exact ih _ h
    · rfl

/-! ### Rounds -/

/-- As many rounds as there are values on the stream, each of which is read as something. -/
theorem eval_times_forall₂ {δ : Type*} {sees : δ → α → Prop} {vs : List δ} {enc : δ → List β}
    (h : ∀ v ∈ vs, ∃ a, sees v a ∧ ∀ s, p.eval (enc v ++ s) = .ok (a, s)) :
    ∃ as, List.Forall₂ sees vs as ∧
      ∀ s, (times p vs.length).eval (vs.flatMap enc ++ s) = .ok (as, s) := by
  induction vs with
  | nil => exact ⟨[], .nil, fun _ => rfl⟩
  | cons v vs ih =>
    obtain ⟨⟨a, ha, hread⟩, hvs⟩ := List.forall_mem_cons.mp h
    obtain ⟨as, has, hreads⟩ := ih hvs
    refine ⟨a :: as, .cons ha has, fun s => ?_⟩
    rw [List.length_cons, times, List.flatMap_cons, List.append_assoc, eval_bind_of_ok (hread _),
      eval_bind_of_ok (hreads s)]
    rfl

theorem eval_times_map {δ : Type*} {g : δ → α} {vs : List δ} {enc : δ → List β}
    (h : ∀ v ∈ vs, ∀ s, p.eval (enc v ++ s) = .ok (g v, s)) (s : List β) :
    (times p vs.length).eval (vs.flatMap enc ++ s) = .ok (vs.map g, s) := by
  have hround : ∀ v ∈ vs, ∃ a, g v = a ∧ ∀ s, p.eval (enc v ++ s) = .ok (a, s) :=
    fun v hv => ⟨g v, rfl, h v hv⟩
  obtain ⟨as, has, heval⟩ := eval_times_forall₂ hround
  rw [← List.forall₂_map_left_iff, List.forall₂_eq_eq_eq] at has
  rw [heval, has]

/-- The values come back as they were put. -/
theorem eval_times {vs : List α} {enc : α → List β}
    (h : ∀ v ∈ vs, ∀ s, p.eval (enc v ++ s) = .ok (v, s)) (s : List β) :
    (times p vs.length).eval (vs.flatMap enc ++ s) = .ok (vs, s) := by
  have hround : ∀ v ∈ vs, ∀ s, p.eval (enc v ++ s) = .ok (id v, s) := h
  rw [eval_times_map hround, List.map_id]

end Evaluation

/-! ### What is taken, and what is thrown -/

/-- Every answer takes so many bytes. -/
def Takes (k : ℕ) (p : Reading β ε α) : Prop :=
  ∀ s a r, p.eval s = .ok (a, r) → r.length + k ≤ s.length

/-- On a stream of fewer than `n` bytes, nothing else is thrown. -/
def Throws (P : ε → Prop) (n : ℕ) (p : Reading β ε α) : Prop :=
  ∀ s, s.length < n → ∀ e, p.eval s = .error (.thrown e) → P e

/-- Every answer is such. -/
def Yields (Q : α → Prop) (p : Reading β ε α) : Prop := ∀ s a r, p.eval s = .ok (a, r) → Q a

section Bounds
variable {p : Reading β ε α} {f : α → Reading β ε γ} {P : ε → Prop} {Q : α → Prop} {R : γ → Prop}
variable {k n : ℕ}

theorem takes_readAll (len : ℕ) : Takes len (readAll len : Reading β ε (List β)) := by
  intro s a r h
  obtain ⟨rfl, rfl⟩ := eval_readAll_eq_ok.mp h
  exact Nat.le_of_eq (by rw [List.length_append, Nat.add_comm])

theorem Takes.bind (h : Takes k p) (f : α → Reading β ε γ) : Takes k (p >>= f) := by
  intro s c x hc
  obtain ⟨a, r, ha, hc⟩ := eval_bind_eq_ok.mp hc
  exact Nat.le_trans (Nat.add_le_add_right (eval_length_le hc) k) (h s a r ha)

/-- There is no stream of fewer than no bytes. -/
theorem throws_zero (P : ε → Prop) (p : Reading β ε α) : Throws P 0 p :=
  fun _ hs => absurd hs (Nat.not_lt_zero _)

theorem throws_pure (P : ε → Prop) (n : ℕ) (a : α) : Throws P n (pure a : Reading β ε α) := by
  rintro s - e ⟨⟩

theorem throws_fail {e : ε} (h : P e) (n : ℕ) : Throws P n (fail e : Reading β ε α) := by
  rintro s - e' ⟨⟩
  exact h

theorem throws_readAll (P : ε → Prop) (n len : ℕ) :
    Throws P n (readAll len : Reading β ε (List β)) := by
  intro s _ e h
  rw [eval_readAll] at h
  split at h <;> cases h

theorem throws_ite {c : Prop} [Decidable c] {q : Reading β ε α} (hp : Throws P n p)
    (hq : ¬ c → Throws P n q) : Throws P n (if c then p else q) := by
  split
  · exact hp
  · next hc => exact hq hc

theorem Throws.mono {m : ℕ} (h : Throws P n p) (hm : m ≤ n) : Throws P m p :=
  fun s hs => h s (Nat.lt_of_lt_of_le hs hm)

/-- After `k` bytes there are as many fewer. -/
theorem Throws.after (htakes : Takes k p) (hp : Throws P (n + k) p) (hf : ∀ a, Throws P n (f a)) :
    Throws P (n + k) (p >>= f) := by
  intro s hs e h
  rcases eval_bind_eq_error.mp h with h | ⟨a, r, ha, h⟩
  · exact hp s hs e h
  · have hlength := htakes s a r ha
    exact hf a r (by omega) e h

theorem Throws.bind (hp : Throws P n p) (hf : ∀ a, Throws P n (f a)) : Throws P n (p >>= f) :=
  Throws.after (k := 0) (fun _ _ _ h => eval_length_le h) hp hf

theorem Throws.map (hp : Throws P n p) (g : α → γ) : Throws P n (p >>= fun a => pure (g a)) :=
  hp.bind fun a => throws_pure P n (g a)

theorem Throws.times (hp : Throws P n p) (m : ℕ) : Throws P n (times p m) := by
  induction m with
  | zero => exact throws_pure P n []
  | succ m ih => exact hp.bind fun a => ih.bind fun as => throws_pure P n _

theorem yields_pure {a : α} (h : Q a) : Yields Q (pure a : Reading β ε α) := by
  rintro s _ r ⟨⟩
  exact h

theorem yields_fail (Q : α → Prop) (e : ε) : Yields Q (fail e : Reading β ε α) := by
  rintro s a r ⟨⟩

theorem Yields.bind (hp : Yields Q p) (hf : ∀ a, Q a → Yields R (f a)) : Yields R (p >>= f) := by
  intro s c x h
  obtain ⟨a, r, ha, h⟩ := eval_bind_eq_ok.mp h
  exact hf a (hp s a r ha) r c x h

theorem yields_bind (p : Reading β ε α) (hf : ∀ a, Yields R (f a)) : Yields R (p >>= f) := by
  intro s c x h
  obtain ⟨a, r, -, h⟩ := eval_bind_eq_ok.mp h
  exact hf a r c x h

theorem Yields.times (hp : Yields Q p) (m : ℕ) :
    Yields (fun as => as.length = m ∧ ∀ a ∈ as, Q a) (times p m) := by
  induction m with
  | zero => exact yields_pure ⟨rfl, by simp⟩
  | succ m ih =>
    refine hp.bind fun a ha => ih.bind fun as has => yields_pure ⟨?_, ?_⟩
    · rw [List.length_cons, has.1]
    · exact List.forall_mem_cons.mpr ⟨ha, has.2⟩

end Bounds

/-! ### Rounds until the end -/

section Rounds
variable {σ : Type w}

/-- A loop of at most `n` rounds, each of which goes on or comes to the end; `e` is what comes of it
    should there be no round left. -/
def rounds (e : ε) (body : σ → Reading β ε (α ⊕ σ)) : ℕ → σ → Reading β ε α
  | 0, _ => fail e
  | n + 1, a => body a >>= Sum.elim pure (rounds e body n)

variable {e : ε} {body : σ → Reading β ε (α ⊕ σ)} {P : ε → Prop} {n : ℕ}

/-- Where every round takes a byte, the bytes are at their end before the rounds are. -/
theorem throws_rounds (htakes : ∀ a, Takes 1 (body a)) (h : ∀ a, Throws P n (body a)) (a : σ) :
    Throws P n (rounds e body n a) := by
  induction n generalizing a with
  | zero => exact throws_zero P _
  | succ n ih =>
    refine Throws.after (htakes a) (h a) fun next => ?_
    cases next with
    | inl b => exact throws_pure P n b
    | inr b => exact ih (fun c => (h c).mono (Nat.le_succ n)) b

/-- What every round keeps up stands at the end. -/
theorem yields_rounds {I : σ → Prop} {Q : α → Prop}
    (h : ∀ a, I a → Yields (Sum.elim Q I) (body a)) (n : ℕ) {a : σ} (ha : I a) :
    Yields Q (rounds e body n a) := by
  induction n generalizing a with
  | zero => exact yields_fail Q e
  | succ n ih =>
    refine (h a ha).bind fun next hnext => ?_
    cases next with
    | inl b => exact yields_pure hnext
    | inr b => exact ih hnext

theorem eval_rounds_inl {a : σ} {b : α} {s r : List β} (h : (body a).eval s = .ok (.inl b, r)) (n : ℕ) :
    (rounds e body (n + 1) a).eval s = .ok (b, r) := eval_bind_of_ok h

theorem eval_rounds_inr {a b : σ} {s r : List β} (h : (body a).eval s = .ok (.inr b, r)) (n : ℕ) :
    (rounds e body (n + 1) a).eval s = (rounds e body n b).eval r := eval_bind_of_ok h

end Rounds

end Reading

/-! ### Transports -/

/-- What hands bytes over: `readAll` throws where there are not enough. -/
structure Transport (β : Type u) (τ : Type w) where
  readAll : ℕ → τ → Option (List β × τ)

/-- The transport hands over the bytes of a stream, in their order. -/
def Transport.Delivers {τ : Type w} (T : Transport β τ) (rest : τ → List β) : Prop :=
  ∀ len t, (len ≤ (rest t).length →
      ∃ t', T.readAll len t = some ((rest t).take len, t') ∧ rest t' = (rest t).drop len) ∧
    ((rest t).length < len → T.readAll len t = none)

namespace Reading

/-- Reading from a transport. -/
def run {τ : Type w} (T : Transport β τ) : Reading β ε α → τ → Except (Halt ε) (α × τ)
  | done a, t => .ok (a, t)
  | fail e, _ => .error (.thrown e)
  | demand len next, t => match T.readAll len t with
    | none => .error .cut
    | some (bs, t) => (next bs).run T t

variable {τ : Type w} {T : Transport β τ} {rest : τ → List β}

/-- The portions do not matter. -/
theorem run_eval (hT : T.Delivers rest) (p : Reading β ε α) (t : τ) :
    (p.run T t).map (fun at' => (at'.1, rest at'.2)) = p.eval (rest t) := by
  induction p generalizing t with
  | done a => rfl
  | fail e => rfl
  | demand len next ih =>
    rw [eval, run]
    obtain ⟨henough, hshort⟩ := hT len t
    by_cases hlen : len ≤ (rest t).length
    · obtain ⟨t', hread, hrest⟩ := henough hlen
      rw [if_pos hlen, hread, ← hrest]
      exact ih _ t'
    · rw [if_neg hlen, hshort (Nat.lt_of_not_le hlen)]
      rfl

theorem run_of_eval (hT : T.Delivers rest) {p : Reading β ε α} {t : τ} {a : α} {r : List β}
    (h : p.eval (rest t) = .ok (a, r)) : ∃ t', p.run T t = .ok (a, t') ∧ rest t' = r := by
  rw [← run_eval hT] at h
  cases hrun : p.run T t with
  | error e =>
    rw [hrun] at h
    cases h
  | ok at' =>
    rw [hrun] at h
    cases h
    exact ⟨at'.2, rfl, rfl⟩

theorem run_of_eval_error (hT : T.Delivers rest) {p : Reading β ε α} {t : τ} {e : Halt ε}
    (h : p.eval (rest t) = .error e) : p.run T t = .error e := by
  rw [← run_eval hT] at h
  cases hrun : p.run T t with
  | error e' =>
    rw [hrun] at h
    cases h
    rfl
  | ok at' =>
    rw [hrun] at h
    cases h

end Reading

end Schemes
