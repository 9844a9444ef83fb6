import VaeDb.Site.Query

/-! The five loops of `Query::Query`, seen as insertions.

    Four of the loops put `/text()` behind a name. They differ in what they want in front of the name
    (its key) and after it (the stop). A point of such a loop is a cut of a text behind a name that
    has the key in front and the stop after it; a round cuts the text at a point and inserts there.
    The fifth loop turns `/7` into `[@id='7']`.

        text:    a [ name = b            point:  a [ name │ = b
        round:   a [ name /text() = b

    A point is the end of a name in front of a character that ends names, and `/text()` brings no
    such place: each round uses one up, and makes no point for any other loop. -/

namespace VaeDb.Rewriting
open Schemes Cpp Query

/-- What a loop inserts. -/
def textStep : List Char := ['/', 't', 'e', 'x', 't', '(', ')']

/-- What the patterns take for a name: a first character and at least one more. -/
def Name (n : List Char) : Prop :=
  ∃ c run, n = c :: run ∧ nameStart c ∧ run ≠ [] ∧ ∀ d ∈ run, nameChar d

/-- A loop that puts `/text()` behind a name. -/
structure TextLoop where
  rule : Pattern × Rewrite
  key : List Char → Prop
  stop : List Char → Prop
  parse : ∀ {ms}, List.Forall₂ Atom.Accepts rule.1 ms → ∃ k n w, key k ∧ Name n ∧ stop w ∧
    ms.flatten = k ++ n ++ w ∧ rule.2.apply ms = k ++ n ++ textStep ++ w
  unparse : ∀ {k n w}, key k → Name n → stop w →
    ∃ ms, List.Forall₂ Atom.Accepts rule.1 ms ∧ ms.flatten = k ++ n ++ w
  key_ne_nil : ∀ {k}, key k → k ≠ []
  key_attribute : ¬ key ['@']
  key_special : ∀ {k e}, key k → e ∈ k → ¬ nameChar e → e ≠ ' ' → k = [e]
  stop_head : ∀ {w}, stop w → ∃ e x, w = e :: x ∧ nameEnd e
  stop_slash : ∀ {w}, stop w → '/' ∉ w
  stop_special : ∀ {w e}, stop w → e ∈ w → ¬ nameChar e → e ≠ ' ' → w = [e]

/-! ### The loops -/

/-- ` or ` and ` and `. -/
def Word (w : List Char) : Prop := w = [' ', 'o', 'r', ' '] ∨ w = [' ', 'a', 'n', 'd', ' ']

theorem word_special {w : List Char} {e : Char} (h : Word w) (he : e ∈ w) (hchar : ¬ nameChar e)
    (hblank : e ≠ ' ') : w = [e] := by
  exfalso
  rcases h with rfl | rfl
  · simp only [List.mem_cons, List.not_mem_nil, or_false] at he
    rcases he with rfl | rfl | rfl | rfl <;> contradiction
  · simp only [List.mem_cons, List.not_mem_nil, or_false] at he
    rcases he with rfl | rfl | rfl | rfl | rfl <;> contradiction

theorem word_ne_nil {w : List Char} (h : Word w) : w ≠ [] := by
  rcases h with rfl | rfl <;> simp

theorem word_head {w : List Char} (h : Word w) : ∃ e x, w = e :: x ∧ nameEnd e := by
  rcases h with rfl | rfl <;> exact ⟨_, _, rfl, by decide⟩

theorem word_quote {w : List Char} (h : Word w) : '\'' ∉ w := by
  rcases h with rfl | rfl <;> decide

theorem word_slash {w : List Char} (h : Word w) : '/' ∉ w := by
  rcases h with rfl | rfl <;> decide

/-- The words of a pattern, between blanks. -/
theorem word_iff {w : List Char} :
    Word w ↔ ∃ x ∈ ["or", "and"], w = " ".toList ++ x.toList ++ " ".toList := by
  simp [Word]

/-- One character that ends a name. -/
def End (w : List Char) : Prop := ∃ e, nameEnd e ∧ w = [e]

theorem end_slash {w : List Char} (h : End w) : '/' ∉ w := by
  obtain ⟨e, he, rfl⟩ := h
  intro hmem
  rw [List.mem_singleton] at hmem
  subst hmem
  exact absurd he (by decide)

theorem eq_singleton_of_mem {e c : Char} {w : List Char} (h : w = [c]) (he : e ∈ w) : w = [e] := by
  subst h
  rw [List.mem_singleton.mp he]

def openLoop : TextLoop where
  rule := openText
  key k := k = ['[']
  stop := End
  parse := by
    intro ms h
    simp only [openText, List.forall₂_cons_left_iff, List.forall₂_nil_left_iff] at h
    obtain ⟨_, _, ⟨w, hw, rfl⟩, ⟨_, _, ⟨c, hc, rfl⟩, ⟨run, _, ⟨hne, hrun⟩,
      ⟨_, _, ⟨e, he, rfl⟩, rfl, rfl⟩, rfl⟩, rfl⟩, rfl⟩ := h
    rw [List.mem_singleton] at hw
    subst hw
    exact ⟨['['], c :: run, [e], rfl, ⟨c, run, rfl, hc, hne, hrun⟩, ⟨e, he, rfl⟩, by simp,
      by simp [openText, Rewrite.apply, textStep]⟩
  unparse := by
    rintro k n w rfl ⟨c, run, rfl, hc, hne, hrun⟩ ⟨e, he, rfl⟩
    refine ⟨[['['], [c], run, [e]], ?_, by simp⟩
    exact .cons ⟨"[", by simp, rfl⟩ (.cons ⟨c, hc, rfl⟩ (.cons ⟨hne, hrun⟩ (.cons ⟨e, he, rfl⟩ .nil)))
  key_ne_nil h := by simp [h]
  key_attribute := by decide
  key_special h he _ _ := eq_singleton_of_mem h he
  stop_head := by
    rintro w ⟨e, he, rfl⟩
    exact ⟨e, [], rfl, he⟩
  stop_slash := end_slash
  stop_special := by
    rintro w e ⟨d, -, h⟩ he - -
    exact eq_singleton_of_mem h he

def rightLoop : TextLoop where
  rule := rightText
  key := Word
  stop := End
  parse := by
    intro ms h
    simp only [rightText, List.forall₂_cons_left_iff, List.forall₂_nil_left_iff] at h
    obtain ⟨_, _, ⟨w₁, hw₁, rfl⟩, ⟨_, _, ⟨w, hw, rfl⟩, ⟨_, _, ⟨w₂, hw₂, rfl⟩, ⟨_, _, ⟨c, hc, rfl⟩,
      ⟨run, _, ⟨hne, hrun⟩, ⟨_, _, ⟨e, he, rfl⟩, rfl, rfl⟩, rfl⟩, rfl⟩, rfl⟩, rfl⟩, rfl⟩ := h
    rw [List.mem_singleton] at hw₁ hw₂
    subst hw₁ hw₂
    exact ⟨_, c :: run, [e], word_iff.mpr ⟨w, hw, rfl⟩, ⟨c, run, rfl, hc, hne, hrun⟩, ⟨e, he, rfl⟩,
      by simp, by simp [rightText, Rewrite.apply, textStep]⟩
  unparse := by
    rintro k n w hk ⟨c, run, rfl, hc, hne, hrun⟩ ⟨e, he, rfl⟩
    obtain ⟨x, hx, rfl⟩ := word_iff.mp hk
    refine ⟨[" ".toList, x.toList, " ".toList, [c], run, [e]], ?_, by simp⟩
    exact .cons ⟨" ", by simp, rfl⟩ (.cons ⟨x, hx, rfl⟩ (.cons ⟨" ", by simp, rfl⟩
      (.cons ⟨c, hc, rfl⟩ (.cons ⟨hne, hrun⟩ (.cons ⟨e, he, rfl⟩ .nil)))))
  key_ne_nil := word_ne_nil
  key_attribute := by simp [Word]
  key_special := word_special
  stop_head := by
    rintro w ⟨e, he, rfl⟩
    exact ⟨e, [], rfl, he⟩
  stop_slash := end_slash
  stop_special := by
    rintro w e ⟨d, -, h⟩ he - -
    exact eq_singleton_of_mem h he

/-- Any character but the one that starts an attribute. -/
def Guard (k : List Char) : Prop := ∃ g, g ≠ '@' ∧ k = [g]

theorem guard_ne_nil {k : List Char} (h : Guard k) : k ≠ [] := by
  obtain ⟨g, -, rfl⟩ := h
  simp

theorem guard_attribute : ¬ Guard ['@'] := by
  rintro ⟨g, hg, heq⟩
  exact hg (List.singleton_inj.mp heq).symm

theorem guard_special {k : List Char} {e : Char} (h : Guard k) (he : e ∈ k) (_ : ¬ nameChar e)
    (_ : e ≠ ' ') : k = [e] := by
  obtain ⟨g, -, h⟩ := h
  exact eq_singleton_of_mem h he

def leftLoop : TextLoop where
  rule := leftText
  key := Guard
  stop := Word
  parse := by
    intro ms h
    simp only [leftText, List.forall₂_cons_left_iff, List.forall₂_nil_left_iff] at h
    obtain ⟨_, _, ⟨g, hg, rfl⟩, ⟨_, _, ⟨c, hc, rfl⟩, ⟨run, _, ⟨hne, hrun⟩, ⟨_, _, ⟨w₁, hw₁, rfl⟩,
      ⟨_, _, ⟨w, hw, rfl⟩, ⟨_, _, ⟨w₂, hw₂, rfl⟩, rfl, rfl⟩, rfl⟩, rfl⟩, rfl⟩, rfl⟩, rfl⟩ := h
    rw [List.mem_singleton] at hw₁ hw₂
    subst hw₁ hw₂
    exact ⟨[g], c :: run, _, ⟨g, by simpa using hg, rfl⟩, ⟨c, run, rfl, hc, hne, hrun⟩,
      word_iff.mpr ⟨w, hw, rfl⟩, by simp, by simp [leftText, Rewrite.apply, textStep]⟩
  unparse := by
    rintro k n w ⟨g, hg, rfl⟩ ⟨c, run, rfl, hc, hne, hrun⟩ hw
    obtain ⟨x, hx, rfl⟩ := word_iff.mp hw
    refine ⟨[[g], [c], run, " ".toList, x.toList, " ".toList], ?_, by simp⟩
    exact .cons ⟨g, by simpa using hg, rfl⟩ (.cons ⟨c, hc, rfl⟩ (.cons ⟨hne, hrun⟩
      (.cons ⟨" ", by simp, rfl⟩ (.cons ⟨x, hx, rfl⟩ (.cons ⟨" ", by simp, rfl⟩ .nil)))))
  key_ne_nil := guard_ne_nil
  key_attribute := guard_attribute
  key_special := guard_special
  stop_head := word_head
  stop_slash := word_slash
  stop_special := word_special

def closeLoop : TextLoop where
  rule := closeText
  key := Guard
  stop w := w = [']']
  parse := by
    intro ms h
    simp only [closeText, List.forall₂_cons_left_iff, List.forall₂_nil_left_iff] at h
    obtain ⟨_, _, ⟨g, hg, rfl⟩, ⟨_, _, ⟨c, hc, rfl⟩, ⟨run, _, ⟨hne, hrun⟩,
      ⟨_, _, ⟨w, hw, rfl⟩, rfl, rfl⟩, rfl⟩, rfl⟩, rfl⟩ := h
    rw [List.mem_singleton] at hw
    subst hw
    exact ⟨[g], c :: run, [']'], ⟨g, by simpa using hg, rfl⟩, ⟨c, run, rfl, hc, hne, hrun⟩, rfl,
      by simp, by simp [closeText, Rewrite.apply, textStep]⟩
  unparse := by
    rintro k n w ⟨g, hg, rfl⟩ ⟨c, run, rfl, hc, hne, hrun⟩ rfl
    refine ⟨[[g], [c], run, [']']], ?_, by simp⟩
    exact .cons ⟨g, by simpa using hg, rfl⟩ (.cons ⟨c, hc, rfl⟩ (.cons ⟨hne, hrun⟩
      (.cons ⟨"]", by simp, rfl⟩ .nil)))
  key_ne_nil := guard_ne_nil
  key_attribute := guard_attribute
  key_special := guard_special
  stop_head := by
    rintro w rfl
    exact ⟨']', [], rfl, by decide⟩
  stop_slash := by
    rintro w rfl
    decide
  stop_special h he _ _ := eq_singleton_of_mem h he

/-- The loops that insert `/text()`, in their order. -/
def textLoops : List TextLoop := [openLoop, rightLoop, leftLoop, closeLoop]

/-- The five loops on a part. -/
def loops : List (Pattern × Rewrite) := [idStep, openText, rightText, leftText, closeText]

theorem loops_eq : loops = idStep :: textLoops.map TextLoop.rule := rfl

/-! ### Points -/

/-- A cut behind a name that has its key in front and its stop after it. -/
def TextLoop.Point (L : TextLoop) (u v : List Char) : Prop :=
  ∃ a k n w b, L.key k ∧ Name n ∧ L.stop w ∧ u = a ++ k ++ n ∧ v = w ++ b

/-- A text without a point of the loop. -/
def TextLoop.Free (L : TextLoop) (s : List Char) : Prop := ∀ u v, s = u ++ v → ¬ L.Point u v

variable {L : TextLoop} {s s' u v p q : List Char}

theorem free_iff : replace L.rule.1 L.rule.2 s = none ↔ L.Free s := by
  rw [replace_eq_none]
  constructor
  · rintro h _ _ rfl ⟨a, k, n, w, b, hk, hn, hw, rfl, rfl⟩
    obtain ⟨ms, hms, heq⟩ := L.unparse hk hn hw
    exact h a ms b hms (by simp [heq])
  · rintro h a ms b hms rfl
    obtain ⟨k, n, w, hk, hn, hw, heq, -⟩ := L.parse hms
    exact h (a ++ k ++ n) (w ++ b) (by simp [heq]) ⟨a, k, n, w, b, hk, hn, hw, rfl, rfl⟩

/-- A round inserts at a point. -/
theorem textLoop_round (h : replace L.rule.1 L.rule.2 s = some s') :
    ∃ u v, L.Point u v ∧ s = u ++ v ∧ s' = u ++ textStep ++ v := by
  obtain ⟨a, ms, b, hms, rfl, rfl⟩ := replace_eq_some h
  obtain ⟨k, n, w, hk, hn, hw, heq, happly⟩ := L.parse hms
  exact ⟨a ++ k ++ n, w ++ b, ⟨a, k, n, w, b, hk, hn, hw, rfl, rfl⟩, by simp [heq], by simp [happly]⟩

/-- A name character in front of a character that ends names. -/
structure Boundary (u v : List Char) : Prop where
  last : ∃ x d, u = x ++ [d] ∧ nameChar d
  head : ∃ e y, v = e :: y ∧ nameEnd e

theorem nameEnd_iff {c : Char} : nameEnd c ↔ c ≠ '(' ∧ ¬ nameChar c := by
  simp [nameEnd]

theorem nameChar_of_nameStart {c : Char} (h : nameStart c) : nameChar c := by
  simp [nameChar, h]

theorem Name.all {n : List Char} (h : Name n) : ∀ d ∈ n, nameChar d := by
  obtain ⟨c, run, rfl, hc, -, hrun⟩ := h
  intro d hd
  rcases List.mem_cons.mp hd with rfl | hd
  · exact nameChar_of_nameStart hc
  · exact hrun d hd

theorem Name.ne_nil {n : List Char} (h : Name n) : n ≠ [] := by
  obtain ⟨c, run, rfl, -⟩ := h
  exact List.cons_ne_nil c run

theorem Name.quote {n : List Char} (h : Name n) : '\'' ∉ n :=
  fun hmem => absurd (h.all _ hmem) (by decide)

theorem Name.two_le {n : List Char} (h : Name n) : 2 ≤ n.length := by
  obtain ⟨c, run, rfl, -, hne, -⟩ := h
  have := List.length_pos_of_ne_nil hne
  rw [List.length_cons]
  omega

theorem TextLoop.Point.boundary (h : L.Point u v) : Boundary u v := by
  obtain ⟨a, k, n, w, b, -, hn, hw, rfl, rfl⟩ := h
  obtain ⟨e, x, rfl, he⟩ := L.stop_head hw
  refine ⟨⟨a ++ k ++ n.dropLast, n.getLast hn.ne_nil, ?_, hn.all _ (List.getLast_mem _)⟩,
    ⟨e, x ++ b, rfl, he⟩⟩
  rw [List.append_assoc (a ++ k), List.dropLast_concat_getLast]

/-! ### Each round uses up a boundary -/

/-- The number of boundaries. -/
def edges : List Char → ℕ
  | c :: d :: s => (if nameChar c && nameEnd d then 1 else 0) + edges (d :: s)
  | _ => 0

theorem edges_append (u v : List Char) (c d : Char) :
    edges (u ++ c :: d :: v) =
      edges (u ++ [c]) + (if nameChar c && nameEnd d then 1 else 0) + edges (d :: v) := by
  induction u with
  | nil => simp [edges]
  | cons x u ih =>
    cases u with
    | nil => simp [edges]; omega
    | cons y u =>
      simp only [List.cons_append] at ih
      simp only [List.cons_append, edges, ih]
      omega

theorem edges_le (s : List Char) : edges s ≤ s.length := by
  induction s with
  | nil => simp [edges]
  | cons c s ih =>
    cases s with
    | nil => simp [edges]
    | cons d s =>
      rw [edges, List.length_cons]
      split <;> omega

theorem edges_insert (h : Boundary u v) : edges (u ++ textStep ++ v) + 1 = edges (u ++ v) := by
  obtain ⟨⟨x, d, rfl, hd⟩, ⟨e, y, rfl, he⟩⟩ := h
  have hold : edges (x ++ [d] ++ e :: y) = edges (x ++ [d]) + 1 + edges (e :: y) := by
    rw [List.append_assoc, List.singleton_append, edges_append, hd, he]
    rfl
  have hstep : edges (textStep ++ e :: y) = edges (e :: y) := by
    simp [textStep, edges, show nameEnd '(' = false by decide, show nameChar '(' = false by decide,
      show nameChar ')' = false by decide, show nameEnd 't' = false by decide,
      show nameEnd 'e' = false by decide, show nameEnd 'x' = false by decide]
  have hnew : edges (x ++ [d] ++ textStep ++ e :: y) = edges (x ++ [d]) + edges (e :: y) := by
    rw [List.append_assoc, List.append_assoc, List.singleton_append, ← hstep, textStep,
      List.cons_append, edges_append, show nameEnd '/' = false by decide, Bool.and_false]
    rfl
  omega

/-! ### No new points -/

theorem edges_textStep : edges textStep = 0 := by decide

/-- There is no boundary inside of what is inserted. -/
theorem not_boundary_inside (h : Boundary p q) (hp : p = u ++ s) (hs : s ≠ []) (hs' : s' ≠ [])
    (hq : q = s' ++ v) : textStep ≠ s ++ s' := by
  intro heq
  obtain ⟨⟨x, d, rfl, hd⟩, ⟨e, y, rfl, he⟩⟩ := h
  obtain ⟨s, c, rfl⟩ := List.eq_nil_or_concat s |>.resolve_left hs
  obtain ⟨f, s', rfl⟩ := List.exists_cons_of_ne_nil hs'
  rw [List.concat_eq_append, ← List.append_assoc] at hp
  obtain ⟨-, rfl⟩ := List.append_inj' hp rfl |>.imp_right List.singleton_inj.mp
  obtain rfl := (List.cons.inj hq).1
  have hedges := edges_textStep
  rw [heq, List.concat_eq_append, List.append_assoc, List.singleton_append, edges_append, hd, he] at hedges
  simp at hedges

/-- A name and its key end behind a special character: they are behind it, or the character is the
    whole key and the name follows at once. -/
theorem key_after {a k n y m : List Char} {e : Char} (hchar : ¬ nameChar e) (hblank : e ≠ ' ')
    (hk : L.key k) (hn : Name n) (heq : a ++ k ++ n = y ++ e :: m) :
    (k = [e] ∧ n = m) ∨ ∃ a', m = a' ++ k ++ n := by
  have hname : e ∉ n := fun hmem => hchar (hn.all e hmem)
  rw [List.append_assoc] at heq
  rcases List.append_eq_append_iff.mp heq with ⟨z, rfl, hz⟩ | ⟨z, rfl, hz⟩
  · rcases List.append_eq_append_iff.mp hz with ⟨x, rfl, rfl⟩ | ⟨x, rfl, hx⟩
    · exact absurd (by simp) hname
    · cases x with
      | nil =>
        rw [List.nil_append] at hx
        exact absurd (by simp [← hx]) hname
      | cons d x =>
        obtain ⟨rfl, rfl⟩ := List.cons.inj hx
        have hone := L.key_special hk (by simp) hchar hblank
        have hlen := congrArg List.length hone
        simp only [List.length_append, List.length_cons, List.length_nil] at hlen
        obtain rfl : x = [] := List.eq_nil_of_length_eq_zero (by omega)
        exact .inl ⟨hone, rfl⟩
  · cases z with
    | nil =>
      cases k with
      | nil => exact absurd (by simp [← show e :: m = n from hz]) hname
      | cons d k =>
        obtain ⟨rfl, rfl⟩ := List.cons.inj hz
        have hone := L.key_special hk (by simp) hchar hblank
        obtain ⟨-, rfl⟩ := List.cons.inj hone
        exact .inl ⟨rfl, rfl⟩
    | cons d z =>
      obtain ⟨-, rfl⟩ := List.cons.inj hz
      exact .inr ⟨z, by simp⟩

/-- A name does not start where a boundary ends. -/
theorem Boundary.ne_name {n : List Char} (h : Boundary u (n ++ q)) : ¬ Name n := by
  rintro ⟨c, run, rfl, hc, -⟩
  obtain ⟨e, y, he, hend⟩ := h.head
  obtain rfl := (List.cons.inj he).1
  exact (nameEnd_iff.mp hend).2 (nameChar_of_nameStart hc)

theorem key_behind {a k n y : List Char} (h : Boundary u (y ++ q)) (hk : L.key k) (hn : Name n)
    (heq : a ++ k ++ n = u ++ textStep ++ y) : ∃ a', u ++ y = a' ++ k ++ n := by
  have hclose : u ++ textStep ++ y = u ++ ['/', 't', 'e', 'x', 't', '('] ++ ')' :: y := by
    simp [textStep]
  rcases key_after (by decide) (by decide) hk hn (heq.trans hclose) with ⟨-, rfl⟩ | ⟨a', rfl⟩
  · exact absurd hn h.ne_name
  · exact ⟨u ++ a', by simp⟩

/-- A point after an insertion was one before, on one side of it. -/
theorem point_of_insert (h : Boundary u v) (hp : L.Point p q) (heq : p ++ q = u ++ textStep ++ v) :
    (∃ x, u = p ++ x ∧ L.Point p (x ++ v)) ∨
      ∃ y, v = y ++ q ∧ p = u ++ textStep ++ y ∧ L.Point (u ++ y) q := by
  have hboundary := hp.boundary
  obtain ⟨a, k, n, w, b, hk, hn, hw, rfl, rfl⟩ := hp
  rw [List.append_assoc u] at heq
  rcases List.append_eq_append_iff.mp heq with ⟨x, rfl, hx⟩ | ⟨y, hy, hv⟩
  · -- In front of the insertion, the stop has no slash to share with it.
    refine .inl ⟨x, rfl, ?_⟩
    rcases List.append_eq_append_iff.mp hx with ⟨z, rfl, -⟩ | ⟨z, rfl, hz⟩
    · exact ⟨a, k, n, w, z ++ v, hk, hn, hw, rfl, by simp⟩
    · cases z with
      | nil => exact ⟨a, k, n, x, v, hk, hn, by simpa using hw, rfl, rfl⟩
      | cons c z =>
        obtain rfl := (List.cons.inj hz).1
        exact absurd (by simp) (L.stop_slash hw)
  · rcases List.append_eq_append_iff.mp hv with ⟨y, rfl, rfl⟩ | ⟨z, hz, hq⟩
    · rw [← List.append_assoc] at hy
      obtain ⟨a', ha'⟩ := key_behind h hk hn hy
      exact .inr ⟨y, rfl, hy, ⟨a', k, n, w, b, hk, hn, hw, ha', rfl⟩⟩
    · by_cases hz' : z = []
      · subst hz'
        rw [List.append_nil] at hz
        subst hz
        rw [List.nil_append] at hq
        subst hq
        have heq' : a ++ k ++ n = u ++ textStep ++ [] := by rw [hy, List.append_nil]
        obtain ⟨a', ha'⟩ := key_behind (y := []) h hk hn heq'
        exact .inr ⟨[], rfl, heq', ⟨a', k, n, w, b, hk, hn, hw, ha', rfl⟩⟩
      · refine absurd hz (not_boundary_inside hboundary hy ?_ hz' hq)
        rintro rfl
        obtain ⟨e, x, he, hend⟩ := hboundary.head
        rw [hq, ← show textStep = z from hz, textStep, List.cons_append] at he
        obtain rfl := (List.cons.inj he).1
        exact absurd hend (by decide)

theorem TextLoop.Free.insert (hfree : L.Free (u ++ v)) (h : Boundary u v) :
    L.Free (u ++ textStep ++ v) := by
  intro p q heq hpoint
  rcases point_of_insert h hpoint heq.symm with ⟨x, rfl, hx⟩ | ⟨y, rfl, -, hy⟩
  · exact hfree p (x ++ v) (by simp) hx
  · exact hfree (u ++ y) q (by simp) hy

/-! ### The loop for ids -/

/-- A text without a digit behind a slash. -/
def IdFree (s : List Char) : Prop := s.IsChain fun c d => c = '/' → ¬ isdigit d

theorem idStep_matches {ms : List (List Char)} :
    List.Forall₂ Atom.Accepts idStep.1 ms ↔
      ∃ ds, ds ≠ [] ∧ (∀ d ∈ ds, isdigit d) ∧ ms = [['/'], ds] := by
  simp only [idStep, List.forall₂_cons_left_iff, List.forall₂_nil_left_iff]
  constructor
  · rintro ⟨_, _, ⟨w, hw, rfl⟩, ⟨ds, _, ⟨hne, hds⟩, rfl, rfl⟩, rfl⟩
    rw [List.mem_singleton] at hw
    subst hw
    exact ⟨ds, hne, hds, rfl⟩
  · rintro ⟨ds, hne, hds, rfl⟩
    exact ⟨['/'], [ds], ⟨"/", by simp, rfl⟩, ⟨ds, [], ⟨hne, hds⟩, rfl, rfl⟩, rfl⟩

theorem idFree_iff : replace idStep.1 idStep.2 s = none ↔ IdFree s := by
  rw [replace_eq_none, IdFree, List.isChain_iff_forall_rel_of_append_cons_cons]
  constructor
  · rintro h c d u v rfl rfl hd
    exact h u [['/'], [d]] v (idStep_matches.mpr ⟨[d], by simp, by simpa using hd, rfl⟩) (by simp)
  · rintro h a ms b hms rfl
    obtain ⟨ds, hne, hds, rfl⟩ := idStep_matches.mp hms
    obtain ⟨d, ds, rfl⟩ := List.exists_cons_of_ne_nil hne
    have heq : a ++ [['/'], d :: ds].flatten ++ b = a ++ '/' :: d :: (ds ++ b) := by simp
    exact h heq rfl (hds d (by simp))

theorem IdFree.insert (hfree : IdFree (u ++ v)) (h : Boundary u v) : IdFree (u ++ textStep ++ v) := by
  obtain ⟨⟨x, d, rfl, hd⟩, ⟨e, y, rfl, he⟩⟩ := h
  obtain ⟨hu, hv, -⟩ := List.isChain_append.mp hfree
  have htext : IdFree textStep := by
    unfold IdFree
    decide
  refine List.isChain_append.mpr ⟨List.isChain_append.mpr ⟨hu, htext, ?_⟩, hv, ?_⟩
  · intro c _ f hf _
    obtain rfl : '/' = f := by simpa [textStep] using hf
    decide
  · intro c hc _ _ hslash
    obtain rfl : ')' = c := by simpa [textStep] using hc
    exact absurd hslash (by decide)

/-- What the loop for ids puts in the place of a slash and digits. -/
def idText (ds : List Char) : List Char :=
  ['[', '@', 'i', 'd', '=', '\''] ++ ds ++ ['\'', ']']

theorem idStep_round (h : replace idStep.1 idStep.2 s = some s') :
    ∃ u ds v, ds ≠ [] ∧ (∀ d ∈ ds, isdigit d) ∧ s = u ++ '/' :: ds ++ v ∧ s' = u ++ idText ds ++ v := by
  obtain ⟨u, ms, v, hms, rfl, rfl⟩ := replace_eq_some h
  obtain ⟨ds, hne, hds, rfl⟩ := idStep_matches.mp hms
  exact ⟨u, ds, v, hne, hds, by simp, by simp [idStep, Rewrite.apply, idText]⟩

theorem count_slash (h : replace idStep.1 idStep.2 s = some s') : s'.count '/' < s.count '/' := by
  obtain ⟨u, ds, v, -, hds, rfl, rfl⟩ := idStep_round h
  have hslash : ds.count '/' = 0 := by
    rw [List.count_eq_zero]
    intro hmem
    exact absurd (hds _ hmem) (by decide)
  simp [idText, hslash]

/-! ### The loops end -/

theorem edges_round (h : replace L.rule.1 L.rule.2 s = some s') : edges s' < edges s := by
  obtain ⟨u, v, hpoint, rfl, rfl⟩ := textLoop_round h
  have := edges_insert hpoint.boundary
  omega

/-- A loop of the constructor, from one text to another. -/
def Loop (r : Pattern × Rewrite) (s s' : List Char) : Prop :=
  Relation.ReflTransGen (fun s s' => replace r.1 r.2 s = some s') s s' ∧ replace r.1 r.2 s' = none

theorem mem_loops {r : Pattern × Rewrite} :
    r ∈ loops ↔ r = idStep ∨ ∃ L ∈ textLoops, r = L.rule := by
  simp [loops_eq, eq_comm]

/-- Each loop ends, after no more rounds than the part has characters. -/
theorem replaceAll_ends {r : Pattern × Rewrite} (hr : r ∈ loops) (s : List Char) :
    ∃ s', replaceAll r s = .ok s' := by
  simp only [replaceAll, deref_eq_ok]
  rcases mem_loops.mp hr with rfl | ⟨L, -, rfl⟩
  · apply replaceWhile_terminates (List.count '/')
    · exact fun s s' => count_slash
    · exact Nat.lt_succ_of_le List.count_le_length
  · apply replaceWhile_terminates edges
    · exact fun s s' => edges_round
    · exact Nat.lt_succ_of_le (edges_le s)

theorem loop_of_replaceAll {r : Pattern × Rewrite} (h : replaceAll r s = .ok s') : Loop r s s' :=
  replaceWhile_eq_some (deref_eq_ok.mp h)

/-- What every round of a loop keeps holds at its end. -/
theorem Loop.keeps {r : Pattern × Rewrite} {P : List Char → Prop} (h : Loop r s s')
    (hround : ∀ t t', replace r.1 r.2 t = some t' → P t → P t') (hs : P s) : P s' := by
  obtain ⟨hrounds, -⟩ := h
  induction hrounds with
  | refl => exact hs
  | tail _ hlast ih => exact hround _ _ hlast ih

/-- A text that none of the five loops changes. -/
structure Normal (s : List Char) : Prop where
  id : IdFree s
  text : ∀ L ∈ textLoops, L.Free s

theorem normal_iff : Normal s ↔ ∀ r ∈ loops, replace r.1 r.2 s = none := by
  constructor
  · intro h r hr
    rcases mem_loops.mp hr with rfl | ⟨L, hL, rfl⟩
    · exact idFree_iff.mpr h.id
    · exact free_iff.mpr (h.text L hL)
  · intro h
    exact ⟨idFree_iff.mp (h _ (mem_loops.mpr (.inl rfl))),
      fun L hL => free_iff.mp (h _ (mem_loops.mpr (.inr ⟨L, hL, rfl⟩)))⟩

/-- A later loop keeps what the earlier ones have settled. -/
theorem Loop.keeps_free {M : TextLoop} (h : Loop L.rule s s') (hfree : M.Free s) : M.Free s' := by
  refine h.keeps (fun t t' hround hfree => ?_) hfree
  obtain ⟨u, v, hpoint, rfl, rfl⟩ := textLoop_round hround
  exact hfree.insert hpoint.boundary

theorem Loop.keeps_idFree (h : Loop L.rule s s') (hfree : IdFree s) : IdFree s' := by
  refine h.keeps (fun t t' hround hfree => ?_) hfree
  obtain ⟨u, v, hpoint, rfl, rfl⟩ := textLoop_round hround
  exact hfree.insert hpoint.boundary

/-! ### A part -/

/-- Loops, one after another. -/
def runLoops (rs : List (Pattern × Rewrite)) (s : List Char) : Result (List Char) :=
  rs.foldlM (fun part r => replaceAll r part) s

@[simp] theorem runLoops_nil : runLoops [] s = .ok s := rfl

@[simp] theorem runLoops_cons {r : Pattern × Rewrite} {rs : List (Pattern × Rewrite)} :
    runLoops (r :: rs) s = replaceAll r s >>= runLoops rs := by
  rw [runLoops, List.foldlM_cons]
  rfl

theorem runLoops_ends {rs : List (Pattern × Rewrite)} (hrs : ∀ r ∈ rs, r ∈ loops) (s : List Char) :
    ∃ s', runLoops rs s = .ok s' := by
  induction rs generalizing s with
  | nil => exact ⟨s, rfl⟩
  | cons r rs ih =>
    obtain ⟨t, ht⟩ := replaceAll_ends (hrs r (by simp)) s
    obtain ⟨s', hs'⟩ := ih (fun r hr => hrs r (by simp [hr])) t
    exact ⟨s', by rw [runLoops_cons, bind_eq_ok]; exact ⟨t, ht, hs'⟩⟩

theorem runLoops_keeps {rs : List (Pattern × Rewrite)} {P : List Char → Prop}
    (h : runLoops rs s = .ok s')
    (hround : ∀ r ∈ rs, ∀ t t', replace r.1 r.2 t = some t' → P t → P t') (hs : P s) : P s' := by
  induction rs generalizing s with
  | nil =>
    obtain rfl := Except.ok.inj h
    exact hs
  | cons r rs ih =>
    rw [runLoops_cons, bind_eq_ok] at h
    obtain ⟨t, ht, h⟩ := h
    refine ih h (fun r hr => hround r (by simp [hr])) ?_
    exact (loop_of_replaceAll ht).keeps (hround r (by simp)) hs

/-- The loops that insert `/text()` leave a text that none of them changes. -/
theorem runLoops_free {Ls : List TextLoop} (h : runLoops (Ls.map TextLoop.rule) s = .ok s') :
    (∀ M : TextLoop, M.Free s → M.Free s') ∧ (∀ L ∈ Ls, L.Free s') ∧ (IdFree s → IdFree s') := by
  induction Ls generalizing s with
  | nil =>
    obtain rfl := Except.ok.inj h
    exact ⟨fun _ hfree => hfree, by simp, fun hfree => hfree⟩
  | cons L Ls ih =>
    rw [List.map_cons, runLoops_cons, bind_eq_ok] at h
    obtain ⟨t, ht, h⟩ := h
    have hloop := loop_of_replaceAll ht
    obtain ⟨hkeep, hfree, hid⟩ := ih h
    refine ⟨fun M hM => hkeep M (hloop.keeps_free hM), ?_, fun hs => hid (hloop.keeps_idFree hs)⟩
    intro M hM
    rcases List.mem_cons.mp hM with rfl | hM
    · exact hkeep M (free_iff.mp hloop.2)
    · exact hfree M hM

/-- The five loops leave a normal text. -/
theorem runLoops_normal (h : runLoops loops s = .ok s') : Normal s' := by
  rw [loops_eq, runLoops_cons, bind_eq_ok] at h
  obtain ⟨t, ht, h⟩ := h
  obtain ⟨-, hfree, hid⟩ := runLoops_free h
  exact ⟨hid (idFree_iff.mp (loop_of_replaceAll ht).2), hfree⟩

theorem replaceAll_of_none {r : Pattern × Rewrite} (h : replace r.1 r.2 s = none) :
    replaceAll r s = .ok s := by
  rw [replaceAll, deref_eq_ok, replaceWhile, h]

theorem runLoops_of_none {rs : List (Pattern × Rewrite)}
    (h : ∀ r ∈ rs, replace r.1 r.2 s = none) : runLoops rs s = .ok s := by
  induction rs with
  | nil => rfl
  | cons r rs ih =>
    rw [runLoops_cons, bind_eq_ok]
    exact ⟨s, replaceAll_of_none (h r (by simp)), ih fun r hr => h r (by simp [hr])⟩

theorem runLoops_of_normal (h : Normal s) : runLoops loops s = .ok s :=
  runLoops_of_none (normal_iff.mp h)

/-- What a refused part is refused with. -/
def doubleSlash : Failure := .queryError "Double-slashes are not supported in Vae queries."

theorem rewritePart_cases (part : String) : ∃ s, runLoops loops part.toList = .ok s ∧
    rewritePart part =
      if strstr (String.ofList s) "//" then .error doubleSlash else .ok (String.ofList s) := by
  obtain ⟨s, hs⟩ := @runLoops_ends loops (fun _ h => h) part.toList
  refine ⟨s, hs, ?_⟩
  have hbind : ∀ f : List Char → Result String, (.ok s >>= f) = f s := fun _ => rfl
  rw [rewritePart, ← loops, ← runLoops, hs, hbind]
  rfl

/-! ### The parts of a query -/

/-- The elements at even positions. -/
def evens {α : Type} : List α → List α
  | [] => []
  | [a] => [a]
  | a :: _ :: l => a :: evens l

theorem evens_cons {α : Type} (a : α) (l : List α) : evens (a :: l) = a :: evens l.tail := by
  cases l <;> rfl

theorem evens_append {α : Type} : ∀ l m : List α,
    evens (l ++ m) = evens l ++ evens (if l.length % 2 = 0 then m else m.tail)
  | [], m => by simp [evens]
  | [a], m => by simp [evens, evens_cons]
  | a :: b :: l, m => by
      have ih := evens_append l m
      simp only [List.cons_append, evens, ih, List.length_cons, Nat.add_assoc, Nat.add_mod_right]

/-- The parts with an even index after the loops; the others stay. -/
inductive Rewritten : List (List Char) → List (List Char) → Prop
  | nil : Rewritten [] []
  | one {p p' : List Char} : runLoops loops p = .ok p' → Rewritten [p] [p']
  | more {p p' q : List Char} {ps ps' : List (List Char)} : runLoops loops p = .ok p' →
      Rewritten ps ps' → Rewritten (p :: q :: ps) (p' :: q :: ps')

/-- The parts are rewritten, or one with an even index is refused. -/
theorem rewriteParts_cases : ∀ parts : List String,
    (∃ parts', rewriteParts parts = .ok parts' ∧
      Rewritten (parts.map String.toList) (parts'.map String.toList) ∧
      ∀ part ∈ evens parts', ¬ strstr part "//") ∨
    rewriteParts parts = .error doubleSlash ∧ ∃ part ∈ evens parts, ∃ s,
      runLoops loops part.toList = .ok s ∧ strstr (String.ofList s) "//"
  | [] => .inl ⟨[], rfl, .nil, by simp [evens]⟩
  | [part] => by
      obtain ⟨s, hs, heq⟩ := rewritePart_cases part
      rw [rewriteParts, heq]
      split
      · next hslash => exact .inr ⟨rfl, part, by simp [evens], s, hs, hslash⟩
      · next hslash => exact .inl ⟨_, rfl, .one (by simpa using hs), by simpa [evens] using hslash⟩
  | part :: quoted :: parts => by
      obtain ⟨s, hs, heq⟩ := rewritePart_cases part
      rw [rewriteParts, heq]
      split
      · next hslash => exact .inr ⟨rfl, part, by simp [evens], s, hs, hslash⟩
      · next hslash =>
        rcases rewriteParts_cases parts with ⟨parts', hparts, hrest, hall⟩ | ⟨herror, p, hp, hrest⟩
        · refine .inl ⟨String.ofList s :: quoted :: parts', by rw [hparts]; rfl,
            .more (by simpa using hs) hrest, ?_⟩
          intro p hp
          rcases List.mem_cons.mp hp with rfl | hp
          · exact hslash
          · exact hall p hp
        · exact .inr ⟨by rw [herror]; rfl, p, by simp [evens, hp], hrest⟩

end VaeDb.Rewriting
