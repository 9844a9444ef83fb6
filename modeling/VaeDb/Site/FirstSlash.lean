import VaeDb.Site.Literals

/-! Where the last step puts its predicate.

    The last step looks for the first slash of the joined parts, and this may be a slash of a literal.
    If the loops do nothing inside of literals, such a slash is one of the query: a slash that a loop
    inserts stands outside. What is in front of it comes from the query as it is, for an edit there
    brings a slash or a bracket along.

        query:    x='a/b'        first slash inside of the literal
        result:   x='a[@id!='']/b'

    A bracket in front of the first NUL keeps the last step from it. The joined parts have one if
    the query does, or a slash and a digit that the first loop turns into one. -/

namespace VaeDb.FirstSlash
open Schemes Cpp Query Rewriting NormalForm Literals

/-- Up to its first slash, a text starts with the other one. -/
def Front (f s : List Char) : Prop := f ++ ['/'] <+: s

/-- The text of a match of a loop that inserts `/text()`. -/
def TextMatch (w : List Char) : Prop := ∃ L ∈ textLoops, Matches L.rule w

/-- A slash and digits in front of the first NUL. -/
def IdMatch (a w : List Char) : Prop := '\x00' ∉ a ∧ Matches idStep w

/-- The last step cuts a literal: the first slash of the query lies inside of one, in front of it
    are no dot and no match outside of single quotes, and there is nothing that is, or becomes, a
    bracket. -/
def CutsQuery (s : List Char) : Prop :=
  ∃ f g, s = f ++ '/' :: g ∧ '/' ∉ f ∧ Applies f g ∧ modeAfter none f ≠ none ∧
    ¬ Outside (fun _ => TextMatch) f ∧ ¬ Outside IdMatch s

variable {L : TextLoop} {m : Option Quote} {a b f g p p' q s s' t t' u v w x : List Char}

/-! ### What stands in front of a slash -/

theorem front_iff : Front f s ↔ ∃ g, s = f ++ '/' :: g := by
  constructor
  · rintro ⟨g, rfl⟩
    exact ⟨g, by simp⟩
  · rintro ⟨g, rfl⟩
    exact ⟨g, by simp⟩

theorem front_cons {c : Char} :
    Front f (c :: s) ↔ (f = [] ∧ c = '/') ∨ ∃ x, f = c :: x ∧ Front x s := by
  cases f with
  | nil => simp [Front, eq_comm]
  | cons d f => simp [Front, eq_comm]

/-- The slash is in the first text, or in the second one. -/
theorem front_append : Front f (u ++ v) ↔ Front f u ∨ ∃ x, f = u ++ x ∧ Front x v := by
  induction u generalizing f with
  | nil => simp [Front]
  | cons c u ih =>
    simp only [List.cons_append, front_cons, ih]
    constructor
    · rintro (h | ⟨x, rfl, h | ⟨y, rfl, h⟩⟩)
      · exact .inl (.inl h)
      · exact .inl (.inr ⟨x, rfl, h⟩)
      · exact .inr ⟨y, rfl, h⟩
    · rintro ((h | ⟨x, rfl, h⟩) | ⟨y, rfl, h⟩)
      · exact .inl h
      · exact .inr ⟨x, rfl, .inl h⟩
      · exact .inr ⟨u ++ y, rfl, .inr ⟨y, rfl, h⟩⟩

theorem front_quote :
    Front f (u ++ '\'' :: v) ↔ Front f u ∨ ∃ x, f = u ++ '\'' :: x ∧ Front x v := by
  rw [front_append]
  refine or_congr_right ?_
  constructor
  · rintro ⟨x, rfl, h⟩
    rcases front_cons.mp h with ⟨-, hquote⟩ | ⟨y, rfl, hy⟩
    · exact absurd hquote (by decide)
    · exact ⟨y, rfl, hy⟩
  · rintro ⟨y, rfl, h⟩
    exact ⟨_, rfl, front_cons.mpr (.inr ⟨y, rfl, h⟩)⟩

theorem Front.piece (h : Front f s) : f <:+: s :=
  (List.prefix_append f ['/']).trans h |>.isInfix

/-! ### A part in front of the slash -/

theorem not_textMatch_of_normal (h : Normal s) : ¬ ∃ a w b, s = a ++ w ++ b ∧ TextMatch w := by
  rintro ⟨a, w, b, heq, L, hL, hw⟩
  exact not_matches_of_none (normal_iff.mp h _ (mem_loops.mpr (.inr ⟨L, hL, rfl⟩))) heq hw

theorem normal_of_no_slash (hslash : '/' ∉ s) (h : ¬ ∃ a w b, s = a ++ w ++ b ∧ TextMatch w) :
    Normal s := by
  constructor
  · rw [IdFree, List.isChain_iff_forall_rel_of_append_cons_cons]
    rintro c d u v rfl rfl -
    simp at hslash
  · rintro L hL u v rfl ⟨a, k, n, w, b, hk, hn, hw, rfl, rfl⟩
    exact h ⟨a, k ++ n ++ w, b, by simp, L, hL, matches_textLoop.mpr ⟨k, n, w, hk, hn, hw, rfl⟩⟩

theorem eq_of_normal (h : Normal p) (hrun : runLoops loops p = .ok p') : p = p' :=
  Except.ok.inj ((runLoops_of_normal h).symm.trans hrun)

/-- What is inserted starts with a slash or a bracket. -/
theorem edit_head {d i : List Char} (h : Edit d i) : ∃ c y, i = c :: y ∧ (c = '/' ∨ c = '[') := by
  cases h with
  | text => exact ⟨_, _, rfl, .inl rfl⟩
  | id => exact ⟨_, _, rfl, .inr rfl⟩

/-- A part that comes out of the loops without a slash and without a bracket has not changed. -/
theorem eq_of_plain (hrun : runLoops loops p = .ok p') (hslash : '/' ∉ p') (hbracket : '[' ∉ p') :
    p = p' := by
  refine runLoops_keeps (P := fun t => '/' ∉ t → '[' ∉ t → p = t) hrun ?_ (fun _ _ => rfl) hslash
    hbracket
  intro r hr t t' hround _ hslash hbracket
  obtain ⟨u, d, i, v, hedit, -, rfl, -⟩ := round_edit hr hround
  obtain ⟨c, y, rfl, rfl | rfl⟩ := edit_head hedit
  · simp at hslash
  · simp at hbracket

/-- A round outside of literals leaves what stands in front of a slash inside of one. -/
theorem front_of_round {r : Pattern × Rewrite} (hr : r ∈ loops) (h : replace r.1 r.2 t = some t')
    (hmode : modeAfter m f ≠ none) (hurts : ¬ Hurts m t) (hbracket : '[' ∉ f) (hslash : '/' ∉ f)
    (hfront : Front f t') : Front f t := by
  obtain ⟨u, d, i, v, hedit, rfl, rfl, hinside⟩ := round_edit hr h
  rw [List.append_assoc, front_append] at hfront ⊢
  refine .inl (hfront.resolve_right ?_)
  rintro ⟨x, hx, hrest⟩
  obtain ⟨c, y, rfl, hc⟩ := edit_head hedit
  rcases front_cons.mp hrest with ⟨rfl, -⟩ | ⟨z, rfl, -⟩
  · rw [List.append_nil] at hx
    exact absurd (hinside m (hx ▸ hmode)) hurts
  · rcases hc with rfl | rfl
    · exact hslash (by simp [hx])
    · exact hbracket (by simp [hx])

theorem round_front {r : Pattern × Rewrite} (hr : r ∈ loops) (h : replace r.1 r.2 t = some t')
    (hmode : modeAfter m f ≠ none) (hurts : ¬ Hurts m t) (hslash : '/' ∉ f)
    (hmatch : ¬ ∃ a w b, f = a ++ w ++ b ∧ TextMatch w) (hfront : Front f t) : Front f t' := by
  rcases mem_loops.mp hr with rfl | ⟨L, hL, rfl⟩
  · obtain ⟨u, ds, v, hne, hds, rfl, rfl⟩ := idStep_round h
    rw [List.append_assoc, front_append] at hfront ⊢
    refine .inl (hfront.resolve_right ?_)
    rintro ⟨x, hx, hrest⟩
    rcases front_cons.mp hrest with ⟨rfl, -⟩ | ⟨z, rfl, -⟩
    · rw [List.append_nil] at hx
      exact absurd (hurts_of_id hne hds (hx ▸ hmode)) hurts
    · exact hslash (by simp [hx])
  · obtain ⟨u, v, ⟨a, k, n, w, b, hk, hn, hw, rfl, rfl⟩, rfl, rfl⟩ := textLoop_round h
    rw [List.append_assoc (a ++ k ++ n)]
    rw [front_append] at hfront ⊢
    refine .inl (hfront.resolve_right ?_)
    rintro ⟨x, hx, hrest⟩
    -- The stop has no slash, so the match is in front of the slash.
    rcases front_append.mp hrest with hfront | ⟨y, rfl, -⟩
    · exact L.stop_slash hw (hfront.subset (by simp))
    · refine hmatch ⟨a, k ++ n ++ w, y, by simp [hx], L, hL, ?_⟩
      exact matches_textLoop.mpr ⟨k, n, w, hk, hn, hw, rfl⟩

theorem textMatch_ne_nil (h : TextMatch w) : w ≠ [] := by
  obtain ⟨L, hL, hw⟩ := h
  obtain ⟨c, mid, e, rfl, -⟩ := matches_shape (mem_loops.mpr (.inr ⟨L, hL, rfl⟩)) hw
  simp

/-- A text without quotes has one segment. -/
theorem outside_text (h : '\'' ∉ s) :
    Outside (fun _ => TextMatch) s ↔ ∃ a w b, s = a ++ w ++ b ∧ TextMatch w := by
  rw [outside_one h]
  constructor
  · rintro ⟨a, w, b, heq, -, hw⟩
    exact ⟨a, w, b, heq, hw⟩
  · rintro ⟨a, w, b, heq, hw⟩
    exact ⟨a, w, b, heq, textMatch_ne_nil hw, hw⟩

theorem part_front (hp : '\'' ∉ p) (hrun : runLoops loops p = .ok p') (hurts : ¬ Hurts m p)
    (hmode : modeAfter m f ≠ none) (hslash : '/' ∉ f) (hbracket : '[' ∉ f) :
    Front f p' ↔ Front f p ∧ ¬ Outside (fun _ => TextMatch) f := by
  have hquote : Front f p → '\'' ∉ f := fun hfront hmem => hp (hfront.piece.subset hmem)
  constructor
  · intro hfront
    have hfront' : Front f p := by
      refine runLoops_quiet (P := fun t => Front f t → Front f p) hrun hurts ?_ id hfront
      intro r hr t t' hround hurts hkeep hfront
      exact hkeep (front_of_round hr hround hmode hurts hbracket hslash hfront)
    rw [outside_text (hquote hfront')]
    exact ⟨hfront', not_textMatch_of_normal (normal_piece (runLoops_normal hrun) hfront.piece)⟩
  · rintro ⟨hfront, hmatch⟩
    rw [outside_text (hquote hfront)] at hmatch
    refine runLoops_quiet (P := Front f) hrun hurts ?_ hfront
    intro r hr t t' hround hurts hfront
    exact round_front hr hround hmode hurts hslash hmatch hfront

/-- A part in front of the slash stays as it is. -/
theorem part_before (hp : '\'' ∉ p) (hrun : runLoops loops p = .ok p') (hslash : '/' ∉ f)
    (hbracket : '[' ∉ f) : f = p' ++ '\'' :: x ↔
      f = p ++ '\'' :: x ∧ ¬ Outside (fun _ => TextMatch) p := by
  rw [outside_text hp]
  constructor
  · rintro rfl
    simp only [List.mem_append, not_or] at hslash hbracket
    obtain rfl := eq_of_plain hrun hslash.1 hbracket.1
    exact ⟨rfl, not_textMatch_of_normal (runLoops_normal hrun)⟩
  · rintro ⟨rfl, hmatch⟩
    simp only [List.mem_append, not_or] at hslash
    obtain rfl := eq_of_normal (normal_of_no_slash hslash.1 hmatch) hrun
    rfl

/-! ### The query in front of the slash -/

theorem front_more (hp : '\'' ∉ p) (hrun : runLoops loops p = .ok p') (hurts : ¬ Hurts m p)
    (hmode : modeAfter m f ≠ none) (hslash : '/' ∉ f) (hbracket : '[' ∉ f)
    (hrest : ∀ x, f = p ++ '\'' :: x → ((¬ Outside (fun _ => TextMatch) p ∧ Front x t') ↔
      (Front x t ∧ ¬ Outside (fun _ => TextMatch) f))) :
    Front f (p' ++ '\'' :: t') ↔ Front f (p ++ '\'' :: t) ∧ ¬ Outside (fun _ => TextMatch) f := by
  rw [front_quote, front_quote, or_and_right, part_front hp hrun hurts hmode hslash hbracket]
  refine or_congr_right ?_
  constructor
  · rintro ⟨x, hx, hfront⟩
    obtain ⟨hx, hmatch⟩ := (part_before hp hrun hslash hbracket).mp hx
    obtain ⟨hfront, hmatch⟩ := (hrest x hx).mp ⟨hmatch, hfront⟩
    exact ⟨⟨x, hx, hfront⟩, hmatch⟩
  · rintro ⟨⟨x, hx, hfront⟩, hmatch⟩
    obtain ⟨hmatch, hfront⟩ := (hrest x hx).mpr ⟨hfront, hmatch⟩
    exact ⟨x, (part_before hp hrun hslash hbracket).mpr ⟨hx, hmatch⟩, hfront⟩

/-- The joined parts start with a text in front of a slash inside of a literal exactly if the query
    does, and the text has no match outside of single quotes. -/
theorem rewrites_front (h : Rewrites s s') (hdisturbs : ¬ Disturbs m s)
    (hmode : modeAfter m f ≠ none) (hslash : '/' ∉ f) (hbracket : '[' ∉ f) :
    Front f s' ↔ Front f s ∧ ¬ Outside (fun _ => TextMatch) f := by
  induction h generalizing m f with
  | one hp hrun =>
    rw [disturbs_one hp] at hdisturbs
    exact part_front hp hrun hdisturbs hmode hslash hbracket
  | @two p p' q hp hq hrun =>
    rw [disturbs_two hp hq] at hdisturbs
    refine front_more hp hrun hdisturbs hmode hslash hbracket fun x hx => ?_
    rw [and_comm, and_congr_right_iff]
    intro hfront
    rw [hx, outside_two hp fun hmem => hq (hfront.piece.subset hmem)]
  | @more p p' q s s' hp hq hrun _ ih =>
    rw [disturbs_more hp hq, not_or] at hdisturbs
    refine front_more hp hrun hdisturbs.1 hmode hslash hbracket fun x hx => ?_
    rw [front_quote, front_quote, and_or_left, or_and_right]
    refine or_congr ?_ ?_
    · rw [and_comm, and_congr_right_iff]
      intro hfront
      rw [hx, outside_two hp fun hmem => hq (hfront.piece.subset hmem)]
    · have hsplit : ∀ y, x = q ++ '\'' :: y →
          (Front y s' ↔ Front y s ∧ ¬ Outside (fun _ => TextMatch) y) := by
        rintro y rfl
        subst hx
        rw [quoted_append, modeAfter_append] at hmode
        simp only [List.mem_append, List.mem_cons, not_or] at hslash hbracket
        exact ih hdisturbs.2 hmode hslash.2.2.2.2 hbracket.2.2.2.2
      constructor
      · rintro ⟨hmatch, y, hy, hfront⟩
        obtain ⟨hfront, hmatch'⟩ := (hsplit y hy).mp hfront
        refine ⟨⟨y, hy, hfront⟩, ?_⟩
        rw [hx, hy, outside_more hp hq, not_or]
        exact ⟨hmatch, hmatch'⟩
      · rintro ⟨⟨y, hy, hfront⟩, hmatch⟩
        rw [hx, hy, outside_more hp hq, not_or] at hmatch
        exact ⟨hmatch.1, y, hy, (hsplit y hy).mpr ⟨hfront, hmatch.2⟩⟩

/-! ### Brackets in front of the first NUL -/

/-- In front of its first NUL, a text has a bracket, or a slash and a digit. -/
def Opens : List Char → Prop
  | [] => False
  | c :: s => c = '[' ∨ c = '/' ∧ (∃ d ∈ s.head?, isdigit d) ∨ c ≠ '\x00' ∧ Opens s

/-- Two ends of a text that open, or not, both. -/
theorem opens_append (hhead : (∃ d ∈ v.head?, isdigit d) ↔ ∃ d ∈ w.head?, isdigit d)
    (h : Opens v ↔ Opens w) (u : List Char) : Opens (u ++ v) ↔ Opens (u ++ w) := by
  induction u with
  | nil => exact h
  | cons c u ih =>
    rw [List.cons_append, List.cons_append, Opens, Opens, ih]
    cases u with
    | nil => rw [List.nil_append, List.nil_append, hhead]
    | cons d u => rfl

theorem opens_textStep : Opens (textStep ++ v) ↔ Opens v := by
  simp [textStep, Opens, isdigit]

/-- A round opens nothing new: a bracket comes for a slash and a digit. -/
theorem opens_round {r : Pattern × Rewrite} (hr : r ∈ loops) (h : replace r.1 r.2 t = some t') :
    Opens t' ↔ Opens t := by
  rcases mem_loops.mp hr with rfl | ⟨L, -, rfl⟩
  · obtain ⟨u, ds, v, hne, hds, rfl, rfl⟩ := idStep_round h
    obtain ⟨d, ds, rfl⟩ := List.exists_cons_of_ne_nil hne
    rw [List.append_assoc, List.append_assoc]
    refine opens_append ?_ ?_ u
    · simp [idText, isdigit]
    · simp [idText, Opens, hds d (by simp)]
  · obtain ⟨u, v, hpoint, rfl, rfl⟩ := textLoop_round h
    obtain ⟨e, y, rfl, he⟩ := hpoint.boundary.head
    rw [List.append_assoc]
    refine opens_append ?_ opens_textStep u
    have hdigit : ¬ isdigit e := fun hdigit => (nameEnd_iff.mp he).2 (by simp [nameChar, hdigit])
    simp [textStep, hdigit, show isdigit '/' = false by decide]

theorem runLoops_opens (hrun : runLoops loops p = .ok p') : Opens p' ↔ Opens p :=
  runLoops_keeps (P := fun t => Opens t ↔ Opens p) hrun
    (fun _ hr _ _ hround hkeep => (opens_round hr hround).trans hkeep) Iff.rfl

theorem bracket_cons {c : Char} : '[' ∈ (c :: s).takeWhile (· ≠ '\x00') ↔
    c = '[' ∨ c ≠ '\x00' ∧ '[' ∈ s.takeWhile (· ≠ '\x00') := by
  by_cases hc : c = '\x00'
  · simp [hc]
  · simp [hc, eq_comm]

theorem idMatch_cons {c : Char} : (∃ a w b, c :: s = a ++ w ++ b ∧ IdMatch a w) ↔
    c = '/' ∧ (∃ d ∈ s.head?, isdigit d) ∨
      c ≠ '\x00' ∧ ∃ a w b, s = a ++ w ++ b ∧ IdMatch a w := by
  constructor
  · rintro ⟨a, w, b, heq, hnul, hw⟩
    cases a with
    | nil =>
      obtain ⟨ds, hne, hds, rfl⟩ := matches_idStep.mp hw
      obtain ⟨d, ds, rfl⟩ := List.exists_cons_of_ne_nil hne
      obtain ⟨rfl, rfl⟩ := List.cons.inj heq
      exact .inl ⟨rfl, d, rfl, hds d (by simp)⟩
    | cons x a =>
      obtain ⟨rfl, rfl⟩ := List.cons.inj heq
      rw [List.mem_cons, not_or] at hnul
      exact .inr ⟨Ne.symm hnul.1, a, w, b, rfl, hnul.2, hw⟩
  · rintro (⟨rfl, d, hd, hdigit⟩ | ⟨hc, a, w, b, rfl, hnul, hw⟩)
    · obtain ⟨y, rfl⟩ := List.head?_eq_some_iff.mp hd
      refine ⟨[], ['/', d], y, rfl, by simp, matches_idStep.mpr ⟨[d], by simp, ?_, rfl⟩⟩
      simpa using hdigit
    · exact ⟨c :: a, w, b, rfl, by simp [Ne.symm hc, hnul], hw⟩

theorem opens_iff : Opens s ↔ '[' ∈ s.takeWhile (· ≠ '\x00') ∨
    ∃ a w b, s = a ++ w ++ b ∧ IdMatch a w := by
  induction s with
  | nil =>
    refine iff_of_false id ?_
    rintro (h | ⟨a, w, b, heq, -, hw⟩)
    · simp at h
    · obtain ⟨ds, -, -, rfl⟩ := matches_idStep.mp hw
      simp at heq
  | cons c s ih =>
    rw [Opens, ih, bracket_cons, idMatch_cons, and_or_left, or_assoc]
    exact or_congr_right or_left_comm

theorem opens_of_normal (h : Normal s) : Opens s ↔ '[' ∈ s.takeWhile (· ≠ '\x00') := by
  rw [opens_iff, or_iff_left]
  rintro ⟨a, w, b, heq, -, hw⟩
  exact not_matches_of_none (normal_iff.mp h _ (mem_loops.mpr (.inl rfl))) heq hw

theorem bracket_append : '[' ∈ (u ++ v).takeWhile (· ≠ '\x00') ↔
    '[' ∈ u.takeWhile (· ≠ '\x00') ∨ '\x00' ∉ u ∧ '[' ∈ v.takeWhile (· ≠ '\x00') := by
  induction u with
  | nil => simp
  | cons c u ih =>
    rw [List.cons_append, bracket_cons, ih, bracket_cons, List.mem_cons, not_or,
      @eq_comm _ '\x00' c, and_or_left, or_assoc, and_assoc]

theorem bracket_quote :
    '[' ∈ ('\'' :: s).takeWhile (· ≠ '\x00') ↔ '[' ∈ s.takeWhile (· ≠ '\x00') := by
  rw [bracket_cons, or_iff_right (by decide), and_iff_right (by decide)]

theorem bracket_quoted : '[' ∈ (p ++ '\'' :: (q ++ '\'' :: s)).takeWhile (· ≠ '\x00') ↔
    '[' ∈ p.takeWhile (· ≠ '\x00') ∨ '\x00' ∉ p ∧ ('[' ∈ q.takeWhile (· ≠ '\x00') ∨
      '\x00' ∉ q ∧ '[' ∈ s.takeWhile (· ≠ '\x00')) := by
  rw [bracket_append, bracket_quote, bracket_append, bracket_quote]

theorem runLoops_nul_iff (hrun : runLoops loops p = .ok p') : '\x00' ∈ p' ↔ '\x00' ∈ p := by
  refine runLoops_keeps (P := fun t => '\x00' ∈ t ↔ '\x00' ∈ p) hrun ?_ Iff.rfl
  intro r hr t t' hround hkeep
  rw [← hkeep]
  rcases mem_loops.mp hr with rfl | ⟨L, -, rfl⟩
  · obtain ⟨u, ds, v, -, hds, rfl, rfl⟩ := idStep_round hround
    simp [idText]
  · obtain ⟨u, v, -, rfl, rfl⟩ := textLoop_round hround
    simp [textStep]

theorem idMatch_ne_nil (h : IdMatch a w) : w ≠ [] := by
  obtain ⟨ds, -, -, rfl⟩ := matches_idStep.mp h.2
  exact List.cons_ne_nil _ _

theorem part_bracket (hp : '\'' ∉ p) (hrun : runLoops loops p = .ok p') :
    '[' ∈ p'.takeWhile (· ≠ '\x00') ↔
      '[' ∈ p.takeWhile (· ≠ '\x00') ∨ Outside IdMatch p := by
  rw [← opens_of_normal (runLoops_normal hrun), runLoops_opens hrun, opens_iff, outside_one hp]
  refine or_congr_right ?_
  constructor
  · rintro ⟨a, w, b, heq, hw⟩
    exact ⟨a, w, b, heq, idMatch_ne_nil hw, hw⟩
  · rintro ⟨a, w, b, heq, -, hw⟩
    exact ⟨a, w, b, heq, hw⟩

/-- The segments behind the first two quotes, which may have a NUL in front of them. -/
theorem outside_idMatch (hp : '\'' ∉ p) (hq : '\'' ∉ q) :
    Outside IdMatch (p ++ '\'' :: (q ++ '\'' :: s)) ↔
      Outside IdMatch p ∨ '\x00' ∉ p ∧ '\x00' ∉ q ∧ Outside IdMatch s := by
  rw [outside_more hp hq]
  refine or_congr_right ?_
  have hmatch : ∀ a w, IdMatch (p ++ '\'' :: (q ++ '\'' :: a)) w ↔
      '\x00' ∉ p ∧ '\x00' ∉ q ∧ IdMatch a w := by
    intro a w
    simp [IdMatch, and_assoc]
  simp only [hmatch, Outside]
  constructor
  · rintro ⟨a, w, b, heq, hw, hquote, hcount, hnul, hnul', hid⟩
    exact ⟨hnul, hnul', a, w, b, heq, hw, hquote, hcount, hid⟩
  · rintro ⟨hnul, hnul', a, w, b, heq, hw, hquote, hcount, hid⟩
    exact ⟨a, w, b, heq, hw, hquote, hcount, hnul, hnul', hid⟩

/-- The joined parts have a bracket in front of the first NUL if the query has one, or a slash and
    digits outside of single quotes. -/
theorem rewrites_bracket (h : Rewrites s s') : '[' ∈ s'.takeWhile (· ≠ '\x00') ↔
    '[' ∈ s.takeWhile (· ≠ '\x00') ∨ Outside IdMatch s := by
  induction h with
  | one hp hrun => exact part_bracket hp hrun
  | two hp hq hrun =>
    rw [bracket_append, bracket_append, part_bracket hp hrun, runLoops_nul_iff hrun,
      outside_two hp hq]
    exact or_right_comm
  | @more p p' q s s' hp hq hrun _ ih =>
    rw [bracket_quoted, bracket_quoted, part_bracket hp hrun, runLoops_nul_iff hrun, ih,
      outside_idMatch hp hq]
    simp only [and_or_left, or_assoc, or_left_comm]

/-! ### The query -/

theorem applies_bracket (h : Applies f g) : '[' ∉ f := by
  intro hmem
  have hbracket := h.2.2
  rw [takeWhile_of_not_mem h.1] at hbracket
  exact hbracket (List.mem_append_left _ hmem)

theorem cutsLiteral_iff (h : Rewrites s s') (hdisturbs : ¬ Disturbs none s) :
    CutsLiteral s' ↔ CutsQuery s := by
  have hbracket := rewrites_bracket h
  constructor
  · rintro ⟨f, g, rfl, hslash, happlies, hmode⟩
    have hfront := (rewrites_front h hdisturbs hmode hslash (applies_bracket happlies)).mp
      (front_iff.mpr ⟨g, rfl⟩)
    obtain ⟨⟨g', rfl⟩, hmatch⟩ := hfront.imp_left front_iff.mp
    obtain ⟨hnul, hdot, hnone⟩ := happlies
    rw [hbracket, not_or] at hnone
    exact ⟨f, g', rfl, hslash, ⟨hnul, hdot, hnone.1⟩, hmode, hmatch, hnone.2⟩
  · rintro ⟨f, g, rfl, hslash, happlies, hmode, hmatch, hid⟩
    have hfront := (rewrites_front h hdisturbs hmode hslash (applies_bracket happlies)).mpr
      ⟨front_iff.mpr ⟨g, rfl⟩, hmatch⟩
    obtain ⟨g', rfl⟩ := front_iff.mp hfront
    obtain ⟨hnul, hdot, hnone⟩ := happlies
    refine ⟨f, g', rfl, hslash, ⟨hnul, hdot, ?_⟩, hmode⟩
    rw [hbracket, not_or]
    exact ⟨hnone, hid⟩

/-- CORRECT: The literals of a query survive exactly if no pattern matches inside of one and the
    last step cuts none. -/
theorem literals_survive_iff {query result : String} (hbalanced : Balanced query)
    (h : rewrite query = .ok result) :
    Survives query result ↔ ¬ Disturbs none query.toList ∧ ¬ CutsQuery query.toList := by
  obtain ⟨joined, hrewrites, hresult⟩ := rewrite_ok h
  rw [hresult, survives_iff_joined hbalanced hrewrites]
  exact and_congr_right fun hdisturbs => not_congr (cutsLiteral_iff hrewrites hdisturbs)

/-- A literal with a single quote in it. -/
theorem literals_survive_sample :
    Survives "a/7[b=\"it's\" or cd=\"x\"]" "a[@id='7'][b=\"it's\" or cd=\"x\"]" ↔
      ¬ Disturbs none "a/7[b=\"it's\" or cd=\"x\"]".toList ∧
        ¬ CutsQuery "a/7[b=\"it's\" or cd=\"x\"]".toList :=
  literals_survive_iff (by rfl) (by rfl)

theorem not_keeps_cons {l l' : Literal} {M M' : List Literal} (hne : l ≠ l')
    (hnew : ¬ Inserted l') : ¬ Keeps Inserted (l :: M) (l' :: M') := by
  intro h
  cases h with
  | keep => exact hne rfl
  | insert hl => exact hnew hl

/-- Literals that do not survive: a slash and a digit in double quotes, and the first slash of the
    query in single quotes. -/
theorem not_literals_survive :
    (Balanced "a[b=\"c/7\"]" ∧ rewrite "a[b=\"c/7\"]" = .ok "a[b=\"c[@id='7']\"]" ∧
      ¬ Survives "a[b=\"c/7\"]" "a[b=\"c[@id='7']\"]") ∧
    Balanced "a='b/c'" ∧ rewrite "a='b/c'" = .ok "a='b[@id!='']/c'" ∧
      ¬ Survives "a='b/c'" "a='b[@id!='']/c'" := by
  refine ⟨⟨by rfl, by rfl, ?_⟩, by rfl, by rfl, ?_⟩
  · rintro ⟨-, h⟩
    have hlists : Keeps Inserted [(.double, ['c', '/', '7'])]
        [(.double, ['c', '[', '@', 'i', 'd', '=', '\'', '7', '\'', ']'])] := h
    exact not_keeps_cons (by decide) (by simp [Inserted]) hlists
  · rintro ⟨-, h⟩
    have hlists : Keeps Inserted [(.single, ['b', '/', 'c'])]
        [(.single, ['b', '[', '@', 'i', 'd', '!', '=']), (.single, [']', '/', 'c'])] := h
    exact not_keeps_cons (by decide) (by simp [Inserted, isdigit]) hlists

end VaeDb.FirstSlash
