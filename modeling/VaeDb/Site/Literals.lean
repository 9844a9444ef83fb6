import VaeDb.Schemes.Literals
import VaeDb.Site.NormalForm

/-! What the rewriting does to the literals of a query.

    The constructor splits the query at single quotes and works on every other part. XPath has
    literals in double quotes too, and a single quote inside of those is no quote: a part that is
    worked on may lie inside of a literal. A match of a pattern there is rewritten like any other.

        a[x="b/7"]        the literal b/7         a[x="b[@id='7']"]     the literal b[@id='7']

    An insertion outside of literals brings at most a literal of its own, one inside of a literal
    brings a mark, a bracket or a parenthesis, and no round takes a mark away. -/

namespace VaeDb.Literals
open Schemes Cpp Query Rewriting NormalForm

/-- A query read to its end, as XPath reads it. -/
def scan (query : String) : Reader := Reader.start.feed query.toList

/-- Each literal has its closing quote. -/
def Balanced (query : String) : Prop := (scan query).current = none

/-- The literals of the inserted predicates: digits, or nothing. -/
def Inserted (l : Literal) : Prop := l.1 = .single ∧ ∀ d ∈ l.2, isdigit d

/-- The result has the literals of the query, in their order, and only inserted ones in between. -/
def Survives (query result : String) : Prop :=
  Balanced result ∧ Keeps Inserted (scan query).literals (scan result).literals

/-- A text that a pattern matches. -/
def Matches (r : Pattern × Rewrite) (w : List Char) : Prop :=
  ∃ ms, List.Forall₂ Atom.Accepts r.1 ms ∧ w = ms.flatten

/-- A text behind another one lies inside of a literal: at least, all but its first and its last
    character do. -/
def Inside (m : Option Quote) (a w : List Char) : Prop :=
  ∃ c w', w = c :: w' ∧ modeAfter m (a ++ [c]) ≠ none

/-- Somewhere in the segments outside of single quotes there is a piece with a property, which may
    also depend on the text in front of it. -/
def Outside (Q : List Char → List Char → Prop) (s : List Char) : Prop :=
  ∃ a w b, s = a ++ w ++ b ∧ w ≠ [] ∧ '\'' ∉ w ∧ a.count '\'' % 2 = 0 ∧ Q a w

/-- A pattern matches inside of a literal, in a segment outside of single quotes. -/
def Disturbs (m : Option Quote) (s : List Char) : Prop :=
  ∃ r ∈ loops, Outside (fun a w => Matches r w ∧ Inside m a w) s

variable {L : TextLoop} {r : Pattern × Rewrite} {m : Option Quote}
  {a b d i p q s s' t t' u v w z : List Char}

/-! ### Matches -/

theorem matches_textLoop : Matches L.rule w ↔
    ∃ k n x, L.key k ∧ Name n ∧ L.stop x ∧ w = k ++ n ++ x := by
  constructor
  · rintro ⟨ms, hms, rfl⟩
    obtain ⟨k, n, x, hk, hn, hx, heq, -⟩ := L.parse hms
    exact ⟨k, n, x, hk, hn, hx, heq⟩
  · rintro ⟨k, n, x, hk, hn, hx, rfl⟩
    obtain ⟨ms, hms, heq⟩ := L.unparse hk hn hx
    exact ⟨ms, hms, heq.symm⟩

theorem matches_idStep : Matches idStep w ↔
    ∃ ds, ds ≠ [] ∧ (∀ d ∈ ds, isdigit d) ∧ w = '/' :: ds := by
  constructor
  · rintro ⟨ms, hms, rfl⟩
    obtain ⟨ds, hne, hds, rfl⟩ := idStep_matches.mp hms
    exact ⟨ds, hne, hds, by simp⟩
  · rintro ⟨ds, hne, hds, rfl⟩
    exact ⟨[['/'], ds], idStep_matches.mpr ⟨ds, hne, hds, rfl⟩, by simp⟩

theorem not_matches_of_none (h : replace r.1 r.2 s = none) (heq : s = a ++ w ++ b) :
    ¬ Matches r w := by
  rintro ⟨ms, hms, rfl⟩
  exact replace_eq_none.mp h a ms b hms heq

theorem quoteOf_of_ne {c : Char} (h : c ≠ '\'') (h' : c ≠ '"') : quoteOf c = none := by
  simp [quoteOf, h, h']

theorem plain_of {f : Char → Bool} (hsingle : ¬ f '\'') (hdouble : ¬ f '"') {c : Char} (h : f c) :
    quoteOf c = none := by
  apply quoteOf_of_ne
  · rintro rfl
    exact hsingle h
  · rintro rfl
    exact hdouble h

/-- A quote in a key or a stop is the whole of it. -/
theorem plain_of_special {c : Char} (h : ∀ e, e ∈ w → ¬ nameChar e → e ≠ ' ' → w = [e]) (hc : c ∈ w)
    (hlong : w ≠ [c]) : quoteOf c = none := by
  apply quoteOf_of_ne
  · rintro rfl
    exact hlong (h _ hc (by decide) (by decide))
  · rintro rfl
    exact hlong (h _ hc (by decide) (by decide))

/-- A match has two ends, and no quote in between. -/
theorem matches_shape (hr : r ∈ loops) (h : Matches r w) :
    ∃ c mid e, w = c :: mid ++ [e] ∧ ∀ x ∈ mid, quoteOf x = none := by
  rcases mem_loops.mp hr with rfl | ⟨L, -, rfl⟩
  · obtain ⟨ds, hne, hds, rfl⟩ := matches_idStep.mp h
    obtain ⟨ds, e, rfl⟩ := List.eq_nil_or_concat ds |>.resolve_left hne
    refine ⟨'/', ds, e, by simp, fun x hx => ?_⟩
    exact plain_of (by decide) (by decide) (hds x (by simp [hx]))
  · obtain ⟨k, n, x, hk, hn, hx, rfl⟩ := matches_textLoop.mp h
    obtain ⟨c, k', rfl⟩ := List.exists_cons_of_ne_nil (L.key_ne_nil hk)
    have hx' : x ≠ [] := by
      obtain ⟨e, y, rfl, -⟩ := L.stop_head hx
      exact List.cons_ne_nil e y
    obtain ⟨x', e, rfl⟩ := List.eq_nil_or_concat x |>.resolve_left hx'
    refine ⟨c, k' ++ n ++ x', e, by simp, fun y hy => ?_⟩
    rcases List.mem_append.mp hy with hy | hy
    · rcases List.mem_append.mp hy with hy | hy
      · refine plain_of_special (fun _ => L.key_special hk) (List.mem_cons_of_mem c hy) fun hone => ?_
        obtain ⟨-, rfl⟩ := List.cons.inj hone
        simp at hy
      · exact plain_of (by decide) (by decide) (hn.all y hy)
    · refine plain_of_special (fun _ => L.stop_special hx) (c := y) (by simp [hy]) fun hone => ?_
      have hlen := congrArg List.length hone
      have hpos := List.length_pos_of_mem hy
      simp only [List.concat_eq_append, List.length_append, List.length_singleton] at hlen
      omega

/-- Inside of a match the mode is the same everywhere. -/
theorem mode_inside (hr : r ∈ loops) (h : Matches r (u ++ v)) (hu : u ≠ []) (hv : v ≠ []) :
    Inside m a (u ++ v) ↔ modeAfter m (a ++ u) ≠ none := by
  obtain ⟨c, mid, e, heq, hplain⟩ := matches_shape hr h
  obtain ⟨f, u', rfl⟩ := List.exists_cons_of_ne_nil hu
  obtain ⟨v', g, rfl⟩ := List.eq_nil_or_concat v |>.resolve_left hv
  have hsplit : f :: (u' ++ v') ++ [g] = c :: mid ++ [e] := by
    rw [← heq]
    simp
  obtain ⟨hfront, -⟩ := List.append_inj' hsplit rfl
  obtain ⟨rfl, rfl⟩ := List.cons.inj hfront
  have hsame : modeAfter m (a ++ f :: u') = modeAfter m (a ++ [f]) := by
    rw [show a ++ f :: u' = a ++ [f] ++ u' by simp, modeAfter_append,
      modeAfter_of_plain fun x hx => hplain x (by simp [hx])]
  rw [hsame]
  constructor
  · rintro ⟨d, w', hw, hmode⟩
    obtain ⟨rfl, -⟩ := List.cons.inj hw
    exact hmode
  · exact fun hmode => ⟨f, _, rfl, hmode⟩

/-- A plain text outside of literals has nothing inside of them. -/
theorem not_inside_of_plain (hd : ∀ c ∈ d, quoteOf c = none) (heq : d = z ++ w ++ b)
    (ha : modeAfter m a = none) : ¬ Inside m (a ++ z) w := by
  rintro ⟨c, w', rfl, hmode⟩
  apply hmode
  rw [List.append_assoc, modeAfter_append, ha, modeAfter_of_plain]
  intro x hx
  apply hd x
  rw [heq]
  rcases List.mem_append.mp hx with hx | hx
  · simp [hx]
  · simp [List.mem_singleton.mp hx]

/-! ### Edits -/

/-- What a round takes away, and what it puts there. -/
inductive Edit : List Char → List Char → Prop
  | text : Edit [] textStep
  | id {ds : List Char} : ds ≠ [] → (∀ d ∈ ds, isdigit d) → Edit ('/' :: ds) (idText ds)

/-- A piece that a pattern matches lies inside of a literal. -/
def Hurts (m : Option Quote) (s : List Char) : Prop :=
  ∃ r ∈ loops, ∃ a w b, s = a ++ w ++ b ∧ Matches r w ∧ Inside m a w

theorem hurts_of_id {ds : List Char} (hne : ds ≠ []) (hds : ∀ d ∈ ds, isdigit d)
    (hm : modeAfter m u ≠ none) : Hurts m (u ++ '/' :: ds ++ v) := by
  refine ⟨idStep, mem_loops.mpr (.inl rfl), u, '/' :: ds, v, rfl, ?_, '/', ds, rfl, ?_⟩
  · exact matches_idStep.mpr ⟨ds, hne, hds, rfl⟩
  · rwa [modeAfter_append, modeAfter_of_plain (by simp [quoteOf])]

/-- A round edits at a match; inside of a literal, it is a match there that it edits. -/
theorem round_edit (hr : r ∈ loops) (h : replace r.1 r.2 s = some s') :
    ∃ u d i v, Edit d i ∧ s = u ++ d ++ v ∧ s' = u ++ i ++ v ∧
      ∀ m, modeAfter m u ≠ none → Hurts m s := by
  rcases mem_loops.mp hr with rfl | ⟨L, -, rfl⟩
  · obtain ⟨u, ds, v, hne, hds, rfl, rfl⟩ := idStep_round h
    exact ⟨u, '/' :: ds, idText ds, v, .id hne hds, rfl, rfl, fun m => hurts_of_id hne hds⟩
  · obtain ⟨u, v, ⟨a, k, n, w, b, hk, hn, hw, rfl, rfl⟩, rfl, rfl⟩ := textLoop_round h
    refine ⟨_, [], textStep, _, .text, by simp, rfl, fun m hm => ?_⟩
    have hmatch : Matches L.rule ((k ++ n) ++ w) := matches_textLoop.mpr ⟨k, n, w, hk, hn, hw, rfl⟩
    have hw' : w ≠ [] := by
      obtain ⟨e, y, rfl, -⟩ := L.stop_head hw
      exact List.cons_ne_nil e y
    refine ⟨L.rule, hr, a, k ++ n ++ w, b, by simp, hmatch, ?_⟩
    rw [mode_inside hr hmatch (by simp [hn.ne_nil]) hw', ← List.append_assoc]
    exact hm

/-- The characters that an edit brings along: a bracket or a parenthesis. -/
def mark (c : Char) : Bool := c == '[' || c == '('

theorem mark_quote (q : Quote) : ¬ mark q.char := by
  cases q <;> decide

theorem weight_of_unmarked (h : ∀ c ∈ s, ¬ mark c) (m : Option Quote) : weight mark m s = 0 := by
  induction s generalizing m with
  | nil => rfl
  | cons c s ih => simp [weight, h c (by simp), ih fun c hc => h c (by simp [hc])]

theorem unmarked_digits {ds : List Char} (h : ∀ d ∈ ds, isdigit d) : ∀ d ∈ ds, ¬ mark d := by
  intro d hd hmark
  have hdigit := h d hd
  simp only [mark, Bool.or_eq_true, beq_iff_eq] at hmark
  rcases hmark with rfl | rfl <;> exact absurd hdigit (by decide)

theorem plain_digits {ds : List Char} (h : ∀ d ∈ ds, isdigit d) : ∀ d ∈ ds, quoteOf d = none :=
  fun d hd => plain_of (by decide) (by decide) (h d hd)

/-- What is taken away has no quote. -/
theorem Edit.plain (h : Edit d i) : ∀ c ∈ d, quoteOf c = none := by
  cases h with
  | text => simp
  | id _ hds =>
    intro c hc
    rcases List.mem_cons.mp hc with rfl | hc
    · decide
    · exact plain_digits hds c hc

/-- An inserted predicate closes what it opens, also inside of a literal. -/
theorem modeAfter_quoted {ds : List Char} (hds : ∀ d ∈ ds, quoteOf d = none) (m : Option Quote) :
    modeAfter m ('\'' :: ds ++ ['\'']) = m := by
  rw [List.cons_append, modeAfter_cons, modeAfter_append, modeAfter_of_plain hds]
  rcases m with _ | q
  · rfl
  · cases q <;> rfl

theorem idText_eq (ds : List Char) :
    idText ds = ['[', '@', 'i', 'd', '='] ++ (('\'' :: ds ++ ['\'']) ++ [']']) := by
  simp [idText]

theorem plain_front : ∀ c ∈ ['[', '@', 'i', 'd', '='], quoteOf c = none := by
  simp [quoteOf]

theorem plain_back : ∀ c ∈ [']'], quoteOf c = none := by
  simp [quoteOf]

theorem Edit.mode (h : Edit d i) (m : Option Quote) : modeAfter m i = m := by
  cases h with
  | text => exact modeAfter_of_plain (by simp [textStep, quoteOf]) m
  | id _ hds =>
    rw [idText_eq, modeAfter_append, modeAfter_of_plain plain_front, modeAfter_append,
      modeAfter_quoted (plain_digits hds), modeAfter_of_plain plain_back]

theorem Edit.weight (h : Edit d i) (m : Option Quote) :
    weight mark m d = 0 ∧ weight mark m i = if m.isSome then 1 else 0 := by
  cases h with
  | text =>
    refine ⟨rfl, ?_⟩
    rw [show textStep = ['/', 't', 'e', 'x', 't'] ++ '(' :: [')'] from rfl, weight_append,
      weight_of_unmarked (by simp [mark]), modeAfter_of_plain (by simp [quoteOf]), Schemes.weight,
      weight_of_unmarked (by simp [mark])]
    cases m <;> rfl
  | id _ hds =>
    constructor
    · refine weight_of_unmarked (fun c hc => ?_) m
      rcases List.mem_cons.mp hc with rfl | hc
      · decide
      · exact unmarked_digits hds c hc
    · have hfront : ∀ c ∈ ['@', 'i', 'd', '=', '\''], ¬ mark c := by simp [mark]
      have hback : ∀ c ∈ ['\'', ']'], ¬ mark c := by simp [mark]
      rw [idText, List.append_assoc, List.cons_append, Schemes.weight, weight_of_unmarked]
      · cases m <;> rfl
      · intro c hc
        rcases List.mem_append.mp hc with hc | hc
        · exact hfront c hc
        · rcases List.mem_append.mp hc with hc | hc
          · exact unmarked_digits hds c hc
          · exact hback c hc

theorem keeps_inserted {l : Literal} (hl : Inserted l) (M : List Literal) :
    Keeps Inserted M (M ++ [l]) := by
  have hkeeps := (Keeps.refl M).append (.insert hl .nil)
  rwa [List.append_nil] at hkeeps

/-- Outside of literals an edit brings at most a literal of its own. -/
theorem Edit.kept (h : Edit d i) {r : Reader} (hr : r.current = none) :
    (r.feed d).Kept Inserted (r.feed i) := by
  rw [Reader.feed_of_plain hr h.plain]
  cases h with
  | text =>
    rw [Reader.feed_of_plain hr (by simp [textStep, quoteOf])]
    exact ⟨rfl, Keeps.refl _⟩
  | @id ds _ hds =>
    obtain ⟨current, literals⟩ := r
    obtain rfl : current = none := hr
    have hquote : Quote.single.char ∉ ds := fun hmem => absurd (hds _ hmem) (by decide)
    have hliteral := Reader.feed_literal (L := literals) hquote
    rw [idText_eq, Reader.feed_append, Reader.feed_of_plain rfl plain_front, Reader.feed_append,
      show '\'' = Quote.single.char from rfl, hliteral, Reader.feed_of_plain rfl plain_back]
    exact ⟨rfl, keeps_inserted ⟨rfl, hds⟩ literals⟩

/-! ### Edits and matches inside of literals -/

/-- Outside of literals, a text has no match that lies inside of one. -/
def Harmless (d : List Char) : Prop :=
  ∀ r ∈ loops, ∀ z w b, d = z ++ w ++ b → Matches r w → ¬ Inside none z w

theorem Inside.shift (ha : modeAfter m a = none) : Inside m (a ++ z) w ↔ Inside none z w := by
  simp only [Inside, List.append_assoc, modeAfter_append m a, ha]

/-- What is edited outside of literals leaves the matches inside of them alone. -/
theorem hurts_transfer (hu : modeAfter m u = none) (hd : modeAfter none d = none)
    (hi : modeAfter none i = none) (hharmless : Harmless d) (h : Hurts m (u ++ d ++ v)) :
    Hurts m (u ++ i ++ v) := by
  obtain ⟨r, hr, a, w, b, heq, hw, hinside⟩ := h
  rw [List.append_assoc] at heq
  rcases infix_cut heq.symm with ⟨z, rfl, -⟩ | ⟨z, rfl, hz⟩ | ⟨w₁, w₂, h₁, h₂, rfl, rfl, -⟩
  · exact ⟨r, hr, a, w, z ++ i ++ v, by simp, hw, hinside⟩
  · rw [Inside.shift hu] at hinside
    rcases infix_cut hz.symm with ⟨z', rfl, -⟩ | ⟨z', rfl, rfl⟩ | ⟨w₁, w₂, h₁, h₂, rfl, rfl, -⟩
    · exact absurd hinside (hharmless r hr z w z' rfl hw)
    · refine ⟨r, hr, u ++ i ++ z', w, b, by simp, hw, ?_⟩
      rw [Inside.shift hd] at hinside
      rwa [List.append_assoc, Inside.shift hu, Inside.shift hi]
    · rw [mode_inside hr hw h₁ h₂] at hinside
      exact absurd hd hinside
  · rw [mode_inside hr hw h₁ h₂] at hinside
    exact absurd hu hinside

theorem harmless_of_plain (hd : ∀ c ∈ d, quoteOf c = none) : Harmless d := by
  intro r hr z w b heq _
  exact not_inside_of_plain (a := []) hd heq rfl

/-- A match has a letter, an underscore or a slash. -/
theorem matches_char (hr : r ∈ loops) (h : Matches r w) : ∃ c ∈ w, nameStart c ∨ c = '/' := by
  rcases mem_loops.mp hr with rfl | ⟨L, -, rfl⟩
  · obtain ⟨ds, -, -, rfl⟩ := matches_idStep.mp h
    exact ⟨'/', by simp, .inr rfl⟩
  · obtain ⟨k, n, x, -, ⟨c, run, rfl, hc, -⟩, -, rfl⟩ := matches_textLoop.mp h
    exact ⟨c, by simp, .inl hc⟩

theorem not_nameStart_digit {c : Char} (h : isdigit c) : ¬ nameStart c := by
  simp only [isdigit, Bool.and_eq_true, decide_eq_true_eq, nameStart, Bool.or_eq_true,
    beq_iff_eq] at h ⊢
  rintro (rfl | ⟨ha, -⟩)
  · exact absurd h.2 (by decide)
  · exact absurd (Char.le_trans ha h.2) (by decide)

/-- The literal of an inserted predicate has only digits, and no match fits in. -/
theorem harmless_idText {ds : List Char} (hds : ∀ d ∈ ds, isdigit d) : Harmless (idText ds) := by
  intro r hr z w b heq hw hinside
  have hfront : modeAfter none ['[', '@', 'i', 'd', '='] = none := rfl
  have hquoted := modeAfter_quoted (plain_digits hds) none
  rw [idText_eq] at heq
  rcases infix_cut heq.symm with ⟨z', hz', -⟩ | ⟨z', rfl, hz'⟩ | ⟨w₁, w₂, h₁, h₂, rfl, hmode, -⟩
  · exact not_inside_of_plain (a := []) plain_front hz' rfl hinside
  · rw [Inside.shift hfront] at hinside
    rcases infix_cut hz'.symm with ⟨y, hy, -⟩ | ⟨y, rfl, hy⟩ | ⟨w₁, w₂, h₁, h₂, rfl, hmode, -⟩
    · obtain ⟨c, hc, hchar⟩ := matches_char hr hw
      have hmem : c ∈ '\'' :: ds ++ ['\''] := by
        rw [hy]
        simp [hc]
      simp only [List.cons_append, List.mem_cons, List.mem_append, List.not_mem_nil, or_false] at hmem
      rcases hmem with rfl | hmem | rfl
      · exact absurd hchar (by decide)
      · rcases hchar with hstart | rfl
        · exact not_nameStart_digit (hds c hmem) hstart
        · exact absurd (hds _ hmem) (by decide)
      · exact absurd hchar (by decide)
    · exact not_inside_of_plain plain_back hy hquoted hinside
    · rw [mode_inside hr hw h₁ h₂, ← hmode] at hinside
      exact hinside hquoted
  · rw [mode_inside hr hw h₁ h₂, ← hmode] at hinside
    exact hinside hfront

theorem Edit.harmless (h : Edit d i) : Harmless d ∧ Harmless i := by
  cases h with
  | text => exact ⟨harmless_of_plain (by simp), harmless_of_plain (by simp [textStep, quoteOf])⟩
  | id hne hds => exact ⟨harmless_of_plain (Edit.id hne hds).plain, harmless_idText hds⟩

theorem Edit.hurts (h : Edit d i) (hu : modeAfter m u = none) :
    Hurts m (u ++ d ++ v) ↔ Hurts m (u ++ i ++ v) := by
  have hd : modeAfter none d = none := modeAfter_of_plain h.plain none
  exact ⟨hurts_transfer hu hd (h.mode none) h.harmless.1,
    hurts_transfer hu (h.mode none) hd h.harmless.2⟩

theorem not_hurts_of_normal (h : Normal s) : ¬ Hurts m s := by
  rintro ⟨r, hr, a, w, b, heq, hw, -⟩
  exact not_matches_of_none (normal_iff.mp h r hr) heq hw

/-! ### The loops on a part -/

/-- A part in its mode: what the loops leave has as many marks inside of literals at least, and more
    if a match lay inside of one. -/
theorem runLoops_weight (h : runLoops loops p = .ok q) (m : Option Quote) :
    modeAfter m q = modeAfter m p ∧ weight mark m p ≤ weight mark m q ∧
      (Hurts m p → weight mark m p < weight mark m q) := by
  have hkeep := runLoops_keeps (P := fun t => modeAfter m t = modeAfter m p ∧
    weight mark m p ≤ weight mark m t ∧
      (Hurts m p → Hurts m t ∨ weight mark m p < weight mark m t)) h ?_ ⟨rfl, le_rfl, fun hurts => .inl hurts⟩
  · obtain ⟨hmode, hle, hlt⟩ := hkeep
    exact ⟨hmode, hle, fun hurts =>
      (hlt hurts).resolve_left (not_hurts_of_normal (runLoops_normal h))⟩
  · rintro r hr t t' hround ⟨hmode, hle, hlt⟩
    obtain ⟨u, d, i, v, hedit, rfl, rfl, -⟩ := round_edit hr hround
    have hd : ∀ m, modeAfter m d = m := modeAfter_of_plain hedit.plain
    have hweight := hedit.weight (modeAfter m u)
    have hsame : modeAfter m (u ++ i ++ v) = modeAfter m (u ++ d ++ v) := by
      simp only [modeAfter_append, hedit.mode, hd]
    have hnew : weight mark m (u ++ i ++ v) =
        weight mark m (u ++ d ++ v) + if (modeAfter m u).isSome then 1 else 0 := by
      simp only [weight_append, modeAfter_append, hedit.mode, hd, hweight.1, hweight.2]
      omega
    refine ⟨hsame.trans hmode, by omega, fun hurts => ?_⟩
    rcases hm : modeAfter m u with _ | quote
    · rcases hlt hurts with hurts | hlt
      · exact .inl ((hedit.hurts hm).mp hurts)
      · exact .inr (by omega)
    · rw [hm] at hnew
      simp only [Option.isSome_some, if_true] at hnew
      exact .inr (by omega)

/-- A round without a match inside of a literal makes none. -/
theorem not_hurts_of_round (hr : r ∈ loops) (h : replace r.1 r.2 t = some t') (hurts : ¬ Hurts m t) :
    ¬ Hurts m t' := by
  obtain ⟨u, d, i, v, hedit, rfl, rfl, hinside⟩ := round_edit hr h
  have hm : modeAfter m u = none := by
    by_contra hm
    exact hurts (hinside m hm)
  exact fun hnew => hurts ((hedit.hurts hm).mpr hnew)

/-- Without a match inside of a literal, what every such round keeps holds at the end. -/
theorem runLoops_quiet {P : List Char → Prop} (h : runLoops loops p = .ok q) (hurts : ¬ Hurts m p)
    (hround : ∀ r ∈ loops, ∀ t t', replace r.1 r.2 t = some t' → ¬ Hurts m t → P t → P t')
    (hp : P p) : P q := by
  have hkeep := runLoops_keeps (P := fun t => ¬ Hurts m t ∧ P t) h ?_ ⟨hurts, hp⟩
  · exact hkeep.2
  · rintro r hr t t' hreplace ⟨hurts, ht⟩
    exact ⟨not_hurts_of_round hr hreplace hurts, hround r hr t t' hreplace hurts ht⟩

/-- Without a match inside of a literal, the loops keep the literals of a part. -/
theorem runLoops_kept (h : runLoops loops p = .ok q) {r r' : Reader} (hkept : r.Kept Inserted r')
    (hurts : ¬ Hurts r.mode p) : (r.feed p).Kept Inserted (r'.feed q) := by
  refine runLoops_quiet (P := fun t => (r.feed p).Kept Inserted (r'.feed t)) h hurts ?_
    (hkept.feed p)
  intro rule hrule t t' hround hurts hkeeps
  refine hkeeps.trans ?_
  obtain ⟨u, d, i, v, hedit, rfl, rfl, hinside⟩ := round_edit hrule hround
  have hcurrent : (r'.feed u).current = none := by
    rw [← Reader.mode_eq_none, Reader.mode_feed, ← hkept.mode]
    by_contra hm
    exact hurts (hinside _ hm)
  rw [Reader.feed_append, Reader.feed_append, Reader.feed_append, Reader.feed_append]
  exact (hedit.kept hcurrent).feed v

/-! ### The segments of a query -/

variable {Q : List Char → List Char → Prop}

theorem outside_one (hp : '\'' ∉ p) : Outside Q p ↔ ∃ a w b, p = a ++ w ++ b ∧ w ≠ [] ∧ Q a w := by
  constructor
  · rintro ⟨a, w, b, heq, hw, -, -, hQ⟩
    exact ⟨a, w, b, heq, hw, hQ⟩
  · rintro ⟨a, w, b, rfl, hw, hQ⟩
    simp only [List.mem_append, not_or] at hp
    exact ⟨a, w, b, rfl, hw, hp.1.2, by rw [List.count_eq_zero.mpr hp.1.1], hQ⟩

/-- A piece without a quote is in front of a quote or behind it. -/
theorem segment_cut (h : p ++ '\'' :: s = a ++ w ++ b) (hw : w ≠ []) (hquote : '\'' ∉ w) :
    (∃ z, p = a ++ w ++ z) ∨ ∃ z, a = p ++ '\'' :: z ∧ s = z ++ w ++ b := by
  rcases infix_cut h.symm with ⟨z, hz, -⟩ | ⟨z, rfl, hz⟩ | ⟨w₁, w₂, -, h₂, rfl, -, hz⟩
  · exact .inl ⟨z, hz⟩
  · cases z with
    | nil =>
      obtain ⟨c, w', rfl⟩ := List.exists_cons_of_ne_nil hw
      obtain ⟨rfl, -⟩ := List.cons.inj hz
      exact absurd List.mem_cons_self hquote
    | cons c z =>
      obtain ⟨rfl, hrest⟩ := List.cons.inj hz
      exact .inr ⟨z, rfl, hrest⟩
  · obtain ⟨c, w', rfl⟩ := List.exists_cons_of_ne_nil h₂
    obtain ⟨rfl, -⟩ := List.cons.inj hz
    exact absurd (by simp) hquote

theorem outside_two (hp : '\'' ∉ p) (hq : '\'' ∉ q) : Outside Q (p ++ '\'' :: q) ↔ Outside Q p := by
  rw [outside_one hp]
  constructor
  · rintro ⟨a, w, b, heq, hw, hquote, hcount, hQ⟩
    rcases segment_cut heq hw hquote with ⟨z, rfl⟩ | ⟨z, rfl, rfl⟩
    · exact ⟨a, w, z, rfl, hw, hQ⟩
    · simp only [List.mem_append, not_or] at hq
      rw [List.count_append, List.count_eq_zero.mpr hp, List.count_cons_self,
        List.count_eq_zero.mpr hq.1.1] at hcount
      cases hcount
  · rintro ⟨a, w, b, rfl, hw, hQ⟩
    simp only [List.mem_append, not_or] at hp
    exact ⟨a, w, b ++ '\'' :: q, by simp, hw, hp.1.2, by rw [List.count_eq_zero.mpr hp.1.1], hQ⟩

/-- The first segment, and the others behind the first two quotes. -/
theorem outside_more (hp : '\'' ∉ p) (hq : '\'' ∉ q) :
    Outside Q (p ++ '\'' :: (q ++ '\'' :: s)) ↔
      Outside Q p ∨ Outside (fun a => Q (p ++ '\'' :: (q ++ '\'' :: a))) s := by
  rw [outside_one hp]
  constructor
  · rintro ⟨a, w, b, heq, hw, hquote, hcount, hQ⟩
    rcases segment_cut heq hw hquote with ⟨z, rfl⟩ | ⟨z, rfl, hz⟩
    · exact .inl ⟨a, w, z, rfl, hw, hQ⟩
    · rcases segment_cut hz hw hquote with ⟨y, rfl⟩ | ⟨y, rfl, rfl⟩
      · simp only [List.mem_append, not_or] at hq
        rw [List.count_append, List.count_eq_zero.mpr hp, List.count_cons_self,
          List.count_eq_zero.mpr hq.1.1] at hcount
        cases hcount
      · refine .inr ⟨y, w, b, rfl, hw, hquote, ?_, hQ⟩
        rw [List.count_append, List.count_eq_zero.mpr hp, List.count_cons_self, List.count_append,
          List.count_eq_zero.mpr hq, List.count_cons_self] at hcount
        omega
  · rintro (⟨a, w, b, rfl, hw, hQ⟩ | ⟨a, w, b, rfl, hw, hquote, hcount, hQ⟩)
    · simp only [List.mem_append, not_or] at hp
      exact ⟨a, w, b ++ '\'' :: (q ++ '\'' :: s), by simp, hw, hp.1.2,
        by rw [List.count_eq_zero.mpr hp.1.1], hQ⟩
    · refine ⟨_, w, b, by simp, hw, hquote, ?_, hQ⟩
      rw [List.count_append, List.count_eq_zero.mpr hp, List.count_cons_self, List.count_append,
        List.count_eq_zero.mpr hq, List.count_cons_self]
      omega

/-- The text of a query and what the loops make of it. -/
inductive Rewrites : List Char → List Char → Prop
  | one {p p' : List Char} : '\'' ∉ p → runLoops loops p = .ok p' → Rewrites p p'
  | two {p p' q : List Char} : '\'' ∉ p → '\'' ∉ q → runLoops loops p = .ok p' →
      Rewrites (p ++ '\'' :: q) (p' ++ '\'' :: q)
  | more {p p' q s s' : List Char} : '\'' ∉ p → '\'' ∉ q → runLoops loops p = .ok p' →
      Rewrites s s' → Rewrites (p ++ '\'' :: (q ++ '\'' :: s)) (p' ++ '\'' :: (q ++ '\'' :: s'))

theorem rewrites_of_rewritten {ps ps' : List (List Char)} (h : Rewritten ps ps') (hps : ps ≠ [])
    (hquotes : ∀ p ∈ ps, '\'' ∉ p) :
    Rewrites (['\''].intercalate ps) (['\''].intercalate ps') := by
  induction h with
  | nil => exact absurd rfl hps
  | @one p p' hp =>
    rw [List.intercalate_singleton, List.intercalate_singleton]
    exact .one (hquotes p (by simp)) hp
  | @more p p' q ps ps' hp hrest ih =>
    have hp' := hquotes p (by simp)
    have hq := hquotes q (by simp)
    rw [List.intercalate_cons_cons, List.intercalate_cons_cons, List.append_assoc, List.append_assoc,
      List.singleton_append, List.singleton_append]
    by_cases hnil : ps = []
    · subst hnil
      cases hrest
      rw [List.intercalate_singleton]
      exact .two hp' hq hp
    · rw [List.intercalate_cons_of_ne_nil hnil,
        List.intercalate_cons_of_ne_nil (rewritten_ne_nil hrest hnil), List.append_assoc,
        List.append_assoc, List.singleton_append, List.singleton_append]
      exact .more hp' hq hp (ih hnil fun p hmem => hquotes p (by simp [hmem]))

theorem disturbs_one (hp : '\'' ∉ p) : Disturbs m p ↔ Hurts m p := by
  simp only [Disturbs, Hurts, outside_one hp]
  refine exists_congr fun r => and_congr_right fun hr => ?_
  constructor
  · rintro ⟨a, w, b, heq, -, hw⟩
    exact ⟨a, w, b, heq, hw⟩
  · rintro ⟨a, w, b, heq, hw, hinside⟩
    obtain ⟨c, w', rfl, -⟩ := id hinside
    exact ⟨a, c :: w', b, heq, List.cons_ne_nil c w', hw, hinside⟩

theorem disturbs_two (hp : '\'' ∉ p) (hq : '\'' ∉ q) : Disturbs m (p ++ '\'' :: q) ↔ Hurts m p := by
  rw [← disturbs_one hp]
  simp only [Disturbs, outside_two hp hq]

theorem quoted_append (p q s : List Char) :
    p ++ '\'' :: (q ++ '\'' :: s) = p ++ '\'' :: (q ++ ['\'']) ++ s := by
  simp

theorem disturbs_more (hp : '\'' ∉ p) (hq : '\'' ∉ q) :
    Disturbs m (p ++ '\'' :: (q ++ '\'' :: s)) ↔
      Hurts m p ∨ Disturbs (modeAfter m (p ++ '\'' :: (q ++ ['\'']))) s := by
  rw [← disturbs_one hp]
  simp only [Disturbs, outside_more hp hq]
  rw [← exists_or]
  refine exists_congr fun r => ?_
  rw [← and_or_left]
  refine and_congr_right fun _ => or_congr_right ?_
  have hmode : ∀ a w, Inside m (p ++ '\'' :: (q ++ '\'' :: a)) w ↔
      Inside (modeAfter m (p ++ '\'' :: (q ++ ['\'']))) a w := by
    intro a w
    simp only [Inside, ← modeAfter_append]
    simp
  simp only [hmode]

/-! ### The loops on a query -/

/-- The joined parts have as many marks inside of literals as the query, and more if a match was
    disturbed. -/
theorem rewrites_weight (h : Rewrites s s') (m : Option Quote) :
    modeAfter m s' = modeAfter m s ∧ weight mark m s ≤ weight mark m s' ∧
      (Disturbs m s → weight mark m s < weight mark m s') := by
  induction h generalizing m with
  | one hp hrun =>
    rw [disturbs_one hp]
    exact runLoops_weight hrun m
  | two hp hq hrun =>
    obtain ⟨hmode, hle, hlt⟩ := runLoops_weight hrun m
    rw [disturbs_two hp hq, modeAfter_append, modeAfter_append, weight_append, weight_append, hmode]
    refine ⟨rfl, by omega, fun hurts => ?_⟩
    have := hlt hurts
    omega
  | @more p p' q s s' hp hq hrun _ ih =>
    obtain ⟨hmode, hle, hlt⟩ := runLoops_weight hrun m
    obtain ⟨hmode', hle', hlt'⟩ := ih (modeAfter m (p ++ '\'' :: (q ++ ['\''])))
    have hfront : modeAfter m (p' ++ '\'' :: (q ++ ['\''])) =
        modeAfter m (p ++ '\'' :: (q ++ ['\''])) := by
      rw [modeAfter_append, modeAfter_append, hmode]
    have hweight : ∀ x, weight mark m (x ++ '\'' :: (q ++ ['\''])) =
        weight mark m x + weight mark (modeAfter m x) ('\'' :: (q ++ ['\''])) :=
      fun x => weight_append m x _
    rw [disturbs_more hp hq, quoted_append p q s, quoted_append p' q s',
      modeAfter_append m (p' ++ _) s', modeAfter_append m (p ++ _) s, weight_append m (p' ++ _) s',
      weight_append m (p ++ _) s, hfront, hmode', hweight, hweight, hmode]
    refine ⟨rfl, by omega, ?_⟩
    rintro (hurts | hdisturbs)
    · have := hlt hurts
      omega
    · have := hlt' hdisturbs
      omega

/-- Without a match inside of a literal, the joined parts have the literals of the query. -/
theorem rewrites_kept (h : Rewrites s s') {r r' : Reader} (hkept : r.Kept Inserted r')
    (hdisturbs : ¬ Disturbs r.mode s) : (r.feed s).Kept Inserted (r'.feed s') := by
  induction h generalizing r r' with
  | one hp hrun =>
    rw [disturbs_one hp] at hdisturbs
    exact runLoops_kept hrun hkept hdisturbs
  | two hp hq hrun =>
    rw [disturbs_two hp hq] at hdisturbs
    rw [Reader.feed_append, Reader.feed_append]
    exact (runLoops_kept hrun hkept hdisturbs).feed _
  | @more p p' q s s' hp hq hrun _ ih =>
    rw [disturbs_more hp hq, not_or] at hdisturbs
    rw [quoted_append p q s, quoted_append p' q s', Reader.feed_append r (p ++ _) s,
      Reader.feed_append r' (p' ++ _) s']
    apply ih
    · rw [Reader.feed_append, Reader.feed_append]
      exact (runLoops_kept hrun hkept hdisturbs.1).feed _
    · rw [Reader.mode_feed]
      exact hdisturbs.2

theorem rewrite_ok {query result : String} (h : rewrite query = .ok result) :
    ∃ joined, Rewrites query.toList joined ∧ result = idPredicate (String.ofList joined) := by
  rcases rewriteParts_cases (split ['\''] query) with ⟨parts, hparts, hrewritten, -⟩ | ⟨herror, -⟩
  · rw [map_toList_split] at hrewritten
    have hne : query.toList.splitOn '\'' ≠ [] := List.splitOn_ne_nil _ _
    have hrewrites := rewrites_of_rewritten hrewritten hne fun _ => not_mem_of_splitOn
    rw [List.intercalate_splitOn] at hrewrites
    refine ⟨_, hrewrites, ?_⟩
    rw [rewrite, hparts] at h
    rw [← Except.ok.inj h]
    congr 1
    apply String.toList_inj.mp
    rw [toList_join]
    exact String.toList_ofList.symm
  · rw [rewrite, herror] at h
    cases h

/-! ### The last step -/

theorem predicate_eq :
    predicate = ['[', '@', 'i', 'd', '!', '='] ++ (('\'' :: [] ++ ['\'']) ++ [']']) := rfl

theorem plain_unequal : ∀ c ∈ ['[', '@', 'i', 'd', '!', '='], quoteOf c = none := by
  simp [quoteOf]

theorem predicate_mode (m : Option Quote) : modeAfter m predicate = m := by
  rw [predicate_eq, modeAfter_append, modeAfter_of_plain plain_unequal, modeAfter_append,
    modeAfter_quoted (by simp), modeAfter_of_plain plain_back]

theorem predicate_weight (m : Option Quote) :
    weight mark m predicate = if m.isSome then 1 else 0 := by
  rw [predicate, Schemes.weight, weight_of_unmarked (by simp [mark])]
  cases m <;> rfl

theorem predicate_kept {r : Reader} (hr : r.current = none) :
    r.Kept Inserted (r.feed predicate) := by
  obtain ⟨current, literals⟩ := r
  obtain rfl : current = none := hr
  have hliteral := @Reader.feed_literal [] literals .single (by simp)
  rw [predicate_eq, Reader.feed_append, Reader.feed_of_plain rfl plain_unequal, Reader.feed_append,
    show '\'' = Quote.single.char from rfl, hliteral, Reader.feed_of_plain rfl plain_back]
  exact ⟨rfl, keeps_inserted ⟨rfl, by simp⟩ literals⟩

/-- The last step puts its predicate inside of a literal. -/
def CutsLiteral (s : List Char) : Prop :=
  ∃ f g, s = f ++ '/' :: g ∧ '/' ∉ f ∧ Applies f g ∧ modeAfter none f ≠ none

/-- The last step puts its predicate in front of the first slash, or does nothing. -/
theorem last_cases (s : List Char) :
    (∃ f g, s = f ++ '/' :: g ∧
      (idPredicate (String.ofList s)).toList = f ++ predicate ++ '/' :: g ∧
      (CutsLiteral s ↔ modeAfter none f ≠ none)) ∨
    (idPredicate (String.ofList s)).toList = s ∧ ¬ CutsLiteral s := by
  have hs : (String.ofList s).toList = s := String.toList_ofList
  by_cases hslash : '/' ∈ s
  · obtain ⟨f, g, rfl, hf⟩ := List.eq_append_cons_of_mem hslash
    by_cases happlies : Applies f g
    · refine .inl ⟨f, g, rfl, idPredicate_applies hs hf happlies, ?_, ?_⟩
      · rintro ⟨f', g', heq, hf', -, hmode⟩
        obtain ⟨rfl, rfl⟩ := first_slash heq hf hf'
        exact hmode
      · exact fun hmode => ⟨f, g, rfl, hf, happlies, hmode⟩
    · refine .inr ⟨?_, ?_⟩
      · rw [idPredicate_otherwise hs hf happlies, hs]
      · rintro ⟨f', g', heq, hf', happlies', -⟩
        obtain ⟨rfl, rfl⟩ := first_slash heq hf hf'
        exact happlies happlies'
  · refine .inr ⟨?_, ?_⟩
    · rw [idPredicate_of_no_slash (by rwa [hs]), hs]
    · rintro ⟨f, g, rfl, -⟩
      simp at hslash

theorem last_weight (s : List Char) :
    weight mark none s ≤ weight mark none (idPredicate (String.ofList s)).toList ∧
      (CutsLiteral s →
        weight mark none s < weight mark none (idPredicate (String.ofList s)).toList) := by
  rcases last_cases s with ⟨f, g, heq, hlast, hcuts⟩ | ⟨hlast, hcuts⟩
  · rw [hlast, heq, List.append_assoc, weight_append, weight_append none f, weight_append,
      predicate_weight, predicate_mode, ← heq, hcuts]
    refine ⟨by omega, fun hmode => ?_⟩
    rw [if_pos (Option.isSome_iff_ne_none.mpr hmode)]
    omega
  · rw [hlast]
    exact ⟨le_rfl, fun h => absurd h hcuts⟩

theorem last_kept {s : List Char} (hcuts : ¬ CutsLiteral s) :
    (Reader.start.feed s).Kept Inserted (scan (idPredicate (String.ofList s))) := by
  rw [scan]
  rcases last_cases s with ⟨f, g, heq, hlast, hmode⟩ | ⟨hlast, -⟩
  · rw [hmode, not_not] at hcuts
    rw [hlast, heq, Reader.feed_append, Reader.feed_append, Reader.feed_append]
    apply Reader.Kept.feed
    apply predicate_kept
    rw [← Reader.mode_eq_none, Reader.mode_feed]
    exact hcuts
  · rw [hlast]
    exact ⟨rfl, Keeps.refl _⟩

theorem Inserted.weight (l : Literal) (h : Inserted l) : l.weight mark = 0 := by
  obtain ⟨-, hdigits⟩ := h
  exact List.countP_eq_zero.mpr (unmarked_digits hdigits)

theorem scan_weight {query : String} (h : Balanced query) :
    ((scan query).literals.map (Literal.weight mark)).sum = weight mark none query.toList := by
  have hfeed := Reader.weight_feed mark_quote Reader.start query.toList
  have hscan : (Reader.start.feed query.toList).current = none := h
  simp only [Reader.weight, hscan] at hfeed
  simpa [Reader.start, Reader.mode, scan] using hfeed

/-- The literals survive exactly if no match lies inside of one and the last step cuts none. -/
theorem survives_iff_joined {query : String} {joined : List Char} (hbalanced : Balanced query)
    (h : Rewrites query.toList joined) :
    Survives query (idPredicate (String.ofList joined)) ↔
      ¬ Disturbs none query.toList ∧ ¬ CutsLiteral joined := by
  constructor
  · rintro ⟨hresult, hkeeps⟩
    -- Literals that survive have as many marks as before.
    have hsame := hkeeps.weight Inserted.weight
    rw [scan_weight hbalanced, scan_weight hresult] at hsame
    obtain ⟨-, hle, hlt⟩ := rewrites_weight h none
    obtain ⟨hle', hlt'⟩ := last_weight joined
    constructor
    · intro hdisturbs
      have := hlt hdisturbs
      omega
    · intro hcuts
      have := hlt' hcuts
      omega
  · rintro ⟨hdisturbs, hcuts⟩
    have hstart : Reader.start.Kept Inserted Reader.start := ⟨rfl, .nil⟩
    have hkept := (rewrites_kept h hstart hdisturbs).trans (last_kept hcuts)
    exact ⟨hkept.current.symm.trans hbalanced, hkept.literals⟩

end VaeDb.Literals
