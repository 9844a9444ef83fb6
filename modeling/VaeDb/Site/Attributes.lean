import VaeDb.Site.Rewriting

/-! Where the rewriting leaves attributes alone.

    Two of the loops look at one character in front of a name, and take it for the start of an
    attribute if it is an `@`. The patterns are not anchored: the name they see may start two
    characters further on, and the character in front of it is then a letter of the attribute.

        [@ab]     a name needs two characters and a guard      left alone
        [@abc]    guard a, name bc                             [@abc/text()]

    An attribute is in danger if a name of two characters stands behind its first characters, up to a
    bracket or a word. No round of another loop touches such a place, and none makes one. -/

namespace VaeDb.Attributes
open Schemes Cpp Query Rewriting

/-- The characters of the name of an attribute. -/
def attrChar (c : Char) : Bool :=
  isdigit c || ('a' ≤ c && c ≤ 'z') || ('A' ≤ c && c ≤ 'Z') || c == '_'

/-- A text that ends with an attribute step. -/
def EndsAttribute (u : List Char) : Prop :=
  ∃ x n, n ≠ [] ∧ (∀ c ∈ n, attrChar c) ∧ u = x ++ '@' :: n

/-- A round of one of the five loops on a part. -/
def Round (part s s' : List Char) : Prop :=
  ∃ before r after t, loops = before ++ r :: after ∧ runLoops before part = .ok t ∧
    Relation.ReflTransGen (fun s s' => replace r.1 r.2 s = some s') t s ∧
    replace r.1 r.2 s = some s'

/-- The parts outside of quotes that the constructor comes to: none behind one that it refuses. -/
def reached : List String → List String
  | [] => []
  | [part] => [part]
  | part :: _ :: parts => part :: if (rewritePart part).isOk then reached parts else []

/-- No round inserts `/text()` right behind an attribute step. -/
def Spares (part : List Char) : Prop :=
  ∀ s s', Round part s s' → ∀ u v, s = u ++ v → s' = u ++ textStep ++ v → ¬ EndsAttribute u

/-- An attribute with a name behind its first characters, up to a bracket or a word. -/
structure Danger (n w : List Char) : Prop where
  attr : ∀ c ∈ n, attrChar c
  name : ∃ m k, m ≠ [] ∧ n = m ++ k ∧ Name k
  stop : w = [']'] ∨ Word w

/-- A part with such an attribute. -/
def Exposed (part : List Char) : Prop := ∃ x n w y, Danger n w ∧ part = x ++ ('@' :: n ++ w) ++ y

variable {L : TextLoop} {part s s' u v x y n w : List Char}

/-! ### Attributes and names -/

theorem not_mem_attr {c : Char} (hc : ¬ attrChar c) (h : ∀ d ∈ n, attrChar d) : c ∉ n :=
  fun hmem => hc (h c hmem)

theorem Danger.stop_not_mem {c : Char} (h : Danger n w)
    (hc : c ∉ [']', ' ', 'o', 'r', 'a', 'n', 'd']) :
    c ∉ w := by
  simp only [List.mem_cons, List.not_mem_nil, or_false, not_or] at hc
  rcases h.stop with rfl | rfl | rfl
  · simp [hc]
  · simp [hc]
  · simp [hc]

theorem Danger.not_mem {c : Char} (h : Danger n w) (hattr : ¬ attrChar c) (hat : c ≠ '@')
    (hc : c ∉ [']', ' ', 'o', 'r', 'a', 'n', 'd']) : c ∉ '@' :: n ++ w := by
  simp [hat, not_mem_attr hattr h.attr, h.stop_not_mem hc]

/-- The guard of a loop holds inside of such an attribute. -/
theorem Danger.point (h : Danger n w) (x y : List Char) :
    ∃ L ∈ textLoops, L.Point (x ++ '@' :: n) (w ++ y) := by
  obtain ⟨m, k, hm, hn, hk⟩ := h.name
  obtain ⟨m, g, rfl⟩ := List.eq_nil_or_concat m |>.resolve_left hm
  have hguard : Guard [g] := by
    refine ⟨g, ?_, rfl⟩
    rintro rfl
    exact absurd (h.attr '@' (by simp [hn])) (by decide)
  have hu : x ++ '@' :: n = x ++ '@' :: m ++ [g] ++ k := by simp [hn]
  rcases h.stop with hw | hw
  · exact ⟨closeLoop, by simp [textLoops], _, [g], k, w, y, hguard, hk, hw, hu, rfl⟩
  · exact ⟨leftLoop, by simp [textLoops], _, [g], k, w, y, hguard, hk, hw, hu, rfl⟩

/-- What a loop needs to see a name behind an attribute sign. -/
theorem point_behind_at {m : List Char} (hL : L ∈ textLoops) (h : L.Point (x ++ '@' :: m) v) :
    (∃ a k name, m = a ++ k ++ name ∧ k ≠ [] ∧ Name name) ∧
      ('[' ∈ m ∨ 2 ≤ m.count ' ' ∨ (L = leftLoop ∧ ∃ w b, Word w ∧ v = w ++ b) ∨
        ∃ b, v = ']' :: b) := by
  obtain ⟨a, k, name, w, b, hk, hname, hw, heq, rfl⟩ := h
  rcases key_after (by decide) (by decide) hk hname heq.symm with ⟨rfl, -⟩ | ⟨a', rfl⟩
  · exact absurd hk L.key_attribute
  · refine ⟨⟨a', k, name, rfl, L.key_ne_nil hk, hname⟩, ?_⟩
    simp only [textLoops, List.mem_cons, List.not_mem_nil, or_false] at hL
    rcases hL with rfl | rfl | rfl | rfl
    · obtain rfl : k = ['['] := hk
      exact .inl (by simp)
    · have hcount : 2 ≤ k.count ' ' := by
        rcases (show Word k from hk) with rfl | rfl <;> decide
      refine .inr (.inl ?_)
      rw [List.count_append, List.count_append]
      omega
    · exact .inr (.inr (.inl ⟨rfl, w, b, hw, rfl⟩))
    · obtain rfl : w = [']'] := hw
      exact .inr (.inr (.inr ⟨b, rfl⟩))

/-- A loop that inserts behind an attribute step has such an attribute in front of it. -/
theorem exposed_of_point (hL : L ∈ textLoops) (h : L.Point u v) (hu : EndsAttribute u) :
    Exposed (u ++ v) := by
  obtain ⟨x, n, -, hn, rfl⟩ := hu
  obtain ⟨⟨a, k, name, rfl, hk, hname⟩, hcases⟩ := point_behind_at hL h
  have hdanger : ∀ w, (w = [']'] ∨ Word w) → Danger (a ++ k ++ name) w :=
    fun w hw => ⟨hn, ⟨a ++ k, name, by simp [hk], rfl, hname⟩, hw⟩
  rcases hcases with hmem | hcount | ⟨-, w, b, hw, rfl⟩ | ⟨b, rfl⟩
  · exact absurd hmem (not_mem_attr (by decide) hn)
  · rw [List.count_eq_zero.mpr (not_mem_attr (by decide) hn)] at hcount
    omega
  · exact ⟨x, _, w, b, hdanger w (.inr hw), by simp⟩
  · exact ⟨x, _, [']'], b, hdanger _ (.inl rfl), by simp⟩

/-! ### A round inserts behind an attribute -/

theorem not_endsAttribute_close (h : u = x ++ [')']) : ¬ EndsAttribute u := by
  rintro ⟨y, n, hne, hn, rfl⟩
  obtain ⟨n, c, rfl⟩ := List.eq_nil_or_concat n |>.resolve_left hne
  have hsplit : y ++ '@' :: n.concat c = y ++ '@' :: n ++ [c] := by simp
  obtain rfl := List.singleton_inj.mp (List.append_inj' (hsplit.symm.trans h) rfl).2
  exact absurd (hn ')' (by simp)) (by decide)

/-- Where the text was inserted can be read off, since it ends with a parenthesis. -/
theorem insertion_unique {u' v' : List Char} (h : u ++ v = u' ++ v')
    (hinsert : u ++ textStep ++ v = u' ++ textStep ++ v') (hu' : Boundary u' v')
    (hend : EndsAttribute u) : u = u' := by
  rw [List.append_assoc, List.append_assoc] at hinsert
  have hclose : textStep = ['/', 't', 'e', 'x', 't', '('] ++ [')'] := rfl
  -- The text between the two places commutes with the inserted text, and ends as it does.
  have hlast : ∀ z, z ≠ [] → textStep ++ z = z ++ textStep → ∃ z', z = z' ++ [')'] := by
    intro z hz hcomm
    obtain ⟨z, c, rfl⟩ := List.eq_nil_or_concat z |>.resolve_left hz
    rw [List.concat_eq_append, hclose, ← List.append_assoc, ← List.append_assoc] at hcomm
    obtain rfl := List.singleton_inj.mp (List.append_inj' hcomm rfl).2
    exact ⟨z, by simp⟩
  rcases List.append_eq_append_iff.mp h with ⟨z, rfl, rfl⟩ | ⟨z, rfl, rfl⟩
  · by_contra hne
    have hz : z ≠ [] := by
      rintro rfl
      simp at hne
    rw [List.append_assoc, List.append_cancel_left_eq, ← List.append_assoc, ← List.append_assoc,
      List.append_cancel_right_eq] at hinsert
    obtain ⟨z', rfl⟩ := hlast z hz hinsert
    obtain ⟨y, d, hy, hd⟩ := hu'.last
    rw [← List.append_assoc] at hy
    obtain rfl := List.singleton_inj.mp (List.append_inj' hy rfl).2
    exact absurd hd (by decide)
  · by_contra hne
    have hz : z ≠ [] := by
      rintro rfl
      simp at hne
    rw [List.append_assoc, List.append_cancel_left_eq, ← List.append_assoc, ← List.append_assoc,
      List.append_cancel_right_eq] at hinsert
    obtain ⟨z', rfl⟩ := hlast z hz hinsert.symm
    exact not_endsAttribute_close (x := u' ++ z') (by simp) hend

/-- A round that inserts behind an attribute step found it in danger. -/
theorem exposed_of_round {r : Pattern × Rewrite} (hr : r ∈ loops)
    (h : replace r.1 r.2 s = some s') (hs : s = u ++ v) (hs' : s' = u ++ textStep ++ v)
    (hu : EndsAttribute u) : Exposed s := by
  rcases mem_loops.mp hr with rfl | ⟨L, hL, rfl⟩
  · have hcount := count_slash h
    rw [hs, hs', List.count_append, List.count_append, List.count_append,
      show textStep.count '/' = 1 by decide] at hcount
    omega
  · obtain ⟨u', v', hpoint, heq, heq'⟩ := textLoop_round h
    obtain rfl := insertion_unique (hs.symm.trans heq) (hs'.symm.trans heq') hpoint.boundary hu
    obtain rfl := List.append_cancel_left (hs.symm.trans heq)
    rw [hs]
    exact exposed_of_point hL hpoint hu

/-! ### No round makes such a place -/

/-- A piece that avoids the ends of an inserted text, and is no piece of it, was there before. -/
theorem infix_of_insert {p i : List Char} {c d : Char} (hfirst : ∃ j, i = c :: j) (hc : c ∉ p)
    (hlast : ∃ j, i = j ++ [d]) (hd : ∀ p₁ p₂, p = p₁ ++ p₂ → p₂ ≠ [] → d ∉ p₁) (hin : ¬ p <:+: i)
    (h : x ++ p ++ y = u ++ i ++ v) :
    (∃ z, u = x ++ p ++ z) ∨ ∃ z, v = z ++ p ++ y := by
  obtain ⟨j, hj⟩ := hfirst
  obtain ⟨k, hk⟩ := hlast
  rw [List.append_assoc u] at h
  rcases infix_cut h with ⟨z, rfl, -⟩ | ⟨z, -, hz⟩ | ⟨p₁, p₂, -, h₂, rfl, -, hp⟩
  · exact .inl ⟨z, rfl⟩
  · rcases infix_cut hz.symm with ⟨z', hi, -⟩ | ⟨z', -, hv⟩ | ⟨p₁, p₂, h₁, h₂, rfl, hi, -⟩
    · exact absurd ⟨z, z', hi.symm⟩ hin
    · exact .inr ⟨z', hv⟩
    · obtain ⟨q, e, rfl⟩ := List.eq_nil_or_concat p₁ |>.resolve_left h₁
      rw [hk, List.concat_eq_append, ← List.append_assoc] at hi
      obtain rfl := List.singleton_inj.mp (List.append_inj' hi rfl).2
      exact absurd (by simp) (hd _ _ rfl h₂)
  · obtain ⟨e, q, rfl⟩ := List.exists_cons_of_ne_nil h₂
    rw [hj, List.cons_append, List.cons_append] at hp
    obtain rfl := (List.cons.inj hp).1
    simp at hc

theorem Danger.stop_head (h : Danger n w) : ∃ e z, w = e :: z ∧ (e = ']' ∨ e = ' ') := by
  rcases h.stop with rfl | rfl | rfl
  · exact ⟨_, _, rfl, .inl rfl⟩
  · exact ⟨_, _, rfl, .inr rfl⟩
  · exact ⟨_, _, rfl, .inr rfl⟩

/-- The inserted id predicate has an attribute, but an equals sign follows it. -/
theorem Danger.not_infix_idText {ds : List Char} (h : Danger n w) (hds : ∀ d ∈ ds, isdigit d) :
    ¬ '@' :: n ++ w <:+: idText ds := by
  rintro ⟨a, b, heq⟩
  have hat : '@' ∉ ds := fun hmem => absurd (hds _ hmem) (by decide)
  rcases a with _ | ⟨c, _ | ⟨d, a⟩⟩
  · simp [idText] at heq
  · obtain ⟨e, z, rfl, he⟩ := h.stop_head
    simp only [idText, List.cons_append, List.nil_append, List.append_assoc, List.cons.injEq,
      true_and] at heq
    rcases n with _ | ⟨n₁, _ | ⟨n₂, _ | ⟨n₃, n⟩⟩⟩
    · simp at heq
      rcases he with rfl | rfl <;> simp at heq
    · simp at heq
      rcases he with rfl | rfl <;> simp at heq
    · simp at heq
      rcases he with rfl | rfl <;> simp at heq
    · obtain ⟨-, -, -, rfl, -⟩ : c = '[' ∧ n₁ = 'i' ∧ n₂ = 'd' ∧ n₃ = '=' ∧ True := by
        simp at heq
        tauto
      exact absurd (h.attr '=' (by simp)) (by decide)
  · have hmem : '@' ∈ ['i', 'd', '=', '\''] ++ ds ++ ['\'', ']'] := by
      have htail : a ++ ('@' :: n ++ w) ++ b = ['i', 'd', '=', '\''] ++ ds ++ ['\'', ']'] := by
        simpa [idText] using (List.cons.inj (List.cons.inj heq).2).2
      rw [← htail]
      simp
    simp [hat] at hmem

theorem Danger.bracket_last {p₁ p₂ : List Char} (h : Danger n w) (heq : '@' :: n ++ w = p₁ ++ p₂)
    (hne : p₂ ≠ []) : ']' ∉ p₁ := by
  have hname : ']' ∉ n := not_mem_attr (by decide) h.attr
  have hattr : ']' ∉ '@' :: n := by simp [hname]
  rcases List.append_eq_append_iff.mp heq with ⟨z, rfl, hz⟩ | ⟨z, hz, -⟩
  · have hstop : ']' ∉ z := by
      rcases h.stop with rfl | hw
      · rcases List.append_eq_singleton_iff.mp hz.symm with ⟨rfl, -⟩ | ⟨-, rfl⟩
        · simp
        · exact absurd rfl hne
      · intro hmem
        have : ']' ∈ w := by simp [hz, hmem]
        rcases hw with rfl | rfl <;> simp at this
    simp only [List.mem_append, hattr, hstop, or_self, not_false_eq_true]
  · intro hmem
    exact hattr (by simp [hz, hmem])

/-- A place in danger after a round was there before. -/
theorem exposed_back {r : Pattern × Rewrite} (hr : r ∈ loops) (h : replace r.1 r.2 s = some s')
    (hs' : Exposed s') : Exposed s := by
  obtain ⟨x, n, w, y, hdanger, heq⟩ := hs'
  rcases mem_loops.mp hr with rfl | ⟨L, hL, rfl⟩
  · obtain ⟨u, ds, v, -, hds, rfl, rfl⟩ := idStep_round h
    have hlast : idText ds = ['[', '@', 'i', 'd', '=', '\''] ++ ds ++ ['\''] ++ [']'] := by
      simp [idText]
    rcases infix_of_insert ⟨_, rfl⟩ (hdanger.not_mem (by decide) (by decide) (by decide)) ⟨_, hlast⟩
      (fun _ _ => hdanger.bracket_last) (hdanger.not_infix_idText hds) heq.symm with ⟨z, rfl⟩ | ⟨z, rfl⟩
    · exact ⟨x, n, w, z ++ '/' :: ds ++ v, hdanger, by simp⟩
    · exact ⟨u ++ '/' :: ds ++ z, n, w, y, hdanger, by simp⟩
  · obtain ⟨u, v, -, rfl, rfl⟩ := textLoop_round h
    have hclose : ')' ∉ '@' :: n ++ w := hdanger.not_mem (by decide) (by decide) (by decide)
    have hat : ¬ '@' :: n ++ w <:+: textStep := fun hpiece =>
      absurd (hpiece.subset (show '@' ∈ '@' :: n ++ w by simp)) (by decide)
    rcases infix_of_insert ⟨_, rfl⟩ (hdanger.not_mem (by decide) (by decide) (by decide))
      ⟨['/', 't', 'e', 'x', 't', '('], rfl⟩ (fun p₁ p₂ hp _ hmem => hclose (by simp [hp, hmem]))
      hat heq.symm with ⟨z, rfl⟩ | ⟨z, rfl⟩
    · exact ⟨x, n, w, z ++ v, hdanger, by simp⟩
    · exact ⟨u ++ z, n, w, y, hdanger, by simp⟩

/-! ### Such a place stays until `/text()` is inserted there -/

theorem Danger.name_ne_nil (h : Danger n w) : n ≠ [] := by
  obtain ⟨m, k, hm, rfl, -⟩ := h.name
  simp [hm]

/-- A word is itself a name, between blanks. -/
theorem word_name (h : Word w) : ∃ name, Name name ∧ w = ' ' :: name ++ [' '] := by
  rcases h with rfl | rfl
  · exact ⟨['o', 'r'], ⟨'o', ['r'], rfl, by decide, by simp, by simp [nameChar, nameStart]⟩, rfl⟩
  · exact ⟨['a', 'n', 'd'], ⟨'a', ['n', 'd'], rfl, by decide, by simp, by simp [nameChar, nameStart]⟩, rfl⟩

/-- A word cut in two: the back ends with a blank, and has no other one unless the front is empty or
    all but the blank. -/
theorem word_cut {z p : List Char} (h : Word (z ++ p)) (hz : z ≠ []) (hp : p ≠ []) :
    z.count ' ' < 2 ∧ ∀ q, p = ' ' :: q → q = [] := by
  obtain ⟨name, hname, heq⟩ := word_name h
  have hblank : name.count ' ' = 0 :=
    List.count_eq_zero.mpr fun hmem => absurd (hname.all _ hmem) (by decide)
  obtain ⟨c, z', rfl⟩ := List.exists_cons_of_ne_nil hz
  obtain ⟨p', d, rfl⟩ := List.eq_nil_or_concat p |>.resolve_left hp
  rw [List.concat_eq_append, ← List.append_assoc] at heq
  obtain ⟨hfront, hlast⟩ := List.append_inj' heq rfl
  obtain rfl := List.singleton_inj.mp hlast
  obtain ⟨rfl, hname'⟩ := List.cons.inj hfront
  have hcount := congrArg (List.count ' ') hname'
  change (z' ++ p').count ' ' = _ at hcount
  rw [hblank, List.count_append] at hcount
  refine ⟨by rw [List.count_cons_self]; omega, fun q hq => ?_⟩
  cases p' with
  | nil => simpa using hq.symm
  | cons e p' =>
    rw [List.concat_eq_append, List.cons_append] at hq
    obtain ⟨rfl, -⟩ := List.cons.inj hq
    rw [List.count_cons_self] at hcount
    omega

/-- A round of a loop that cuts the place in two does so right behind the attribute. -/
theorem Danger.cut (h : Danger n w) (hL : L ∈ textLoops) {p₁ p₂ : List Char} (h₁ : p₁ ≠ [])
    (h₂ : p₂ ≠ []) (hp : '@' :: n ++ w = p₁ ++ p₂) (hpoint : L.Point (x ++ p₁) (p₂ ++ y))
    (hright : L = leftLoop → rightLoop.Free (x ++ ('@' :: n ++ w) ++ y)) : p₁ = '@' :: n := by
  rcases List.append_eq_append_iff.mp hp with ⟨z, rfl, rfl⟩ | ⟨z, hn, rfl⟩
  · -- Inside of the stop: a word there would be the key of a loop that is done.
    by_cases hz : z = []
    · simp [hz]
    exfalso
    have hword : Word (z ++ p₂) := by
      rcases h.stop with hone | hword
      · rcases List.append_eq_singleton_iff.mp hone with ⟨hnil, -⟩ | ⟨-, hnil⟩
        · exact absurd hnil hz
        · exact absurd hnil h₂
      · exact hword
    obtain ⟨hcut, hback⟩ := word_cut hword hz h₂
    obtain ⟨-, hcases⟩ := point_behind_at (m := n ++ z) hL hpoint
    rcases hcases with hmem | hcount | ⟨rfl, w', b, hw', hb⟩ | ⟨b, hb⟩
    · have hno : '[' ∉ '@' :: n ++ (z ++ p₂) := h.not_mem (by decide) (by decide) (by decide)
      rcases List.mem_append.mp hmem with hmem | hmem
      · exact hno (by simp [hmem])
      · exact hno (by simp [hmem])
    · have hblank : ' ' ∉ n := not_mem_attr (by decide) h.attr
      rw [List.count_append, List.count_eq_zero.mpr hblank] at hcount
      omega
    · obtain ⟨name, hname, rfl⟩ := word_name hw'
      obtain ⟨e, q, rfl⟩ := List.exists_cons_of_ne_nil h₂
      obtain ⟨rfl, hrest⟩ := List.cons.inj hb
      obtain rfl := hback q rfl
      change y = name ++ [' '] ++ b at hrest
      subst hrest
      exact hright rfl (x ++ '@' :: n ++ (z ++ [' ']) ++ name) ([' '] ++ b) (by simp)
        ⟨_, _, name, [' '], b, hword, hname, ⟨' ', by decide, rfl⟩, rfl, rfl⟩
    · obtain ⟨e, q, rfl⟩ := List.exists_cons_of_ne_nil h₂
      obtain ⟨rfl, -⟩ := List.cons.inj hb
      rcases word_special hword (e := ']') (by simp) (by decide) (by decide) |>.symm ▸ hword with
        hno | hno
      · simp at hno
      · simp at hno
  · -- Inside of the attribute: it has no key of the first two loops, and no stop of the others.
    cases z with
    | nil => simpa using hn.symm
    | cons e z =>
      exfalso
      obtain ⟨c, m, rfl⟩ := List.exists_cons_of_ne_nil h₁
      obtain ⟨rfl, rfl⟩ := List.cons.inj hn
      obtain ⟨-, hcases⟩ := point_behind_at hL hpoint
      rcases hcases with hmem | hcount | ⟨-, w', b, hw', hb⟩ | ⟨b, hb⟩
      · exact absurd (h.attr '[' (by simp [hmem])) (by decide)
      · have hblank : ' ' ∉ m := fun hmem => absurd (h.attr ' ' (by simp [hmem])) (by decide)
        rw [List.count_eq_zero.mpr hblank] at hcount
        omega
      · obtain ⟨name, -, rfl⟩ := word_name hw'
        obtain rfl := (List.cons.inj hb).1
        exact absurd (h.attr ' ' (by simp)) (by decide)
      · obtain rfl := (List.cons.inj hb).1
        exact absurd (h.attr ']' (by simp)) (by decide)

/-- A round keeps the place, or inserts right behind the attribute. -/
theorem Danger.round (h : Danger n w) {r : Pattern × Rewrite} (hr : r ∈ loops)
    (hround : replace r.1 r.2 s = some s') (hs : '@' :: n ++ w <:+: s)
    (hright : r = leftText → rightLoop.Free s) :
    '@' :: n ++ w <:+: s' ∨ ∃ u v, s = u ++ v ∧ s' = u ++ textStep ++ v ∧ EndsAttribute u := by
  obtain ⟨x, y, rfl⟩ := hs
  rcases mem_loops.mp hr with rfl | ⟨L, hL, rfl⟩
  · left
    obtain ⟨u, ds, v, -, hds, heq, rfl⟩ := idStep_round hround
    have hslash : '/' ∉ '@' :: n ++ w := h.not_mem (by decide) (by decide) (by decide)
    have hat : '@' ∉ '/' :: ds := by
      simpa using fun hmem => absurd (hds '@' hmem) (by decide)
    rw [List.append_assoc u] at heq
    rcases infix_cut heq with ⟨z, rfl, -⟩ | ⟨z, rfl, hz⟩ | ⟨p₁, p₂, -, h₂, hp, -, hv⟩
    · exact ⟨x, z ++ idText ds ++ v, by simp⟩
    · rcases infix_cut (u := '/' :: ds) hz.symm with ⟨z', hds', -⟩ | ⟨z', -, rfl⟩ |
        ⟨p₁, p₂, h₁, -, hp, hds', -⟩
      · exact absurd (by simp [hds']) hat
      · exact ⟨u ++ idText ds ++ z', y, by simp⟩
      · obtain ⟨c, q, rfl⟩ := List.exists_cons_of_ne_nil h₁
        obtain ⟨rfl, -⟩ := List.cons.inj hp
        exact absurd (by simp [hds']) hat
    · obtain ⟨c, q, rfl⟩ := List.exists_cons_of_ne_nil h₂
      obtain ⟨rfl, -⟩ := List.cons.inj hv
      exact absurd (by simp [hp]) hslash
  · obtain ⟨u, v, hpoint, heq, rfl⟩ := textLoop_round hround
    rcases infix_cut heq with ⟨z, rfl, -⟩ | ⟨z, -, rfl⟩ | ⟨p₁, p₂, h₁, h₂, hp, rfl, rfl⟩
    · exact .inl ⟨x, z ++ textStep ++ v, by simp⟩
    · exact .inl ⟨u ++ textStep ++ z, y, by simp⟩
    · right
      have hend := h.cut hL h₁ h₂ hp hpoint fun hleft => hright (by rw [hleft]; rfl)
      exact ⟨x ++ p₁, p₂ ++ y, heq, rfl, x, n, h.name_ne_nil, h.attr, by rw [hend]⟩

/-- So does a whole loop, in a part that is spared. -/
theorem Danger.loop (h : Danger n w) (hspares : Spares part) {before after : List (Pattern × Rewrite)}
    {r : Pattern × Rewrite} (hloops : loops = before ++ r :: after)
    (hbefore : runLoops before part = .ok s) (hloop : Loop r s s') (hs : '@' :: n ++ w <:+: s)
    (hright : r = leftText → rightLoop.Free s) : '@' :: n ++ w <:+: s' := by
  obtain ⟨hrounds, -⟩ := hloop
  have hr : r ∈ loops := by simp [hloops]
  suffices hkeep : '@' :: n ++ w <:+: s' ∧ (r = leftText → rightLoop.Free s') from hkeep.1
  induction hrounds with
  | refl => exact ⟨hs, hright⟩
  | @tail t t' hrun hround ih =>
    obtain ⟨ht, hfree⟩ := ih
    refine ⟨?_, fun hleft => ?_⟩
    · rcases h.round hr hround ht hfree with ht' | ⟨u, v, heq, heq', hend⟩
      · exact ht'
      · exact absurd hend
          (hspares t t' ⟨before, r, after, s, hloops, hbefore, hrun, hround⟩ u v heq heq')
    · obtain ⟨u, v, hpoint, rfl, rfl⟩ := textLoop_round (L := leftLoop) (hleft ▸ hround)
      exact (hfree hleft).insert hpoint.boundary

theorem runLoops_concat {rs : List (Pattern × Rewrite)} {r : Pattern × Rewrite}
    (h : runLoops rs s = .ok s') : runLoops (rs ++ [r]) s = replaceAll r s' := by
  induction rs generalizing s with
  | nil =>
    obtain rfl := Except.ok.inj h
    rw [List.nil_append, runLoops_cons]
    cases replaceAll r s <;> rfl
  | cons q rs ih =>
    rw [runLoops_cons, bind_eq_ok] at h
    obtain ⟨t, ht, h⟩ := h
    rw [List.cons_append, runLoops_cons, ht]
    exact ih h

/-- A part with an attribute in danger is not spared: in the end the loops leave no such place. -/
theorem not_spares_of_exposed (h : Exposed part) : ¬ Spares part := by
  intro hspares
  obtain ⟨x, n, w, y, hdanger, heq⟩ := h
  have h₀ : '@' :: n ++ w <:+: part := ⟨x, y, heq.symm⟩
  obtain ⟨s₁, hs₁⟩ := replaceAll_ends (r := idStep) (by simp [loops]) part
  obtain ⟨s₂, hs₂⟩ := replaceAll_ends (r := openText) (by simp [loops]) s₁
  obtain ⟨s₃, hs₃⟩ := replaceAll_ends (r := rightText) (by simp [loops]) s₂
  obtain ⟨s₄, hs₄⟩ := replaceAll_ends (r := leftText) (by simp [loops]) s₃
  obtain ⟨s₅, hs₅⟩ := replaceAll_ends (r := closeText) (by simp [loops]) s₄
  have hb₁ : runLoops [idStep] part = .ok s₁ := (runLoops_concat (runLoops_nil)).trans hs₁
  have hb₂ : runLoops [idStep, openText] part = .ok s₂ := (runLoops_concat hb₁).trans hs₂
  have hb₃ : runLoops [idStep, openText, rightText] part = .ok s₃ := (runLoops_concat hb₂).trans hs₃
  have hb₄ : runLoops [idStep, openText, rightText, leftText] part = .ok s₄ :=
    (runLoops_concat hb₃).trans hs₄
  have hb₅ : runLoops loops part = .ok s₅ := (runLoops_concat hb₄).trans hs₅
  have hright : rightLoop.Free s₃ := free_iff.mp (loop_of_replaceAll hs₃).2
  have h₁ := hdanger.loop hspares rfl runLoops_nil (loop_of_replaceAll hs₁) h₀
    (fun h => by simp [idStep, leftText] at h)
  have h₂ := hdanger.loop hspares rfl hb₁ (loop_of_replaceAll hs₂) h₁
    (fun h => by simp [openText, leftText] at h)
  have h₃ := hdanger.loop hspares rfl hb₂ (loop_of_replaceAll hs₃) h₂
    (fun h => by simp [rightText, leftText] at h)
  have h₄ := hdanger.loop hspares rfl hb₃ (loop_of_replaceAll hs₄) h₃ fun _ => hright
  obtain ⟨x, y, rfl⟩ := hdanger.loop hspares rfl hb₄ (loop_of_replaceAll hs₅) h₄
    (fun h => by simp [closeText, leftText] at h)
  obtain ⟨L, hL, hpoint⟩ := hdanger.point x y
  exact (runLoops_normal hb₅).text L hL (x ++ '@' :: n) (w ++ y) (by simp) hpoint

/-- A part without one is spared. -/
theorem spares_of_not_exposed (h : ¬ Exposed part) : Spares part := by
  rintro s s' ⟨before, r, after, t, hloops, hbefore, hrun, hround⟩ u v hs hs' hend
  have hr : r ∈ loops := by simp [hloops]
  have hpart : Exposed t → Exposed part :=
    runLoops_keeps (P := fun t => Exposed t → Exposed part) hbefore
      (fun q hq t t' hround hback ht' => hback (exposed_back (by simp [hloops, hq]) hround ht'))
      fun hpart => hpart
  have ht : Exposed s → Exposed t := by
    clear hround hs
    induction hrun with
    | refl => exact fun hs => hs
    | tail _ hstep ih => exact fun hs => ih (exposed_back hr hstep hs)
  exact h (hpart (ht (exposed_of_round hr hround hs hs' hend)))

/-! ### The whole query -/

/-- No round of the rewriting inserts `/text()` right behind an attribute step. -/
def SparesAttributes (query : String) : Prop :=
  ∀ part ∈ reached (split ['\''] query), Spares part.toList

/-- CORRECT: The rewriting leaves the attributes alone exactly if no part that it comes to has an
    attribute with a name behind its first characters, up to a bracket or a word. -/
theorem sparesAttributes_iff (query : String) :
    SparesAttributes query ↔ ∀ part ∈ reached (split ['\''] query), ¬ Exposed part.toList := by
  refine forall₂_congr fun part _ => ⟨fun h hexposed => ?_, fun h => ?_⟩
  · exact not_spares_of_exposed hexposed h
  · exact spares_of_not_exposed h

/-- An attribute of three letters, as the whole predicate. -/
theorem not_sparesAttributes :
    rewrite "a[@abc]" = .ok "a[@abc/text()]" ∧ ¬ SparesAttributes "a[@abc]" := by
  refine ⟨by rfl, fun h => ?_⟩
  have hpart : Spares "a[@abc]".toList := h "a[@abc]" (by decide +kernel)
  have hround : Round "a[@abc]".toList "a[@abc]".toList "a[@abc/text()]".toList :=
    ⟨[idStep, openText, rightText, leftText], closeText, [], "a[@abc]".toList, rfl, by rfl, .refl, by rfl⟩
  exact hpart _ _ hround "a[@abc".toList "]".toList rfl rfl ⟨"a[".toList, "abc".toList, by decide,
    by simp [attrChar], rfl⟩

end VaeDb.Attributes
