import VaeDb.Site.Rewriting

/-! Rewriting reaches a normal form.

    The loops end, and leave no match of the five patterns in the parts they work on. `[@id='7']`
    brings quotes along, but always two of them: in the joined text the segments outside of single
    quotes are pieces of the parts, and pieces of normal texts are normal. The last step may undo
    this. It puts `[@id!='']` in front of the first slash without a look at what stands there, and
    behind ` or name` the bracket ends a name.

        loops:       x or ab/c               nothing to do
        last step:   x or ab[@id!='']/c
        again:       x or ab/text()[@id!='']/c -/

namespace VaeDb.NormalForm
open Schemes Cpp Query Rewriting

/-- The segments of a query outside of single quotes. -/
def outside (query : String) : List String := evens (split ['\''] query)

/-- No segment outside of single quotes matches one of the five patterns. -/
def Settled (query : String) : Prop :=
  ∀ part ∈ outside query, ∀ r ∈ loops, replace r.1 r.2 part.toList = none

variable {L : TextLoop} {s s' p f g : List Char}

/-! ### Pieces of normal texts -/

theorem free_piece (h : L.Free s) (hp : p <:+: s) : L.Free p := by
  obtain ⟨x, y, rfl⟩ := hp
  rintro u v rfl ⟨a, k, n, w, b, hk, hn, hw, rfl, rfl⟩
  exact h (x ++ a ++ k ++ n) (w ++ (b ++ y)) (by simp)
    ⟨x ++ a, k, n, w, b ++ y, hk, hn, hw, rfl, rfl⟩

theorem normal_piece (h : Normal s) (hp : p <:+: s) : Normal p where
  id := List.IsChain.infix h.id hp
  text L hL := free_piece (h.text L hL) hp

theorem evens_map {α β : Type} (f : α → β) : ∀ l : List α, evens (l.map f) = (evens l).map f
  | [] => rfl
  | [_] => rfl
  | a :: _ :: l => by simp [evens, evens_map f l]

theorem evens_sublist {α : Type} : ∀ l : List α, (evens l).Sublist l
  | [] => .slnil
  | [a] => List.Sublist.refl [a]
  | a :: b :: l => ((evens_sublist l).cons b).cons_cons a

theorem settled_iff {query : String} :
    Settled query ↔ ∀ p ∈ evens (query.toList.splitOn '\''), Normal p := by
  rw [← map_toList_split, evens_map, List.forall_mem_map]
  exact forall₂_congr fun part _ => normal_iff.symm

/-! ### Quotes come in pairs -/

theorem round_quotes {r : Pattern × Rewrite} (hr : r ∈ loops) (h : replace r.1 r.2 s = some s') :
    s'.count '\'' % 2 = s.count '\'' % 2 := by
  rcases mem_loops.mp hr with rfl | ⟨L, -, rfl⟩
  · obtain ⟨u, ds, v, -, hds, rfl, rfl⟩ := idStep_round h
    simp [idText]
    omega
  · obtain ⟨u, v, -, rfl, rfl⟩ := textLoop_round h
    simp [textStep]

theorem runLoops_quotes (h : runLoops loops s = .ok s') : s'.count '\'' % 2 = s.count '\'' % 2 :=
  runLoops_keeps (P := fun t => t.count '\'' % 2 = s.count '\'' % 2) h
    (fun _ hr _ _ hround heq => (round_quotes hr hround).trans heq) rfl

/-- The segments of the joined parts outside of quotes are segments of the parts outside. -/
theorem rewritten_outside {ps ps' : List (List Char)} (h : Rewritten ps ps')
    (hquotes : ∀ q ∈ ps, '\'' ∉ q) :
    evens (ps'.flatMap (·.splitOn '\'')) = (evens ps').flatMap fun p => evens (p.splitOn '\'') := by
  induction h with
  | nil => rfl
  | one => simp [evens]
  | @more p p' q ps ps' hp _ ih =>
    have hodd : (p'.splitOn '\'').length % 2 ≠ 0 := by
      have hcount := runLoops_quotes hp
      rw [List.count_eq_zero.mpr (hquotes p (by simp))] at hcount
      rw [length_splitOn]
      omega
    rw [List.flatMap_cons, List.flatMap_cons, evens_append, if_neg hodd,
      List.splitOn_eq_singleton (hquotes q (by simp)), List.singleton_append, List.tail_cons,
      ih fun q hq => hquotes q (by simp [hq])]
    rfl

theorem rewritten_normal {ps ps' : List (List Char)} (h : Rewritten ps ps') :
    ∀ p ∈ evens ps', Normal p := by
  induction h with
  | nil => simp [evens]
  | one hp => simpa [evens] using runLoops_normal hp
  | more hp _ ih =>
    intro p hmem
    rcases List.mem_cons.mp hmem with rfl | hmem
    · exact runLoops_normal hp
    · exact ih p hmem

theorem rewritten_ne_nil {ps ps' : List (List Char)} (h : Rewritten ps ps') (hps : ps ≠ []) :
    ps' ≠ [] := by
  cases h with
  | nil => exact hps
  | one => simp
  | more => simp

/-- A segment of the joined parts is a piece of a part that the loops have settled. -/
theorem outside_piece {ps ps' : List (List Char)} (h : Rewritten ps ps') (hps : ps ≠ [])
    (hquotes : ∀ q ∈ ps, '\'' ∉ q) (hp : p ∈ evens ((['\''].intercalate ps').splitOn '\'')) :
    ∃ q ∈ evens ps', p <:+: q := by
  rw [splitOn_intercalate '\'' (rewritten_ne_nil h hps), rewritten_outside h hquotes,
    List.mem_flatMap] at hp
  obtain ⟨q, hq, hp⟩ := hp
  exact ⟨q, hq, splitOn_piece ((evens_sublist _).subset hp)⟩

/-! ### The last step -/

/-- What the last step puts behind the first step of a path. -/
def predicate : List Char := ['[', '@', 'i', 'd', '!', '=', '\'', '\'', ']']

theorem idPredicate_of_no_slash {query : String} (h : '/' ∉ query.toList) :
    idPredicate query = query := by
  have hslash : ¬ strstr query "/" := by
    rw [show "/" = String.singleton '/' from rfl, strstr_char (by decide)]
    exact fun hmem => h ((List.takeWhile_subset _) hmem)
  simp [idPredicate, hslash]

theorem takeWhile_of_mem (h : '\x00' ∈ f) :
    (f ++ g).takeWhile (· ≠ '\x00') <+: f := by
  obtain ⟨x, y, rfl, hx⟩ := List.eq_append_cons_of_mem h
  have hall : ∀ c ∈ x, decide (c ≠ '\x00') := by
    intro c hc
    rw [decide_eq_true_iff]
    rintro rfl
    exact hx hc
  rw [List.append_assoc, List.takeWhile_append_of_pos hall, List.cons_append,
    List.takeWhile_cons_of_neg (by simp), List.append_nil]
  exact List.prefix_append x _

theorem takeWhile_of_not_mem (h : '\x00' ∉ f) (g : List Char) :
    (f ++ g).takeWhile (· ≠ '\x00') = f ++ g.takeWhile (· ≠ '\x00') := by
  apply List.takeWhile_append_of_pos
  intro c hc
  rw [decide_eq_true_iff]
  rintro rfl
  exact h hc

/-- When the last step puts its predicate behind `f`: there is a slash before the first NUL, no
    bracket, and no dot in front of the slash. -/
def Applies (f g : List Char) : Prop :=
  '\x00' ∉ f ∧ '.' ∉ f ∧ '[' ∉ (f ++ '/' :: g).takeWhile (· ≠ '\x00')

theorem idPredicate_applies {query : String} (h : query.toList = f ++ '/' :: g) (hf : '/' ∉ f)
    (happlies : Applies f g) : (idPredicate query).toList = f ++ predicate ++ '/' :: g := by
  obtain ⟨hnul, hdot, hbracket⟩ := happlies
  have hslash : strstr query "/" = true := by
    rw [show "/" = String.singleton '/' from rfl, strstr_char (by decide), h,
      takeWhile_of_not_mem hnul]
    simp
  have hbracket' : strstr query "[" = false := by
    rw [Bool.eq_false_iff, ne_eq, show "[" = String.singleton '[' from rfl, strstr_char (by decide), h]
    exact hbracket
  have hsplit : split ['/'] query = String.ofList f :: split ['/'] (String.ofList g) := by
    rw [split_eq, split_eq, h, List.splitOn_append_cons_self_of_not_mem hf, String.toList_ofList,
      List.map_cons]
  have hdot' : strstr (String.ofList f) "." = false := by
    rw [Bool.eq_false_iff, ne_eq, show "." = String.singleton '.' from rfl, strstr_char (by decide),
      String.toList_ofList]
    exact fun hmem => hdot ((List.takeWhile_subset _) hmem)
  rw [idPredicate, hslash, hbracket', hsplit]
  simp only [hdot', Bool.not_false, Bool.and_self, if_true, Bool.false_eq_true, if_false]
  rw [toList_join, show "/".toList = ['/'] from rfl, List.map_cons, map_toList_split,
    List.intercalate_cons_of_ne_nil (by simp), List.intercalate_splitOn]
  simp [predicate]

theorem idPredicate_otherwise {query : String} (h : query.toList = f ++ '/' :: g) (hf : '/' ∉ f)
    (happlies : ¬ Applies f g) : idPredicate query = query := by
  rw [idPredicate]
  split
  · next htest =>
    obtain ⟨hslash, hbracket⟩ := (Bool.and_eq_true _ _).mp htest
    have hnul : '\x00' ∉ f := by
      intro hnul
      rw [show "/" = String.singleton '/' from rfl, strstr_char (by decide), h] at hslash
      exact hf ((takeWhile_of_mem hnul).subset hslash)
    have hbracket' : '[' ∉ (f ++ '/' :: g).takeWhile (· ≠ '\x00') := by
      rw [Bool.not_eq_true', Bool.eq_false_iff, ne_eq, show "[" = String.singleton '[' from rfl,
        strstr_char (by decide), h] at hbracket
      exact hbracket
    have hdot : '.' ∈ f := by
      by_contra hdot
      exact happlies ⟨hnul, hdot, hbracket'⟩
    have hdot' : strstr (String.ofList f) "." = true := by
      rw [show "." = String.singleton '.' from rfl, strstr_char (by decide), String.toList_ofList,
        ← List.append_nil f, takeWhile_of_not_mem hnul]
      simpa using hdot
    rw [split_eq, h, List.splitOn_append_cons_self_of_not_mem hf, List.map_cons]
    simp only [hdot', if_true]
  · rfl

/-! ### Where the predicate goes -/

/-- A text that ends with ` or ` or ` and ` and a name. -/
def EndsWord (f : List Char) : Prop := ∃ x k n, Word k ∧ Name n ∧ f = x ++ k ++ n

/-- The last segment of a text goes on with what follows the text. -/
theorem last_piece (f : List Char) : ∃ F a, '\'' ∉ a ∧ (∀ t, '\'' ∉ t → (t <:+ f ↔ t <:+ a)) ∧
    F.length = f.count '\'' ∧ ∀ y, (f ++ y).splitOn '\'' = F ++ (a ++ y).splitOn '\'' := by
  induction f using pieces_induction '\'' with
  | one a ha => exact ⟨[], a, ha, fun t _ => Iff.rfl, (List.count_eq_zero.mpr ha).symm, fun y => rfl⟩
  | more b f hb ih =>
    obtain ⟨F, a, ha, hsuffix, hlen, hsplit⟩ := ih
    have hrest : f <:+ b ++ '\'' :: f := (List.suffix_cons _ _).trans (List.suffix_append _ _)
    refine ⟨b :: F, a, ha, fun t ht => ?_, ?_, fun y => ?_⟩
    · rw [← hsuffix t ht]
      refine ⟨fun hsuf => ?_, fun hsuf => hsuf.trans hrest⟩
      rcases List.suffix_or_suffix_of_suffix hsuf (List.suffix_append b ('\'' :: f)) with hsuf | hsuf
      · rcases List.suffix_cons_iff.mp hsuf with rfl | hsuf
        · simp at ht
        · exact hsuf
      · exact absurd (hsuf.subset List.mem_cons_self) ht
    · rw [List.length_cons, hlen, List.count_append, List.count_eq_zero.mpr hb, List.count_cons_self,
        Nat.zero_add]
    · rw [List.append_assoc, List.cons_append, List.splitOn_append_cons_self_of_not_mem hb, hsplit,
        List.cons_append]

/-- A bracket is a stop only behind a bracket and a name, or behind a word and a name. -/
theorem key_of_bracket {k : List Char} (hL : L ∈ textLoops) (hk : L.key k) (hstop : L.stop ['[']) :
    k = ['['] ∨ Word k := by
  simp only [textLoops, List.mem_cons, List.not_mem_nil, or_false] at hL
  rcases hL with rfl | rfl | rfl | rfl
  · exact .inl hk
  · exact .inr hk
  · simp [leftLoop, Word] at hstop
  · simp [closeLoop] at hstop

/-- No key and name end in the predicate, behind its bracket. -/
theorem not_in_predicate {a x k n z rest : List Char} (hk : L.key k) (hn : Name n)
    (hz : x ++ k ++ n = a ++ z) (hrest : ['[', '@', 'i', 'd', '!', '='] = z ++ rest) : z = [] := by
  have hlen : 0 < k.length := List.length_pos_of_ne_nil (L.key_ne_nil hk)
  have hname := hn.two_le
  rcases z with _ | ⟨c, _ | ⟨d, m⟩⟩
  · rfl
  · obtain rfl := (List.cons.inj hrest).1
    rcases key_after (by decide) (by decide) hk hn hz with ⟨-, rfl⟩ | ⟨x', hx'⟩
    · simp at hname
    · have := congrArg List.length hx'
      simp at this
      omega
  · obtain ⟨rfl, hrest₁⟩ := List.cons.inj hrest
    obtain ⟨rfl, hrest₂⟩ := List.cons.inj hrest₁
    have hz' : x ++ k ++ n = a ++ ['['] ++ '@' :: m := by simp [hz]
    rcases key_after (by decide) (by decide) hk hn hz' with ⟨rfl, -⟩ | ⟨x', hx'⟩
    · exact absurd hk L.key_attribute
    · -- What follows the attribute sign is too short for a key and a name.
      have hshort := congrArg List.length hx'
      simp only [List.length_append] at hshort
      rcases m with _ | ⟨c₁, _ | ⟨c₂, _ | ⟨c₃, m⟩⟩⟩
      · simp at hshort
        omega
      · simp at hshort
        omega
      · simp at hshort
        omega
      · obtain ⟨-, hrest₃⟩ := List.cons.inj hrest₂
        obtain ⟨-, hrest₄⟩ := List.cons.inj hrest₃
        obtain ⟨rfl, hrest₅⟩ := List.cons.inj hrest₄
        have hm := congrArg List.length hrest₅
        have hz'' : x ++ k ++ n = a ++ ['[', '@', c₁, c₂] ++ '!' :: m := by simp [hz]
        simp at hm
        rcases key_after (by decide) (by decide) hk hn hz'' with ⟨-, rfl⟩ | ⟨x'', rfl⟩
        · omega
        · simp at hm
          omega

/-- What stands in front of the predicate's quotes is normal, unless a word and a name end there. -/
theorem normal_front {a b : List Char} (h : Normal (a ++ '/' :: b)) (hslash : '/' ∉ a)
    (hbracket : '[' ∉ a) (hword : ¬ EndsWord a) :
    Normal (a ++ ['[', '@', 'i', 'd', '!', '=']) := by
  refine ⟨?_, fun L hL u v heq hpoint => ?_⟩
  · rw [IdFree, List.isChain_iff_forall_rel_of_append_cons_cons]
    rintro c d x y hxy rfl -
    have hmem : '/' ∈ a ++ ['[', '@', 'i', 'd', '!', '='] := by
      rw [hxy]
      simp
    simp [hslash] at hmem
  · obtain ⟨x, k, n, w, y, hk, hn, hw, rfl, rfl⟩ := hpoint
    -- A stop that reaches the bracket is the bracket, and the name ends the text before it.
    have hend : a = x ++ k ++ n → w ≠ ['['] := by
      rintro rfl rfl
      rcases key_of_bracket hL hk hw with rfl | hk
      · exact hbracket (by simp)
      · exact hword ⟨x, k, n, hk, hn, rfl⟩
    have hstop : '[' ∈ w → w = ['['] := fun hmem => L.stop_special hw hmem (by decide) (by decide)
    rcases List.append_eq_append_iff.mp heq with ⟨z, hz, hrest⟩ | ⟨z, rfl, hrest⟩
    · obtain rfl := not_in_predicate hk hn hz hrest
      obtain ⟨e, t, rfl, -⟩ := L.stop_head hw
      obtain rfl := (List.cons.inj hrest).1
      exact hend (by simpa using hz.symm) (hstop (by simp))
    · rcases List.append_eq_append_iff.mp hrest with ⟨t, rfl, -⟩ | ⟨t, rfl, ht⟩
      · exact h.text L hL (x ++ k ++ n) (w ++ t ++ '/' :: b) (by simp)
          ⟨x, k, n, w, t ++ '/' :: b, hk, hn, hw, rfl, by simp⟩
      · cases t with
        | nil =>
          exact h.text L hL (x ++ k ++ n) (z ++ '/' :: b) (by simp)
            ⟨x, k, n, z, '/' :: b, hk, hn, by simpa using hw, rfl, rfl⟩
        | cons c t =>
          obtain ⟨rfl, -⟩ := List.cons.inj ht
          have hone := hstop (by simp)
          have hlen := congrArg List.length hone
          simp only [List.length_append, List.length_cons, List.length_nil] at hlen
          obtain rfl : z = [] := List.eq_nil_of_length_eq_zero (by omega)
          exact hend (by simp) hone

theorem normal_back {a b : List Char} (h : Normal (a ++ '/' :: b)) : Normal (']' :: '/' :: b) := by
  have hrest : Normal ('/' :: b) := normal_piece h (List.suffix_append a _).isInfix
  refine ⟨List.isChain_cons_cons.mpr ⟨by simp, hrest.id⟩, fun L hL u v heq hpoint => ?_⟩
  obtain ⟨x, k, n, w, y, hk, hn, hw, rfl, rfl⟩ := hpoint
  have hne : x ++ k ++ n ≠ [] := by simp [hn.ne_nil]
  obtain ⟨c, m, hm⟩ := List.exists_cons_of_ne_nil hne
  rw [hm, List.cons_append] at heq
  obtain ⟨rfl, heq'⟩ := List.cons.inj heq
  rcases key_after (y := []) (by decide) (by decide) hk hn hm with ⟨-, rfl⟩ | ⟨x', rfl⟩
  · obtain ⟨d, run, rfl, hd, -⟩ := hn
    obtain rfl := (List.cons.inj heq').1
    exact absurd hd (by decide)
  · exact hrest.text L hL _ _ heq' ⟨x', k, n, w, y, hk, hn, hw, rfl, rfl⟩

theorem normal_nil : Normal [] := by
  refine ⟨List.isChain_nil, fun L _ u v heq hpoint => ?_⟩
  obtain ⟨⟨x, d, rfl, -⟩, -⟩ := hpoint.boundary
  simp at heq

/-- The front of the predicate, up to its quotes. -/
def front : List Char := ['[', '@', 'i', 'd', '!', '=']

/-- The predicate cuts the segment of the first slash in two, or adds an empty segment where the
    slash is inside of quotes. -/
theorem predicate_segments (f g : List Char) : ∃ E G a b, a <:+ f ∧ (EndsWord f ↔ EndsWord a) ∧
    (f.count '\'' % 2 = 0 → evens ((f ++ '/' :: g).splitOn '\'') = E ++ (a ++ '/' :: b) :: G ∧
      evens ((f ++ predicate ++ '/' :: g).splitOn '\'') =
        E ++ (a ++ front) :: (']' :: '/' :: b) :: G) ∧
    (f.count '\'' % 2 ≠ 0 → ∃ G, evens ((f ++ '/' :: g).splitOn '\'') = E ++ G ∧
      evens ((f ++ predicate ++ '/' :: g).splitOn '\'') = E ++ [] :: G) := by
  obtain ⟨F, a, ha, hsuffix, hlen, hf⟩ := last_piece f
  obtain ⟨b, G, hg⟩ := splitOn_first '\'' g
  have hsub : a <:+ f := (hsuffix a ha).mpr List.suffix_rfl
  have hword : EndsWord f ↔ EndsWord a := by
    constructor
    · rintro ⟨x, k, n, hk, hn, rfl⟩
      have hquote : '\'' ∉ k ++ n := by simp [word_quote hk, hn.quote]
      obtain ⟨y, rfl⟩ := (hsuffix _ hquote).mp ⟨x, by simp⟩
      exact ⟨y, k, n, hk, hn, by simp⟩
    · rintro ⟨x, k, n, hk, hn, rfl⟩
      obtain ⟨y, rfl⟩ := hsub
      exact ⟨y ++ x, k, n, hk, hn, by simp⟩
  have hold : (f ++ '/' :: g).splitOn '\'' = F ++ (a ++ '/' :: b) :: G := by
    have hmiddle := hg (a ++ ['/']) (by simp [ha])
    rw [hf, show a ++ '/' :: g = a ++ ['/'] ++ g by simp, hmiddle]
    simp
  have hnew : (f ++ predicate ++ '/' :: g).splitOn '\'' =
      F ++ (a ++ front) :: [] :: (']' :: '/' :: b) :: G := by
    have hback := hg [']', '/'] (by simp)
    rw [List.append_assoc, hf, show a ++ (predicate ++ '/' :: g) =
      (a ++ front) ++ '\'' :: ([] ++ '\'' :: ([']', '/'] ++ g)) by simp [predicate, front],
      List.splitOn_append_cons_self_of_not_mem (by simp [front, ha]),
      List.splitOn_append_cons_self_of_not_mem (by simp), hback]
    rfl
  rw [hold, hnew, evens_append, evens_append, ← hlen]
  refine ⟨evens F, evens G.tail, a, b, hsub, hword, fun hpar => ?_, fun hpar => ⟨evens G, ?_⟩⟩
  · rw [if_pos hpar, if_pos hpar, evens_cons, evens_cons, List.tail_cons, evens_cons]
    exact ⟨rfl, rfl⟩
  · rw [if_neg hpar, if_neg hpar, List.tail_cons, List.tail_cons, evens_cons]
    exact ⟨rfl, rfl⟩

/-- Only the segment in front of the predicate may change for the worse. -/
theorem predicate_settled (hslash : '/' ∉ f) (hbracket : '[' ∉ f)
    (h : ∀ p ∈ evens ((f ++ '/' :: g).splitOn '\''), Normal p) :
    (∀ p ∈ evens ((f ++ predicate ++ '/' :: g).splitOn '\''), Normal p) ↔
      ¬ (f.count '\'' % 2 = 0 ∧ EndsWord f) := by
  obtain ⟨E, G, a, b, hsub, hword, heven, hodd⟩ := predicate_segments f g
  by_cases hpar : f.count '\'' % 2 = 0
  · obtain ⟨hold, hnew⟩ := heven hpar
    rw [hold, List.forall_mem_append, List.forall_mem_cons] at h
    obtain ⟨hE, hmiddle, hG⟩ := h
    rw [hnew, List.forall_mem_append, List.forall_mem_cons, List.forall_mem_cons, hword]
    constructor
    · rintro ⟨-, hfront, -⟩ ⟨-, x, k, n, hk, hn, rfl⟩
      have hpoint : rightLoop.Point (x ++ k ++ n) front :=
        ⟨x, k, n, ['['], _, hk, hn, ⟨'[', by decide, rfl⟩, rfl, rfl⟩
      exact hfront.text rightLoop (by simp [textLoops]) _ _ rfl hpoint
    · intro hend
      have hbracket' : '[' ∉ a := fun hmem => hbracket (hsub.subset hmem)
      have hslash' : '/' ∉ a := fun hmem => hslash (hsub.subset hmem)
      exact ⟨hE, normal_front hmiddle hslash' hbracket' fun h => hend ⟨hpar, h⟩,
        normal_back hmiddle, hG⟩
  · obtain ⟨G, hold, hnew⟩ := hodd hpar
    rw [hold, List.forall_mem_append] at h
    rw [hnew, List.forall_mem_append, List.forall_mem_cons]
    exact iff_of_true ⟨h.1, normal_nil, h.2⟩ fun hcut => hpar hcut.1

/-- The predicate brings no two slashes together. -/
theorem predicate_slashes (hslash : '/' ∉ f)
    (h : ∀ p ∈ evens ((f ++ '/' :: g).splitOn '\''), ¬ ['/', '/'] <:+: p) :
    ∀ p ∈ evens ((f ++ predicate ++ '/' :: g).splitOn '\''), ¬ ['/', '/'] <:+: p := by
  obtain ⟨E, G, a, b, hsub, -, heven, hodd⟩ := predicate_segments f g
  by_cases hpar : f.count '\'' % 2 = 0
  · obtain ⟨hold, hnew⟩ := heven hpar
    rw [hold, List.forall_mem_append, List.forall_mem_cons] at h
    obtain ⟨hE, hmiddle, hG⟩ := h
    rw [hnew, List.forall_mem_append, List.forall_mem_cons, List.forall_mem_cons]
    refine ⟨hE, fun hpiece => ?_, fun hpiece => ?_, hG⟩
    · have hmem : '/' ∈ a ++ front := hpiece.subset (by simp)
      have hslash' : '/' ∉ a := fun hmem => hslash (hsub.subset hmem)
      simp [front, hslash'] at hmem
    · rcases List.infix_cons_iff.mp hpiece with hfront | hpiece
      · simp at hfront
      · exact hmiddle (hpiece.trans (List.suffix_append a _).isInfix)
  · obtain ⟨G, hold, hnew⟩ := hodd hpar
    rw [hold, List.forall_mem_append] at h
    rw [hnew, List.forall_mem_append, List.forall_mem_cons]
    exact ⟨h.1, by simp, h.2⟩

/-! ### A second time -/

theorem idPredicate_idem (query : String) : idPredicate (idPredicate query) = idPredicate query := by
  by_cases hslash : '/' ∈ query.toList
  · obtain ⟨f, g, hquery, hf⟩ := List.eq_append_cons_of_mem hslash
    by_cases happlies : Applies f g
    · have hnew := idPredicate_applies hquery hf happlies
      have hnul : '\x00' ∉ f ++ predicate := by simp [happlies.1, predicate]
      refine idPredicate_otherwise hnew (by simp [hf, predicate]) fun h => h.2.2 ?_
      rw [takeWhile_of_not_mem hnul]
      simp [predicate]
    · rw [idPredicate_otherwise hquery hf happlies, idPredicate_otherwise hquery hf happlies]
  · rw [idPredicate_of_no_slash hslash, idPredicate_of_no_slash hslash]

theorem rewritten_of_normal {ps ps' : List (List Char)} (h : Rewritten ps ps')
    (hnormal : ∀ p ∈ evens ps, Normal p) : ps' = ps := by
  induction h with
  | nil => rfl
  | @one p p' hp =>
    have hsame := runLoops_of_normal (hnormal p (by simp [evens]))
    rw [Except.ok.inj (hp.symm.trans hsame)]
  | @more p p' q ps ps' hp _ ih =>
    have hsame := runLoops_of_normal (hnormal p (by simp [evens]))
    rw [Except.ok.inj (hp.symm.trans hsame), ih fun p hmem => hnormal p (by simp [evens, hmem])]

/-- Settled text is not changed again. It may be refused: the check for double slashes ends at a
    NUL, which may now be in another segment. -/
theorem rewrite_settled {query : String} (h : Settled query) (hlast : idPredicate query = query) :
    rewrite query = .ok query ∨ rewrite query = .error doubleSlash ∧
      ∃ p ∈ evens (query.toList.splitOn '\''), strstr (String.ofList p) "//" := by
  have hnormal := settled_iff.mp h
  rw [← map_toList_split] at hnormal ⊢
  rcases rewriteParts_cases (split ['\''] query) with
    ⟨parts, hparts, hrewritten, -⟩ | ⟨herror, part, hpart, s, hs, hslash⟩
  · have hsame := rewritten_of_normal hrewritten hnormal
    obtain rfl := List.map_injective_iff.mpr (fun _ _ => String.toList_inj.mp) hsame
    refine .inl ?_
    have hjoin : join (split ['\''] query) "'" = query := join_split '\'' query
    rw [rewrite, hparts]
    exact congrArg Except.ok ((congrArg idPredicate hjoin).trans hlast)
  · rw [evens_map, List.forall_mem_map] at hnormal
    have hsame := runLoops_of_normal (hnormal part hpart)
    obtain rfl := Except.ok.inj (hs.symm.trans hsame)
    refine .inr ⟨by rw [rewrite, herror]; rfl, part.toList, ?_, hslash⟩
    rw [evens_map]
    exact List.mem_map_of_mem hpart

theorem strstr_slashes (p : List Char) :
    strstr (String.ofList p) "//" ↔ ['/', '/'] <:+: p.takeWhile (· ≠ '\x00') := by
  have hneedle : (cStr "//").toList = ['/', '/'] := by decide
  rw [strstr, hneedle, occursIn_iff, cStr, String.toList_ofList, String.toList_ofList]

theorem runLoops_nul (h : runLoops loops s = .ok s') (hs : '\x00' ∉ s) : '\x00' ∉ s' := by
  refine runLoops_keeps (P := fun t => '\x00' ∉ t) h (fun r hr t t' hround ht => ?_) hs
  rcases mem_loops.mp hr with rfl | ⟨L, -, rfl⟩
  · obtain ⟨u, ds, v, -, hds, rfl, rfl⟩ := idStep_round hround
    simpa [idText] using ht
  · obtain ⟨u, v, -, rfl, rfl⟩ := textLoop_round hround
    simpa [textStep] using ht

theorem rewritten_nul {ps ps' : List (List Char)} (h : Rewritten ps ps')
    (hnul : ∀ p ∈ ps, '\x00' ∉ p) : ∀ p ∈ evens ps', '\x00' ∉ p := by
  induction h with
  | nil => simp [evens]
  | @one p p' hp => simpa [evens] using runLoops_nul hp (hnul p (by simp))
  | @more p p' q ps ps' hp _ ih =>
    rw [evens, List.forall_mem_cons]
    exact ⟨runLoops_nul hp (hnul p (by simp)), ih fun q hq => hnul q (by simp [hq])⟩

/-! ### The whole query -/

/-- The last step puts its predicate behind ` or name` or ` and name`, outside of single quotes. -/
def Cuts (joined : String) : Prop :=
  ∃ f g, joined.toList = f ++ '/' :: g ∧ '/' ∉ f ∧ Applies f g ∧ f.count '\'' % 2 = 0 ∧ EndsWord f

/-- The joined parts have no match outside of quotes, and without a NUL no double slash. -/
theorem rewrite_cases (query : String) :
    (∃ parts, rewriteParts (split ['\''] query) = .ok parts ∧ Settled (join parts "'") ∧
      ('\x00' ∉ query.toList →
        ∀ p ∈ evens ((join parts "'").toList.splitOn '\''), ¬ ['/', '/'] <:+: p)) ∨
    rewriteParts (split ['\''] query) = .error doubleSlash := by
  rcases rewriteParts_cases (split ['\''] query) with ⟨parts, hparts, hrewritten, hslash⟩ | ⟨herror, -⟩
  · rw [map_toList_split] at hrewritten
    have hquotes : ∀ q ∈ query.toList.splitOn '\'', '\'' ∉ q := fun q => not_mem_of_splitOn
    have hne : query.toList.splitOn '\'' ≠ [] := List.splitOn_ne_nil _ _
    have hjoin : (join parts "'").toList = ['\''].intercalate (parts.map String.toList) :=
      toList_join parts "'"
    refine .inl ⟨parts, hparts, settled_iff.mpr fun p hp => ?_, fun hnul p hp hpiece => ?_⟩
    · rw [hjoin] at hp
      obtain ⟨q, hq, hpq⟩ := outside_piece hrewritten hne hquotes hp
      exact normal_piece (rewritten_normal hrewritten q hq) hpq
    · rw [hjoin] at hp
      obtain ⟨q, hq, hpq⟩ := outside_piece hrewritten hne hquotes hp
      have hfree := rewritten_nul hrewritten
        (fun p hp hmem => hnul ((splitOn_piece hp).subset hmem)) q hq
      rw [evens_map] at hq
      obtain ⟨part, hpart, rfl⟩ := List.mem_map.mp hq
      have hall := takeWhile_of_not_mem hfree []
      rw [List.append_nil, List.takeWhile_nil, List.append_nil] at hall
      refine hslash part hpart ?_
      rw [← String.ofList_toList (s := part), strstr_slashes, hall]
      exact hpiece.trans hpq
  · exact .inr herror

theorem first_slash {f' g' : List Char} (h : f ++ '/' :: g = f' ++ '/' :: g') (hf : '/' ∉ f)
    (hf' : '/' ∉ f') : f = f' ∧ g = g' := by
  rcases List.append_eq_append_iff.mp h with ⟨z, rfl, hz⟩ | ⟨z, rfl, hz⟩
  · cases z with
    | nil => exact ⟨by simp, (List.cons.inj hz).2⟩
    | cons c z =>
      obtain ⟨rfl, -⟩ := List.cons.inj hz
      simp at hf'
  · cases z with
    | nil => exact ⟨by simp, (List.cons.inj hz).2.symm⟩
    | cons c z =>
      obtain ⟨rfl, -⟩ := List.cons.inj hz
      simp at hf

theorem last_settled {joined : String} (h : Settled joined) :
    Settled (idPredicate joined) ↔ ¬ Cuts joined := by
  by_cases hslash : '/' ∈ joined.toList
  · obtain ⟨f, g, hjoined, hf⟩ := List.eq_append_cons_of_mem hslash
    by_cases happlies : Applies f g
    · have hbracket : '[' ∉ f := by
        intro hmem
        have := happlies.2.2
        rw [takeWhile_of_not_mem happlies.1] at this
        exact this (List.mem_append_left _ hmem)
      have hcuts : Cuts joined ↔ f.count '\'' % 2 = 0 ∧ EndsWord f := by
        constructor
        · rintro ⟨f', g', hjoined', hf', -, hcut⟩
          obtain ⟨rfl, rfl⟩ := first_slash (hjoined.symm.trans hjoined') hf hf'
          exact hcut
        · exact fun hcut => ⟨f, g, hjoined, hf, happlies, hcut⟩
      rw [settled_iff, hjoined] at h
      rw [settled_iff, idPredicate_applies hjoined hf happlies, predicate_settled hf hbracket h, hcuts]
    · rw [idPredicate_otherwise hjoined hf happlies]
      refine iff_of_true h ?_
      rintro ⟨f', g', hjoined', hf', happlies', -⟩
      obtain ⟨rfl, rfl⟩ := first_slash (hjoined.symm.trans hjoined') hf hf'
      exact happlies happlies'
  · rw [idPredicate_of_no_slash hslash]
    refine iff_of_true h ?_
    rintro ⟨f, g, hjoined, -⟩
    exact hslash (by simp [hjoined])

theorem last_slashes {joined : String}
    (h : ∀ p ∈ evens (joined.toList.splitOn '\''), ¬ ['/', '/'] <:+: p) :
    ∀ p ∈ evens ((idPredicate joined).toList.splitOn '\''), ¬ strstr (String.ofList p) "//" := by
  have hpiece : ∀ p ∈ evens ((idPredicate joined).toList.splitOn '\''), ¬ ['/', '/'] <:+: p := by
    by_cases hslash : '/' ∈ joined.toList
    · obtain ⟨f, g, hjoined, hf⟩ := List.eq_append_cons_of_mem hslash
      by_cases happlies : Applies f g
      · rw [idPredicate_applies hjoined hf happlies]
        rw [hjoined] at h
        exact predicate_slashes hf h
      · rwa [idPredicate_otherwise hjoined hf happlies]
    · rwa [idPredicate_of_no_slash hslash]
  intro p hp hslash
  rw [strstr_slashes] at hslash
  exact hpiece p hp (hslash.trans (List.takeWhile_prefix _).isInfix)

/-- CORRECT: The loops end, and the query is rewritten or refused for a double slash. What they
    leave is settled; the last step keeps it so unless it cuts a word and a name; and a settled
    result is not changed again, though with a NUL in it it may be refused. -/
theorem rewrite_settles (query : String) :
    (∀ r ∈ loops, ∀ s, ∃ s', replaceWhile r.1 r.2 (s.length + 1) s = some s') ∧
    ((∃ q, rewrite query = .ok q) ∨ rewrite query = .error doubleSlash) ∧
    ∀ q, rewrite query = .ok q → ∃ parts, rewriteParts (split ['\''] query) = .ok parts ∧
      q = idPredicate (join parts "'") ∧ Settled (join parts "'") ∧
      (Settled q ↔ ¬ Cuts (join parts "'")) ∧
      (Settled q → rewrite q = .ok q ∨
        '\x00' ∈ query.toList ∧ rewrite q = .error doubleSlash) := by
  refine ⟨fun r hr s => ?_, ?_, fun q hq => ?_⟩
  · obtain ⟨s', hs'⟩ := replaceAll_ends hr s
    exact ⟨s', deref_eq_ok.mp hs'⟩
  · rcases rewrite_cases query with ⟨parts, hparts, -⟩ | herror
    · exact .inl ⟨idPredicate (join parts "'"), by rw [rewrite, hparts]; rfl⟩
    · exact .inr (by rw [rewrite, herror]; rfl)
  · rcases rewrite_cases query with ⟨parts, hparts, hsettled, hslashes⟩ | herror
    · have hlast : q = idPredicate (join parts "'") := by
        rw [rewrite, hparts] at hq
        exact (Except.ok.inj hq).symm
      refine ⟨parts, hparts, hlast, hsettled, ?_, fun hq => ?_⟩
      · rw [hlast]
        exact last_settled hsettled
      · rcases rewrite_settled hq (by rw [hlast, idPredicate_idem]) with hsame | ⟨herror, p, hp, hslash⟩
        · exact .inl hsame
        · refine .inr ⟨?_, herror⟩
          by_contra hnul
          rw [hlast] at hp
          exact last_slashes (hslashes hnul) p hp hslash
    · rw [rewrite, herror] at hq
      cases hq

/-- A path with an id and a predicate; the settled result stays as it is. -/
theorem rewrite_settles_sample : Settled "a[@id='7']/b[cd/text()='y']" ∧
    rewrite "a[@id='7']/b[cd/text()='y']" = .ok "a[@id='7']/b[cd/text()='y']" := by
  have hsettled : Settled "a[@id='7']/b[cd/text()='y']" := by
    unfold Settled
    decide +kernel
  obtain ⟨parts, -, -, -, -, hagain⟩ :=
    (rewrite_settles "a/7/b[cd='y']").2.2 "a[@id='7']/b[cd/text()='y']" (by rfl)
  refine ⟨hsettled, (hagain hsettled).resolve_right fun hnul => ?_⟩
  exact absurd hnul.1 (by decide)

/-- A result that is not settled: the last step has cut a word and a name, and a second rewriting
    changes it. -/
theorem not_rewrite_settles :
    rewrite "x or ab/c" = .ok "x or ab[@id!='']/c" ∧ ¬ Settled "x or ab[@id!='']/c" ∧
      rewrite "x or ab[@id!='']/c" = .ok "x or ab/text()[@id!='']/c" := by
  refine ⟨by rfl, ?_, by rfl⟩
  unfold Settled
  decide +kernel

end VaeDb.NormalForm
