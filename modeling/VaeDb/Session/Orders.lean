import VaeDb.Session.Request

/-! Order options: the texts for lists of fields, and how they are read.

    A term is a path, with `COUNT(...)` around it or not, and `DESC(...)` or `REVERSE(...)` around
    that or not; the terms stand in one text with commas between them. `REVERSE(` is turned into
    `DESC(` before the text is split, but only where it stands first:

        REVERSE(a),b,reverse(c) ──▶ DESC(a),b,reverse(c) ──▶ a desc, b asc, reverse(c) asc

    So a list is read as it is written if at most one of its terms is reversed. -/

namespace VaeDb
open Schemes Cpp

namespace Orders
open Request

/-! ### Terms -/

/-- `[.A-Za-z0-9_/]`. -/
def pathChar (c : Char) : Bool :=
  ('a' ≤ tolower c && tolower c ≤ 'z') || isdigit c || c ∈ ['.', '_', '/']

/-- A keyword in any letter case. -/
structure Spelling (keyword : String) where
  text : List Char
  same : text.map tolower = caseless keyword

inductive Wrap where
  | plain
  | desc (keyword : Spelling "DESC")
  | reverse (keyword : Spelling "REVERSE")

structure Term where
  path : String
  nonempty : path.toList ≠ []
  pathChars : ∀ c ∈ path.toList, pathChar c
  count : Option (Spelling "COUNT")
  wrap : Wrap

/-- `keyword(body)`. -/
def wrapped (keyword body : List Char) : List Char := keyword ++ '(' :: (body ++ [')'])

namespace Term

/-- The path with its `COUNT`. -/
def inner (t : Term) : List Char :=
  match t.count with
  | none => t.path.toList
  | some keyword => wrapped keyword.text t.path.toList

def chars (t : Term) : List Char :=
  match t.wrap with
  | .plain => t.inner
  | .desc keyword => wrapped keyword.text t.inner
  | .reverse keyword => wrapped keyword.text t.inner

def render (t : Term) : String := String.ofList t.chars

/-- The direction that the term spells. -/
def direction (t : Term) : SortOrder :=
  match t.wrap with
  | .plain => .asc
  | _ => .desc

/-- The field that the term spells. -/
def field (t : Term) : SortField := ⟨t.path, t.count.isSome, t.direction⟩

def reversed (t : Term) : Bool :=
  match t.wrap with
  | .reverse _ => true
  | _ => false

end Term

/-- The text for a list of terms. -/
def renderAll (terms : List Term) : String := join (terms.map Term.render) ","

/-- The order is read as the list of fields that it spells. -/
def ReadAs (o : Request) (terms : List Term) : Prop :=
  o.sortType = .specific ∧ o.sortFields = terms.map Term.field

variable {keyword other : String} {body x y w : List Char} {t : Term}

/-! ### Characters -/

theorem tolower_eq_open {c : Char} (h : tolower c = '(') : c = '(' := by
  rw [tolower] at h
  split at h
  · next hupper =>
    simp only [Bool.and_eq_true, decide_eq_true_eq] at hupper
    have hlow : 65 ≤ c.toNat := hupper.1
    have hhigh : c.toNat ≤ 90 := hupper.2
    have hvalid : (c.toNat + 32).isValidChar := .inl (by omega)
    rw [Char.ofNat, dif_pos hvalid] at h
    have hnat : c.toNat + 32 = 40 := congrArg Char.toNat h
    omega
  · exact h

theorem orderChar_of_pathChar {c : Char} (h : pathChar c) : orderChar c := by
  rw [pathChar, Bool.or_eq_true, decide_eq_true_eq] at h
  rw [orderChar, Bool.or_eq_true, decide_eq_true_eq]
  refine h.imp_right fun hmem => ?_
  simp only [List.mem_cons, List.not_mem_nil, or_false] at hmem ⊢
  rcases hmem with rfl | rfl | rfl <;> simp

/-- A keyword of letters. -/
def Letters (keyword : String) : Prop := ((caseless keyword).all fun c => 'a' ≤ c && c ≤ 'z') = true

theorem letters_count : Letters "COUNT" := rfl

theorem letters_desc : Letters "DESC" := rfl

theorem letters_rand : Letters "RAND" := rfl

theorem letters_reverse : Letters "REVERSE" := rfl

namespace Spelling

theorem length (k : Spelling keyword) : k.text.length = keyword.length := by
  have h := congrArg List.length k.same
  rwa [List.length_map, caseless, List.length_map, String.length_toList] at h

theorem orderChars (k : Spelling keyword) (h : Letters keyword) : ∀ c ∈ k.text, orderChar c := by
  intro c hc
  have hmem : tolower c ∈ caseless keyword := k.same ▸ List.mem_map_of_mem hc
  have hletter := List.all_eq_true.mp h _ hmem
  rw [orderChar, hletter]
  rfl

theorem not_open (k : Spelling keyword) (h : Letters keyword) : '(' ∉ k.text := by
  intro hc
  have hmem : tolower '(' ∈ caseless keyword := k.same ▸ List.mem_map_of_mem hc
  exact nomatch List.all_eq_true.mp h _ hmem

end Spelling

theorem orderChars_wrapped (hx : ∀ c ∈ x, orderChar c) (hbody : ∀ c ∈ body, orderChar c) :
    ∀ c ∈ wrapped x body, orderChar c := by
  intro c hc
  rcases List.mem_append.mp hc with hc | hc
  · exact hx c hc
  rcases List.mem_cons.mp hc with rfl | hc
  · rfl
  rcases List.mem_append.mp hc with hc | hc
  · exact hbody c hc
  · exact List.mem_singleton.mp hc ▸ rfl

namespace Term

theorem not_open_path (t : Term) : '(' ∉ t.path.toList := fun h => nomatch t.pathChars '(' h

theorem orderChars_path (t : Term) : ∀ c ∈ t.path.toList, orderChar c :=
  fun c hc => orderChar_of_pathChar (t.pathChars c hc)

theorem orderChars_inner (t : Term) : ∀ c ∈ t.inner, orderChar c := by
  rw [inner]
  cases t.count with
  | none => exact t.orderChars_path
  | some k => exact orderChars_wrapped (k.orderChars letters_count) t.orderChars_path

theorem orderChars (t : Term) : ∀ c ∈ t.chars, orderChar c := by
  rw [chars]
  cases t.wrap with
  | plain => exact t.orderChars_inner
  | desc k => exact orderChars_wrapped (k.orderChars letters_desc) t.orderChars_inner
  | reverse k => exact orderChars_wrapped (k.orderChars letters_reverse) t.orderChars_inner

theorem inner_ne_nil (t : Term) : t.inner ≠ [] := by
  rw [inner]
  cases t.count with
  | none => exact t.nonempty
  | some k => simp [wrapped]

theorem chars_ne_nil (t : Term) : t.chars ≠ [] := by
  rw [chars]
  cases t.wrap with
  | plain => exact t.inner_ne_nil
  | desc k => simp [wrapped]
  | reverse k => simp [wrapped]

/-- A term with a parenthesis has its keyword, a path and two parentheses. -/
theorem length_chars (h : '(' ∈ t.chars) : 7 ≤ t.chars.length := by
  have hbody : ∀ {keyword : String} (k : Spelling keyword) {body : List Char}, 4 ≤ keyword.length →
      body ≠ [] → 7 ≤ (wrapped k.text body).length := by
    intro keyword k body hlong hne
    have hpos := List.length_pos_of_ne_nil hne
    rw [wrapped, List.length_append, k.length, List.length_cons, List.length_append,
      List.length_singleton]
    omega
  rw [chars] at h ⊢
  cases hwrap : t.wrap with
  | plain =>
    rw [hwrap, inner] at h
    rw [inner]
    cases hcount : t.count with
    | none =>
      rw [hcount] at h
      exact (t.not_open_path h).elim
    | some k => exact hbody k (by decide) t.nonempty
  | desc k => exact hbody k (by decide) t.inner_ne_nil
  | reverse k => exact hbody k (by decide) t.inner_ne_nil

theorem not_comma (t : Term) : ',' ∉ t.chars := fun h => nomatch t.orderChars ',' h

end Term

/-! ### Taking a keyword off -/

theorem unwrap_wrapped (k : Spelling keyword) (hne : body ≠ []) (hbody : ∀ c ∈ body, orderChar c) :
    unwrap keyword (String.ofList (wrapped k.text body)) = some (String.ofList body) := by
  have hdrop : (wrapped k.text body).drop (keyword.length + 1) = body ++ [')'] := by
    rw [← k.length, wrapped, ← List.drop_drop, List.drop_left]
    rfl
  have hfront : (caseless (keyword ++ "(")).isPrefixOf
      (caseless (String.ofList (wrapped k.text body))) = true := by
    rw [List.isPrefixOf_iff_prefix]
    refine ⟨(body ++ [')']).map tolower, ?_⟩
    simp [caseless, wrapped, k.same]
  have hlast : (wrapped k.text body).getLast? = some ')' := by
    rw [wrapped, ← List.cons_append, ← List.append_assoc, List.getLast?_concat]
  rw [unwrap]
  simp only [String.toList_ofList, hdrop, List.dropLast_concat, hfront, hlast, hne, ne_eq,
    not_false_eq_true, decide_true, Bool.and_self, List.all_eq_true.mpr hbody, if_true]

theorem unwrap_eq_none {s : String} (h : ¬ caseless (keyword ++ "(") <+: caseless s) :
    unwrap keyword s = none := by
  rw [unwrap]
  have hfront : (caseless (keyword ++ "(")).isPrefixOf (caseless s) = false := by
    rw [← Bool.not_eq_true, List.isPrefixOf_iff_prefix]
    exact h
  simp [hfront]

theorem unwrap_path (t : Term) (keyword : String) : unwrap keyword t.path = none := by
  refine unwrap_eq_none fun h => t.not_open_path ?_
  have hmem : '(' ∈ caseless t.path := h.subset (by simp [caseless, tolower])
  obtain ⟨c, hc, hlower⟩ := List.mem_map.mp hmem
  exact tolower_eq_open hlower ▸ hc

/-- Another keyword is not taken off. -/
theorem unwrap_other {c d : Char} {cs ds : List Char} (k : Spelling other)
    (hkeyword : caseless keyword = c :: cs) (hother : caseless other = d :: ds) (hne : c ≠ d)
    (body : List Char) : unwrap keyword (String.ofList (wrapped k.text body)) = none := by
  refine unwrap_eq_none fun h => ?_
  have hleft : caseless (keyword ++ "(") = c :: (cs ++ ['(']) := by
    rw [caseless, String.toList_append, List.map_append, ← caseless, hkeyword]
    rfl
  have hright : caseless (String.ofList (wrapped k.text body)) =
      d :: (ds ++ ('(' :: (body ++ [')'])).map tolower) := by
    rw [caseless, String.toList_ofList, wrapped, List.map_append, k.same, hother]
    rfl
  rw [hleft, hright, List.cons_prefix_cons] at h
  exact hne h.1

/-- How a term is read: what is left without `DESC`, and of that what is left without `COUNT`. -/
theorem sortField_cases (term : String) :
    (∃ field direction, ((unwrap "DESC" term = some field ∧ direction = SortOrder.desc) ∨
        (unwrap "DESC" term = none ∧ field = term ∧ direction = SortOrder.asc)) ∧
      ((∃ path, unwrap "COUNT" field = some path ∧ sortField term = ⟨path, true, direction⟩) ∨
        (unwrap "COUNT" field = none ∧ sortField term = ⟨field, false, direction⟩))) := by
  unfold sortField
  generalize unwrap "DESC" term = desc
  cases desc with
  | some field =>
    refine ⟨field, .desc, .inl ⟨rfl, rfl⟩, ?_⟩
    dsimp only
    generalize unwrap "COUNT" field = count
    cases count with
    | some path => exact .inl ⟨path, rfl, rfl⟩
    | none => exact .inr ⟨rfl, rfl⟩
  | none =>
    refine ⟨term, .asc, .inr ⟨rfl, rfl, rfl⟩, ?_⟩
    dsimp only
    generalize unwrap "COUNT" term = count
    cases count with
    | some path => exact .inl ⟨path, rfl, rfl⟩
    | none => exact .inr ⟨rfl, rfl⟩

namespace Term

theorem render_plain (h : t.wrap = .plain) : t.render = String.ofList t.inner := by
  rw [render, chars, h]

theorem unwrap_desc_inner (t : Term) : unwrap "DESC" (String.ofList t.inner) = none := by
  rw [inner]
  cases t.count with
  | none =>
    rw [String.ofList_toList]
    exact unwrap_path t "DESC"
  | some k => exact unwrap_other (c := 'd') (d := 'c') k rfl rfl (by decide) _

theorem unwrap_count_inner (t : Term) :
    (t.count.isSome ∧ unwrap "COUNT" (String.ofList t.inner) = some t.path) ∨
      (t.count.isSome = false ∧ unwrap "COUNT" (String.ofList t.inner) = none ∧
        String.ofList t.inner = t.path) := by
  rw [inner]
  cases t.count with
  | none =>
    rw [String.ofList_toList]
    exact .inr ⟨rfl, unwrap_path t "COUNT", rfl⟩
  | some k =>
    have hunwrap := unwrap_wrapped k t.nonempty t.orderChars_path
    rw [String.ofList_toList] at hunwrap
    exact .inl ⟨rfl, hunwrap⟩

/-- A term that is not reversed is read as the field that it spells. -/
theorem sortField_render (h : ¬ t.reversed) : sortField t.render = t.field := by
  have hdesc : (unwrap "DESC" t.render = none ∧ t.render = String.ofList t.inner ∧ t.direction = .asc) ∨
      (unwrap "DESC" t.render = some (String.ofList t.inner) ∧ t.direction = .desc) := by
    cases hwrap : t.wrap with
    | plain =>
      have hrender : t.render = String.ofList t.inner := render_plain hwrap
      refine .inl ⟨?_, hrender, by simp [direction, hwrap]⟩
      rw [hrender]
      exact t.unwrap_desc_inner
    | desc k =>
      have hrender : t.render = String.ofList (wrapped k.text t.inner) := by rw [render, chars, hwrap]
      refine .inr ⟨?_, by simp [direction, hwrap]⟩
      rw [hrender]
      exact unwrap_wrapped k t.inner_ne_nil t.orderChars_inner
    | reverse k => simp [reversed, hwrap] at h
  obtain ⟨field, direction, hread, hcount⟩ := sortField_cases t.render
  obtain ⟨rfl, rfl⟩ : field = String.ofList t.inner ∧ direction = t.direction := by
    rcases hdesc with ⟨hunwrap, hrender, hdirection⟩ | ⟨hunwrap, hdirection⟩ <;>
      rcases hread with ⟨hsome, hspelled⟩ | ⟨hnone, hfield, hspelled⟩
    · exact (Option.some_ne_none _ (hsome.symm.trans hunwrap)).elim
    · exact ⟨hfield.trans hrender, hspelled.trans hdirection.symm⟩
    · exact ⟨Option.some.inj (hsome.symm.trans hunwrap), hspelled.trans hdirection.symm⟩
    · exact (Option.some_ne_none _ (hunwrap.symm.trans hnone)).elim
  rcases hcount with ⟨path, hsome, hterm⟩ | ⟨hnone, hterm⟩ <;>
    rcases t.unwrap_count_inner with ⟨hisSome, hpath⟩ | ⟨hisSome, hother, hpath⟩
  · obtain rfl : path = t.path := Option.some.inj (hsome.symm.trans hpath)
    rw [hterm, Term.field, hisSome]
  · exact (Option.some_ne_none _ (hsome.symm.trans hother)).elim
  · exact (Option.some_ne_none _ (hpath.symm.trans hnone)).elim
  · rw [hterm, Term.field, hisSome, hpath]

/-- A term that is still reversed is read as an ascending field. -/
theorem sortField_reversed (h : t.reversed) : sortField t.render ≠ t.field := by
  cases hwrap : t.wrap with
  | plain => simp [reversed, hwrap] at h
  | desc k => simp [reversed, hwrap] at h
  | reverse k =>
    have hrender : t.render = String.ofList (wrapped k.text t.inner) := by rw [render, chars, hwrap]
    have hunwrap : unwrap "DESC" t.render = none := by
      rw [hrender]
      exact unwrap_other (c := 'd') (d := 'r') k rfl rfl (by decide) _
    obtain ⟨field, direction, hread, hcount⟩ := sortField_cases t.render
    have hasc : (sortField t.render).direction = .asc := by
      rcases hread with ⟨hsome, -⟩ | ⟨-, -, rfl⟩
      · exact (Option.some_ne_none _ (hsome.symm.trans hunwrap)).elim
      · rcases hcount with ⟨path, -, hterm⟩ | ⟨-, hterm⟩ <;> rw [hterm]
    intro heq
    have hdesc : t.field.direction = .desc := by simp [Term.field, Term.direction, hwrap]
    rw [heq, hdesc] at hasc
    cases hasc

end Term

/-- A list is read as it is written exactly if no term of it is reversed. -/
theorem map_sortField_iff (terms : List Term) :
    (terms.map Term.render).map sortField = terms.map Term.field ↔
      terms.countP Term.reversed = 0 := by
  rw [List.countP_eq_zero, List.map_map, List.map_inj_left]
  refine forall₂_congr fun t _ => ?_
  rw [Function.comp_apply]
  exact ⟨fun h hrev => Term.sortField_reversed hrev h, fun h => Term.sortField_render h⟩

/-! ### `REVERSE(` to `DESC(` -/

/-- The pattern of a text, ignoring case, takes the texts that differ from it in case only. -/
theorem accepts_caseless {cs w : List Char} :
    (∃ ms, List.Forall₂ Atom.Accepts
      (cs.map fun c => Atom.one fun d => tolower d == tolower c) ms ∧ ms.flatten = w) ↔
      w.map tolower = cs.map tolower := by
  induction cs generalizing w with
  | nil =>
    simp only [List.map_nil, List.forall₂_nil_left_iff, exists_eq_left, List.flatten_nil,
      List.map_eq_nil_iff]
    exact eq_comm
  | cons c cs ih =>
    simp only [List.map_cons, List.forall₂_cons_left_iff]
    constructor
    · rintro ⟨_, ⟨m, ms, ⟨d, hd, rfl⟩, hms, rfl⟩, rfl⟩
      rw [List.flatten_cons, List.singleton_append, List.map_cons, ih.mp ⟨ms, hms, rfl⟩,
        eq_of_beq hd]
    · intro h
      obtain ⟨d, v, rfl, hd, hv⟩ := List.map_eq_cons_iff.mp h
      obtain ⟨ms, hms, rfl⟩ := ih.mpr hv
      exact ⟨_, ⟨[d], ms, ⟨d, beq_of_eq hd, rfl⟩, hms, rfl⟩, rfl⟩

/-- Nothing changes if the keyword stands nowhere, or one place of it changes. -/
theorem replaceReverse_cases (order : String) :
    (replaceReverse order = order ∧
        ∀ k : Spelling "REVERSE", ∀ x y, order.toList ≠ x ++ (k.text ++ ['(']) ++ y) ∨
      ∃ k : Spelling "REVERSE", ∃ x y, order.toList = x ++ (k.text ++ ['(']) ++ y ∧
        (replaceReverse order).toList = x ++ "DESC(".toList ++ y := by
  have hsplit : ∀ w : List Char, w.map tolower = "REVERSE(".toList.map tolower ↔
      ∃ k : Spelling "REVERSE", w = k.text ++ ['('] := by
    intro w
    constructor
    · intro h
      have hcut : w.map tolower = caseless "REVERSE" ++ ['('] := h
      obtain ⟨v, u, rfl, hv, hu⟩ := List.map_eq_append_iff.mp hcut
      obtain ⟨c, u, rfl, hc, hu⟩ := List.map_eq_cons_iff.mp hu
      obtain rfl := List.map_eq_nil_iff.mp hu
      obtain rfl := tolower_eq_open hc
      exact ⟨⟨v, hv⟩, rfl⟩
    · rintro ⟨k, rfl⟩
      rw [List.map_append, k.same]
      rfl
  rw [replaceReverse]
  cases hreplace : Schemes.replace ("REVERSE(".toList.map fun c => Atom.one fun d => tolower d == tolower c)
      [.text "DESC("] order.toList with
  | none =>
    refine .inl ⟨rfl, fun k x y heq => ?_⟩
    obtain ⟨ms, hms, hflat⟩ := accepts_caseless.mpr ((hsplit _).mpr ⟨k, rfl⟩)
    exact replace_eq_none.mp hreplace x ms y hms (hflat ▸ heq)
  | some order' =>
    obtain ⟨x, ms, y, hms, hfrom, rfl⟩ := replace_eq_some hreplace
    obtain ⟨k, hk⟩ := (hsplit _).mp (accepts_caseless.mp ⟨ms, hms, rfl⟩)
    refine .inr ⟨k, x, y, hk ▸ hfrom, ?_⟩
    simp [Rewrite.apply]

/-- A parenthesis of a text, seen from the first one. -/
theorem open_cut {a b a' b' : List Char} (ha : '(' ∉ a) (h : a' ++ '(' :: b' = a ++ '(' :: b) :
    (a' = a ∧ b' = b) ∨ ∃ z, a' = a ++ '(' :: z ∧ b = z ++ '(' :: b' := by
  rcases List.append_eq_append_iff.mp h with ⟨z, rfl, hz⟩ | ⟨z, rfl, hz⟩
  · cases z with
    | nil => exact .inl ⟨(List.append_nil _).symm, (List.cons.inj hz).2⟩
    | cons c z =>
      obtain rfl := (List.cons.inj hz).1
      simp at ha
  · cases z with
    | nil => exact .inl ⟨List.append_nil _, (List.cons.inj hz).2.symm⟩
    | cons c z =>
      obtain ⟨rfl, hb⟩ := List.cons.inj hz
      exact .inr ⟨z, rfl, hb⟩

namespace Term

/-- `REVERSE(` does not stand in a path with its `COUNT`. -/
theorem inner_ne_reverse (t : Term) {v : List Char} (hv : '(' ∉ v) (k : Spelling "REVERSE") :
    x ++ k.text ++ '(' :: y ≠ t.inner ++ v := by
  intro h
  rw [inner] at h
  cases hcount : t.count with
  | none =>
    rw [hcount] at h
    have hmem : '(' ∈ t.path.toList ++ v := h ▸ by simp
    exact (List.mem_append.mp hmem).elim t.not_open_path hv
  | some count =>
    rw [hcount] at h
    have hbehind : '(' ∉ t.path.toList ++ [')'] ++ v := by simp [hv, t.not_open_path]
    have heq : x ++ k.text ++ '(' :: y = count.text ++ '(' :: (t.path.toList ++ [')'] ++ v) := by
      simpa [wrapped] using h
    rcases open_cut (count.not_open letters_count) heq with ⟨hkeyword, -⟩ | ⟨z, -, hbody⟩
    · have hlength := congrArg List.length hkeyword
      rw [List.length_append, k.length, count.length] at hlength
      have : "REVERSE".length = 7 ∧ "COUNT".length = 5 := ⟨rfl, rfl⟩
      omega
    · exact hbehind (hbody ▸ by simp)

/-- Nor behind the parenthesis of a wrapped one. -/
theorem wrapped_reverse (t : Term) (k : Spelling "REVERSE") (word : Spelling keyword)
    (hletters : Letters keyword) (h : x ++ k.text ++ '(' :: y = wrapped word.text t.inner) :
    x ++ k.text = word.text ∧ y = t.inner ++ [')'] := by
  rcases open_cut (word.not_open hletters) h with hcut | ⟨z, hfront, hbody⟩
  · exact hcut
  · rcases List.append_eq_append_iff.mp hfront with ⟨u, hword, hu⟩ | ⟨u, -, hu⟩
    · exact (k.not_open letters_reverse (hu ▸ by simp)).elim
    · cases u with
      | nil =>
        have hopen : '(' ∈ [] ++ k.text := hu ▸ List.mem_cons_self
        exact (k.not_open letters_reverse hopen).elim
      | cons c u =>
        obtain rfl : z = u ++ k.text := (List.cons.inj hu).2
        exact (t.inner_ne_reverse (by simp) k hbody.symm).elim

/-- The term with `DESC` in place of `REVERSE`. -/
def asDesc (t : Term) : Term := { t with wrap := .desc ⟨"DESC".toList, rfl⟩ }

theorem asDesc_field (h : t.reversed) : t.asDesc.field = t.field := by
  have hdirection : t.direction = .desc := by
    cases hwrap : t.wrap with
    | plain => simp [reversed, hwrap] at h
    | desc k => simp [direction, hwrap]
    | reverse k => simp [direction, hwrap]
  rw [field, field, hdirection]
  rfl

theorem exists_reverse (h : t.reversed) :
    ∃ (k : Spelling "REVERSE") (v : List Char), t.chars = k.text ++ ['('] ++ v := by
  cases hwrap : t.wrap with
  | plain => simp [reversed, hwrap] at h
  | desc k => simp [reversed, hwrap] at h
  | reverse k =>
    refine ⟨k, t.inner ++ [')'], ?_⟩
    rw [chars, hwrap]
    simp [wrapped]

/-- `REVERSE(` stands in a term only in front, and there `DESC(` takes its place. -/
theorem chars_reverse (k : Spelling "REVERSE") (h : t.chars = x ++ (k.text ++ ['(']) ++ y) :
    t.reversed ∧ x ++ "DESC(".toList ++ y = t.asDesc.chars := by
  have hcut : x ++ k.text ++ '(' :: y = t.chars := by simp [h]
  rw [chars] at hcut
  cases hwrap : t.wrap with
  | plain =>
    rw [hwrap] at hcut
    exact (t.inner_ne_reverse (v := []) (by simp) k (by simpa using hcut)).elim
  | desc word =>
    rw [hwrap] at hcut
    have hlength := congrArg List.length (t.wrapped_reverse k word letters_desc hcut).1
    rw [List.length_append, k.length, word.length] at hlength
    have : "REVERSE".length = 7 ∧ "DESC".length = 4 := ⟨rfl, rfl⟩
    omega
  | reverse word =>
    rw [hwrap] at hcut
    obtain ⟨hkeyword, rfl⟩ := t.wrapped_reverse k word letters_reverse hcut
    have hlength := congrArg List.length hkeyword
    rw [List.length_append, k.length, word.length] at hlength
    obtain rfl : x = [] := List.eq_nil_of_length_eq_zero (by omega)
    exact ⟨by simp [reversed, hwrap], rfl⟩

end Term

/-! ### Lists of terms -/

theorem splitOn_renderAll {terms : List Term} (hne : terms ≠ []) :
    (renderAll terms).toList.splitOn ',' = terms.map Term.chars := by
  have htext : (renderAll terms).toList = [','].intercalate (terms.map Term.chars) := by
    rw [renderAll, toList_join, List.map_map]
    congr 1
    exact List.map_congr_left fun t _ => String.toList_ofList
  rw [htext, splitOn_intercalate ',' (by simpa using hne), List.flatMap_map]
  have hpiece : ∀ t ∈ terms, t.chars.splitOn ',' = [t.chars] :=
    fun t _ => List.splitOn_eq_singleton t.not_comma
  rw [List.flatMap_congr hpiece, ← List.map_eq_flatMap]

/-- A text that is split into the terms is the text for them. -/
theorem eq_renderAll {order : String} {terms : List Term}
    (h : order.toList.splitOn ',' = terms.map Term.chars) : order = renderAll terms := by
  rw [← join_split ',' order, renderAll, split_eq, h, List.map_map]
  rfl

/-- One reversed term is turned into a descending one, if there is one. -/
theorem replaceReverse_renderAll {terms : List Term} (hne : terms ≠ []) :
    ∃ terms', terms' ≠ [] ∧ replaceReverse (renderAll terms) = renderAll terms' ∧
      terms'.map Term.field = terms.map Term.field ∧
      terms'.countP Term.reversed = terms.countP Term.reversed - 1 := by
  rcases replaceReverse_cases (renderAll terms) with ⟨hsame, hnone⟩ | ⟨k, x, y, hfrom, hto⟩
  · have hzero : terms.countP Term.reversed = 0 := by
      refine List.countP_eq_zero.mpr fun t ht hreversed => ?_
      obtain ⟨k, v, hchars⟩ := Term.exists_reverse hreversed
      have hpiece : t.chars ∈ (renderAll terms).toList.splitOn ',' :=
        splitOn_renderAll hne ▸ List.mem_map_of_mem ht
      obtain ⟨a, b, hab⟩ := splitOn_piece hpiece
      refine hnone k a (v ++ b) ?_
      rw [← hab, hchars]
      simp
    exact ⟨terms, hne, hsame, rfl, by rw [hzero]⟩
  · have hcomma : ',' ∉ k.text ++ ['('] := by
      intro h
      rcases List.mem_append.mp h with h | h
      · exact nomatch k.orderChars letters_reverse ',' h
      · simp at h
    obtain ⟨P, u, v, Q, hcut⟩ := splitOn_cut ',' x y
    have hterms := (splitOn_renderAll hne).symm.trans (hfrom ▸ hcut _ hcomma)
    obtain ⟨before, rest, rfl, rfl, hrest⟩ := List.map_eq_append_iff.mp hterms
    obtain ⟨t, behind, rfl, ht, rfl⟩ := List.map_eq_cons_iff.mp hrest
    obtain ⟨hreversed, hdesc⟩ := Term.chars_reverse k ht
    refine ⟨before ++ t.asDesc :: behind, by simp, eq_renderAll ?_, ?_, ?_⟩
    · rw [hto, hcut _ (by decide), hdesc, List.map_append, List.map_cons]
    · simp [Term.asDesc_field hreversed]
    · have hdone : t.asDesc.reversed = false := rfl
      simp [List.countP_append, hreversed, hdone]

theorem renderAll_ne_empty {terms : List Term} (hne : terms ≠ []) : renderAll terms ≠ "" := by
  intro h
  have hsplit := splitOn_renderAll hne
  rw [h] at hsplit
  obtain ⟨t, -, ht⟩ := List.mem_map.mp (hsplit ▸ List.mem_singleton_self [] : [] ∈ terms.map Term.chars)
  exact t.chars_ne_nil ht

/-- The text is not one of the whole orders. -/
theorem not_whole {terms : List Term} (hne : terms ≠ []) {keyword whole : String}
    (hletters : Letters keyword) (hshort : keyword.length = 4)
    (hwhole : caseless (cStr whole) = caseless keyword ++ ['(', ')']) :
    strcasecmp (renderAll terms) whole = false := by
  have hnul : cStr (renderAll terms) = renderAll terms := by
    rw [cStr, List.takeWhile_eq_self_iff.mpr, String.ofList_toList]
    intro c hc
    refine decide_eq_true fun hzero => ?_
    subst hzero
    obtain ⟨p, hp, hmem⟩ := exists_mem_splitOn (c := ',') (by decide) hc
    obtain ⟨t, -, rfl⟩ := List.mem_map.mp (splitOn_renderAll hne ▸ hp)
    exact absurd (t.orderChars _ hmem) (by decide)
  rw [strcasecmp, hnul, hwhole, beq_eq_false_iff_ne]
  intro h
  have hcaseless : (renderAll terms).toList.map tolower = caseless keyword ++ ['(', ')'] := h
  have hcomma : ',' ∉ (renderAll terms).toList := by
    intro hc
    have hmem : tolower ',' ∈ caseless keyword ++ ['(', ')'] := hcaseless ▸ List.mem_map_of_mem hc
    rcases List.mem_append.mp hmem with hmem | hmem
    · exact absurd (List.all_eq_true.mp hletters _ hmem) (by decide)
    · simp [tolower] at hmem
  have hone := splitOn_renderAll hne
  rw [List.splitOn_eq_singleton hcomma] at hone
  obtain ⟨t, -, ht⟩ := List.mem_map.mp (hone ▸ List.mem_singleton_self _)
  rw [← ht] at hcaseless
  have hopen : '(' ∈ t.chars := by
    obtain ⟨c, hc, hlower⟩ := List.mem_map.mp (hcaseless ▸ by simp : '(' ∈ t.chars.map tolower)
    exact tolower_eq_open hlower ▸ hc
  have hlength := congrArg List.length hcaseless
  have hlong := Term.length_chars hopen
  rw [List.length_map, List.length_append, caseless, List.length_map, String.length_toList,
    hshort] at hlength
  simp only [List.length_cons, List.length_nil] at hlength
  omega

theorem readOrder_specific (o : Request) {order order' : String} (hne : order ≠ "")
    (hreplace : replaceReverse order = order') (hdesc : strcasecmp order' "DESC()" = false)
    (hrand : strcasecmp order' "RAND()" = false) : readOrder o order =
      { o with sortType := .specific, sortFields := (split [','] order').map sortField } := by
  rw [readOrder, if_neg hne, hreplace]
  simp only [hdesc, hrand, Bool.false_eq_true, if_false]

theorem readOption_some {options : Options} {name value : String} (h : options name = some value)
    (read : Request → String → Request) (o : Request) :
    readOption options name read o = read o value := by
  rw [readOption, h]

/-- The order is read last, whatever the other options are. -/
theorem parse_order {options : Options} {order : String} (h : options "order" = some order) :
    ∃ o : Request, parse options = readOrder o order := by
  rw [parse]
  simp only [List.foldl_cons, List.foldl_nil]
  exact ⟨_, readOption_some h readOrder _⟩

/-- The constructor splits the text and reads the terms. -/
theorem parse_renderAll {options : Options} {terms : List Term} (hne : terms ≠ [])
    (h : options "order" = some (renderAll terms)) :
    (parse options).sortType = .specific ∧
      ∃ terms' : List Term, (parse options).sortFields = (terms'.map Term.render).map sortField ∧
        terms'.map Term.field = terms.map Term.field ∧
        terms'.countP Term.reversed = terms.countP Term.reversed - 1 := by
  obtain ⟨terms', hne', hreplace, hfields, hcount⟩ := replaceReverse_renderAll hne
  obtain ⟨o, hparse⟩ := parse_order h
  have hsplit : split [','] (renderAll terms') = terms'.map Term.render := by
    rw [split_eq, splitOn_renderAll hne', List.map_map]
    rfl
  have hdesc : caseless (cStr "DESC()") = caseless "DESC" ++ ['(', ')'] := by
    simp [caseless, cStr, tolower]
  have hrand : caseless (cStr "RAND()") = caseless "RAND" ++ ['(', ')'] := by
    simp [caseless, cStr, tolower]
  have hread := readOrder_specific o (renderAll_ne_empty hne) hreplace
    (not_whole hne' letters_desc rfl hdesc) (not_whole hne' letters_rand rfl hrand)
  rw [hsplit] at hread
  rw [hparse, hread]
  exact ⟨rfl, terms', rfl, hfields, hcount⟩

/-- CORRECT: a list of terms is read as the fields that it spells exactly if at most one of its terms
    is reversed. -/
theorem parse_readAs_iff {options : Options} {terms : List Term} (hne : terms ≠ [])
    (h : options "order" = some (renderAll terms)) :
    ReadAs (parse options) terms ↔ terms.countP Term.reversed ≤ 1 := by
  obtain ⟨htype, terms', hread, hfields, hcount⟩ := parse_renderAll hne h
  rw [ReadAs, hread, ← hfields, map_sortField_iff, hcount, Nat.sub_eq_zero_iff_le]
  exact and_iff_right htype

private def sampleTerms : List Term :=
  [⟨"a", by decide, List.all_eq_true.mp rfl, none,
      .reverse ⟨"Reverse".toList, by simp [caseless, tolower]⟩⟩,
    ⟨"b/c", by decide, List.all_eq_true.mp rfl, some ⟨"count".toList, by simp [caseless, tolower]⟩,
      .desc ⟨"DESC".toList, rfl⟩⟩,
    ⟨"d", by decide, List.all_eq_true.mp rfl, none, .plain⟩]

/-- `Reverse(a),DESC(count(b/c)),d` is read as it is written. -/
theorem parse_readAs_sample :
    ReadAs (parse fun name => if name = "order" then some (renderAll sampleTerms) else none)
      sampleTerms :=
  (parse_readAs_iff (by decide) rfl).mpr (by decide)

private def reversedTerms : List Term :=
  [⟨"a", by decide, List.all_eq_true.mp rfl, none, .reverse ⟨"REVERSE".toList, rfl⟩⟩,
    ⟨"b", by decide, List.all_eq_true.mp rfl, none, .reverse ⟨"REVERSE".toList, rfl⟩⟩]

/-- In `REVERSE(a),REVERSE(b)` the second term is read as a path. -/
theorem not_parse_readAs : ¬ ∀ (options : Options) (terms : List Term), terms ≠ [] →
    options "order" = some (renderAll terms) → ReadAs (parse options) terms := by
  intro h
  have hread := h (fun name => if name = "order" then some "REVERSE(a),REVERSE(b)" else none)
    reversedTerms (by decide) (by decide)
  exact absurd hread.2 (by decide +kernel)

end Orders

end VaeDb
