import VaeDb.Thrift.Types

/-! Reading what was written, and writing what was read.

    An object fits the wire where its integers fit their fields and its strings, lists and maps have
    fewer than 2³¹ entries. Such an object is read as it was written, whatever follows it; and whatever
    is read, of any bytes, fits. So what has come through the wire once comes through it unchanged.

        object ── write ──▶ bytes ── read ──▶ object
        bytes ── read ──▶ object' ── write ──▶ bytes' ── read ──▶ object'                           -/

namespace VaeDb.Thrift
open Schemes Reading

/-! ### What fits the wire -/

mutual

def FieldType.Fits : (type : FieldType) → type.Val → Prop
  | .bool, _ => True
  | .byte, value => InRange 7 value
  | .i32, value => InRange 31 value
  | .string, value => Countable value.length
  | .map, array => Countable array.entries.length ∧
    ∀ e ∈ array.entries, Countable e.1.length ∧ Countable e.2.length
  | .list elem, values => Countable values.length ∧ ∀ value ∈ values, elem.Fits value
  | .struct spec, object => spec.Fits object

def Spec.Fits : (spec : Spec) → spec.Object → Prop
  | .nil, _ => True
  | .cons _ _ type rest, (value, values) => (∀ v ∈ value, type.Fits v) ∧ rest.Fits values

end

mutual

def FieldType.decidableFits : (type : FieldType) → (value : type.Val) → Decidable (type.Fits value)
  | .bool, _ => .isTrue trivial
  | .byte, value => inferInstanceAs (Decidable (InRange 7 value))
  | .i32, value => inferInstanceAs (Decidable (InRange 31 value))
  | .string, value => inferInstanceAs (Decidable (value.length < 2 ^ 31))
  | .map, array => inferInstanceAs (Decidable (array.entries.length < 2 ^ 31 ∧
      ∀ e ∈ array.entries, e.1.length < 2 ^ 31 ∧ e.2.length < 2 ^ 31))
  | .list elem, values =>
    have := fun value => elem.decidableFits value
    inferInstanceAs (Decidable (values.length < 2 ^ 31 ∧ ∀ value ∈ values, elem.Fits value))
  | .struct spec, object => spec.decidableFits object

def Spec.decidableFits : (spec : Spec) → (object : spec.Object) → Decidable (spec.Fits object)
  | .nil, _ => .isTrue trivial
  | .cons _ _ type rest, (value, values) =>
    have := fun value => type.decidableFits value
    have := rest.decidableFits values
    inferInstanceAs (Decidable ((∀ v ∈ value, type.Fits v) ∧ rest.Fits values))

end

instance (spec : Spec) (object : spec.Object) : Decidable (spec.Fits object) :=
  spec.decidableFits object

theorem FieldType.code_mem_known (type : FieldType) : type.code ∈ TType.known := by
  cases type <;> simp [code, TType.known]

theorem inRange_of_mem_known {type : ℤ} (h : type ∈ TType.known) :
    InRange 7 type ∧ type ≠ TType.STOP := by
  revert type
  decide

/-! ### The loop over the fields -/

variable {α : Type} {field : ℤ → ℤ → α → Read α}

theorem eval_readFields_stop (k : ℕ) (values : α) (s : Bytes) :
    (readFields (k + 1) field values).eval (writeFieldStop ++ s) = .ok (values, s) := by
  refine eval_rounds_inl ?_ k
  rw [eval_bind_of_ok (eval_readFieldStop s)]
  rfl

theorem eval_readFields_field {type : FieldType} {fid : ℤ} (hfid : InRange 15 fid) {values values' : α}
    {s r : Bytes} (h : (field type.code fid values).eval s = .ok (values', r)) (var : String) (k : ℕ) :
    (readFields (k + 1) field values).eval (writeFieldBegin var type.code fid ++ s) =
      (readFields k field values').eval r := by
  obtain ⟨hcode, hstop⟩ := inRange_of_mem_known type.code_mem_known
  refine eval_rounds_inr ?_ k
  rw [eval_bind_of_ok (eval_readFieldBegin hcode hstop hfid var s)]
  change (if type.code = TType.STOP then _ else _ : Read (α ⊕ α)).eval s = _
  rw [if_neg hstop, eval_bind_of_ok h]
  rfl

/-! ### Maps -/

theorem eval_readEntry {e : Bytes × Bytes} (h : Countable e.1.length ∧ Countable e.2.length) (s : Bytes) :
    readEntry.eval (writeEntry e ++ s) = .ok (e, s) := by
  rw [readEntry, writeEntry, List.append_assoc, eval_bind_of_ok (eval_readString h.1 _),
    eval_bind_of_ok (eval_readString h.2 s)]
  rfl

/-- Assignments to keys that are not yet there. -/
theorem PhpArray.entries_foldl {entries : List (Bytes × Bytes)} {array : PhpArray}
    (h : ((array.entries ++ entries).map Prod.fst).Nodup) :
    (entries.foldl (fun array e => array.assign e.1 e.2) array).entries = array.entries ++ entries := by
  induction entries generalizing array with
  | nil => rw [List.foldl_nil, List.append_nil]
  | cons e entries ih =>
    have hkey : e.1 ∉ array.entries.map Prod.fst := by
      rw [List.map_append, List.map_cons] at h
      exact fun hmem => (List.nodup_append.mp h).2.2 e.1 hmem e.1 List.mem_cons_self rfl
    have hassign : (array.assign e.1 e.2).entries = array.entries ++ [e] := if_neg hkey
    rw [List.foldl_cons, ih, hassign, List.append_assoc]
    · rfl
    · rwa [hassign, List.append_assoc]

/-- The entries of a map, assigned one after another, are the map. -/
theorem PhpArray.foldl_assign (array : PhpArray) :
    array.entries.foldl (fun array e => array.assign e.1 e.2) PhpArray.empty = array := by
  ext1
  exact @PhpArray.entries_foldl array.entries PhpArray.empty array.nodup

/-! ### A field and the others -/

section Field
variable {fid : ℤ} {var : String} {type : FieldType} {rest : Spec} {v : type.Val} {values : rest.Object}

theorem Spec.write_some (s : Bytes) : (Spec.cons fid var type rest).write (some v, values) ++ s =
    writeFieldBegin var type.code fid ++ (type.write v ++ (rest.write values ++ s)) := by
  change ((writeFieldBegin var type.code fid ++ type.write v) ++ rest.write values) ++ s = _
  rw [List.append_assoc, List.append_assoc]

theorem Spec.length_write_some : ((Spec.cons fid var type rest).write (some v, values)).length =
    3 + (type.write v).length + (rest.write values).length := by
  change ((writeFieldBegin var type.code fid ++ type.write v) ++ rest.write values).length = _
  rw [List.length_append, List.length_append]
  rfl

end Field

theorem Spec.length_write_pos : (spec : Spec) → (object : spec.Object) → 0 < (spec.write object).length
  | .nil, _ => Nat.one_pos
  | .cons _ _ _ rest, (none, values) => rest.length_write_pos values
  | .cons _ _ _ _, (some _, _) => by
    rw [length_write_some]
    omega

/-! ### Reading what was written -/

theorem length_le_flatMap {β γ : Type} {f : β → List γ} {v : β} {vs : List β} (h : v ∈ vs) :
    (f v).length ≤ (vs.flatMap f).length := by
  obtain ⟨a, b, rfl⟩ := List.append_of_mem h
  simp only [List.flatMap_append, List.flatMap_cons, List.length_append]
  omega

mutual

theorem FieldType.eval_read {n : ℕ} : (type : FieldType) → type.WellFormed → (value : type.Val) →
    type.Fits value → (type.write value).length ≤ n → (s : Bytes) →
    (type.read n).eval (type.write value ++ s) = .ok (value, s)
  | .bool, _, value, _, _, s => eval_readBool value s
  | .byte, _, _, hfits, _, s => eval_readByte_of_inRange hfits s
  | .i32, _, _, hfits, _, s => eval_readI32_of_inRange hfits s
  | .string, _, _, hfits, _, s => eval_readString hfits s
  | .map, _, array, hfits, _, s => by
    have hcode : InRange 7 TType.STRING := by decide
    rw [FieldType.read, FieldType.write, List.append_assoc,
      eval_bind_of_ok (eval_readMapBegin hcode hcode hfits.1 _)]
    change (Reading.times readEntry array.entries.length >>= _).eval _ = _
    rw [eval_bind_of_ok (eval_times (fun e he s => eval_readEntry (hfits.2 e he) s) s),
      PhpArray.foldl_assign]
    rfl
  | .list elem, hwf, values, hfits, hn, s => by
    rw [FieldType.write, List.length_append] at hn
    rw [FieldType.read, FieldType.write, List.append_assoc,
      eval_bind_of_ok (eval_readListBegin (inRange_of_mem_known elem.code_mem_known).1 hfits.1 _)]
    refine eval_times (fun value hvalue s => ?_) s
    have hle : (elem.write value).length ≤ (values.flatMap elem.write).length := length_le_flatMap hvalue
    exact elem.eval_read hwf value (hfits.2 value hvalue) (by omega) s
  | .struct spec, hwf, object, hfits, hn, s => by
    rw [FieldType.read, FieldType.write]
    exact spec.eval_readFields hwf object hfits hn hn id (fun _ _ _ _ => (bind_pure _).symm) s

/-- The fields of a class among those of another one: `put` has what the others hold. -/
theorem Spec.eval_readFields {n k : ℕ} {α : Type} {field : ℤ → ℤ → α → Read α} : (spec : Spec) →
    spec.WellFormed → (object : spec.Object) → spec.Fits object →
    (spec.write object).length ≤ n → (spec.write object).length ≤ k →
    (put : spec.Object → α) → (∀ ftype fid object, fid ∈ spec.fids →
      field ftype fid (put object) = spec.readField n ftype fid object >>= fun o => pure (put o)) →
    (s : Bytes) → (readFields k field (put spec.blank)).eval (spec.write object ++ s) = .ok (put object, s)
  | .nil, _, object, _, _, hk, put, _, s => by
    obtain ⟨k, rfl⟩ := Nat.exists_eq_add_one.mpr (Nat.lt_of_lt_of_le (Spec.length_write_pos .nil ()) hk)
    exact eval_readFields_stop k (put ()) s
  | .cons fid var type rest, hwf, (value, values), hfits, hn, hk, put, hfield, s => by
    obtain ⟨⟨hfid, hnot⟩, hwfType, hwfRest⟩ := hwf
    obtain ⟨hvalue, hvalues⟩ := hfits
    -- the other fields are those of `rest`, once this one has its value
    have hrest : ∀ value ftype id object, id ∈ rest.fids → field ftype id (put (value, object)) =
        rest.readField n ftype id object >>= fun o => pure (put (value, o)) := by
      intro value ftype id object hid
      have hne : id ≠ fid := fun heq => hnot (heq ▸ hid)
      rw [hfield ftype id (value, object) (List.mem_cons_of_mem _ hid), Spec.readField, if_neg hne,
        bind_assoc]
      rfl
    cases value with
    | none =>
      exact rest.eval_readFields hwfRest values hvalues hn hk (fun o => put (none, o)) (hrest none) s
    | some v =>
      rw [Spec.length_write_some] at hn hk
      obtain ⟨k, rfl⟩ : ∃ j, k = j + 1 := ⟨k - 1, by omega⟩
      have hread : (field type.code fid (put (none, rest.blank))).eval
          (type.write v ++ (rest.write values ++ s)) =
          .ok (put (some v, rest.blank), rest.write values ++ s) := by
        rw [hfield type.code fid (none, rest.blank) List.mem_cons_self, Spec.readField, if_pos rfl,
          if_pos rfl, bind_assoc,
          eval_bind_of_ok (type.eval_read hwfType v (hvalue v rfl) (by omega) _)]
        rfl
      rw [Spec.write_some]
      change (readFields (k + 1) field (put (none, rest.blank))).eval _ = _
      rw [eval_readFields_field hfid hread var k]
      exact rest.eval_readFields hwfRest values hvalues (by omega) (by omega)
        (fun o => put (some v, o)) (hrest (some v)) s

end

/-! ### What is read of any bytes -/

theorem PhpArray.foldl_assign_sub (entries : List (Bytes × Bytes)) (array : PhpArray) :
    (entries.foldl (fun array e => array.assign e.1 e.2) array).entries.length ≤
        array.entries.length + entries.length ∧
      ∀ e ∈ (entries.foldl (fun array e => array.assign e.1 e.2) array).entries,
        e ∈ array.entries ∨ e ∈ entries := by
  induction entries generalizing array with
  | nil => exact ⟨Nat.le_refl _, fun e he => .inl he⟩
  | cons e entries ih =>
    obtain ⟨hlength, hmem⟩ := ih (array.assign e.1 e.2)
    have hassign : (array.assign e.1 e.2).entries.length ≤ array.entries.length + 1 ∧
        ∀ d ∈ (array.assign e.1 e.2).entries, d ∈ array.entries ∨ d = e := by
      change (PhpArray.assignEntries array.entries e.1 e.2).length ≤ _ ∧
        ∀ d ∈ PhpArray.assignEntries array.entries e.1 e.2, _
      rw [PhpArray.assignEntries]
      split
      · refine ⟨by rw [List.length_map]; omega, fun d hd => ?_⟩
        obtain ⟨d', hd', rfl⟩ := List.mem_map.mp hd
        split
        · exact .inr rfl
        · exact .inl hd'
      · refine ⟨by rw [List.length_append, List.length_singleton], fun d hd => ?_⟩
        rcases List.mem_append.mp hd with hd | hd
        · exact .inl hd
        · exact .inr (List.mem_singleton.mp hd)
    rw [List.foldl_cons, List.length_cons]
    refine ⟨by omega, fun d hd => ?_⟩
    rcases hmem d hd with hd | hd
    · rcases hassign.2 d hd with hd | rfl
      · exact .inl hd
      · exact .inr List.mem_cons_self
    · exact .inr (List.mem_cons_of_mem _ hd)

theorem yields_readEntry :
    Yields (fun e => Countable e.1.length ∧ Countable e.2.length) readEntry :=
  yields_readString.bind fun _ hkey => yields_readString.bind fun _ hval => yields_pure ⟨hkey, hval⟩

theorem yields_readFields {I : α → Prop} (h : ∀ ftype fid values, I values →
    Yields I (field ftype fid values)) (n : ℕ) {values : α} (hvalues : I values) :
    Yields I (readFields n field values) := by
  refine yields_rounds (I := I) (fun values hvalues => ?_) n hvalues
  refine yields_bind _ fun begun => ?_
  obtain ⟨ftype, fid⟩ := begun
  dsimp only
  split
  · exact yields_pure hvalues
  · exact (h ftype fid values hvalues).bind fun _ hvalues => yields_pure hvalues

theorem Spec.fits_blank : (spec : Spec) → spec.Fits spec.blank
  | .nil => trivial
  | .cons _ _ _ rest => ⟨by rintro _ ⟨⟩, rest.fits_blank⟩

mutual

/-- What is read fits. -/
theorem FieldType.yields_read (n : ℕ) : (type : FieldType) → Yields type.Fits (type.read n)
  | .bool => fun _ _ _ _ => trivial
  | .byte => yields_readByte
  | .i32 => yields_readI32
  | .string => yields_readString
  | .map => yields_readMapBegin.bind fun begun hsize => (yields_readEntry.times begun.2.2.toNat).bind
      fun entries hentries => yields_pure (by
        obtain ⟨hlength, hmem⟩ := PhpArray.foldl_assign_sub entries PhpArray.empty
        have hcount := countable_toNat hsize
        rw [Countable] at hcount
        refine ⟨Nat.lt_of_le_of_lt hlength ?_, fun e he => ?_⟩
        · rw [hentries.1]
          simpa [PhpArray.empty] using hcount
        · rcases hmem e he with he | he
          · cases he
          · exact hentries.2 e he)
  | .list elem => yields_readListBegin.bind fun begun hsize s values r h => by
      obtain ⟨hlength, hvalues⟩ := (elem.yields_read n).times begun.2.toNat s values r h
      refine ⟨?_, hvalues⟩
      rw [hlength]
      exact countable_toNat hsize
  | .struct spec => yields_readFields (fun ftype fid object => spec.yields_readField n ftype fid object)
      n spec.fits_blank

theorem Spec.yields_readField (n : ℕ) : (spec : Spec) → (ftype fid : ℤ) → (object : spec.Object) →
    spec.Fits object → Yields spec.Fits (spec.readField n ftype fid object)
  | .nil, _, _, _, _ => fun _ _ _ _ => trivial
  | .cons id _ type rest, ftype, fid, (value, values), hfits => by
    rw [Spec.readField]
    split
    · split
      · refine (type.yields_read n).bind fun v hv => yields_pure ⟨?_, hfits.2⟩
        rintro _ ⟨⟩
        exact hv
      · exact yields_bind _ fun _ => yields_pure hfits
    · exact (rest.yields_readField n ftype fid values hfits.2).bind
        fun _ hvalues => yields_pure ⟨hfits.1, hvalues⟩

end

mutual

/-- Reading comes to an end, and throws at a field of an unknown type only. -/
theorem FieldType.throws_read (n : ℕ) : (type : FieldType) → Throws Unknown n (type.read n)
  | .bool => throws_readBool Unknown n
  | .byte => throws_readByte Unknown n
  | .i32 => throws_readI32 Unknown n
  | .string => throws_readString Unknown n
  | .map => (throws_readMapBegin Unknown n).bind fun begun =>
      (((throws_readString Unknown n).bind fun _ => (throws_readString Unknown n).map _).times
        begun.2.2.toNat).map _
  | .list elem => (throws_readListBegin Unknown n).bind fun begun =>
      (elem.throws_read n).times begun.2.toNat
  | .struct spec => by
    cases n with
    | zero => exact throws_zero Unknown _
    | succ n =>
      exact throws_readFields (fun ftype fid object =>
        (spec.throws_readField (n + 1) ftype fid object).mono (Nat.le_succ n)) spec.blank

theorem Spec.throws_readField (n : ℕ) : (spec : Spec) → (ftype fid : ℤ) → (object : spec.Object) →
    Throws Unknown n (spec.readField n ftype fid object)
  | .nil, ftype, _, _ => (throws_skip n ftype).map _
  | .cons id _ type rest, ftype, fid, (value, values) => by
    rw [Spec.readField]
    refine throws_ite (throws_ite ?_ fun _ => ?_) fun _ => ?_
    · exact (type.throws_read n).map _
    · exact (throws_skip n ftype).map _
    · exact (rest.throws_readField n ftype fid values).map _

end

/-! ### Over a connection -/

section Connection
variable {c : Class} {object : c.spec.Object} {n : ℕ} {portions later : Portions}

theorem Class.eval_read (c : Class) {object : c.spec.Object} (hfits : c.spec.Fits object)
    (hn : (c.spec.write object).length ≤ n) (s : Bytes) :
    (c.spec.read n).eval (c.spec.write object ++ s) = .ok (object, s) :=
  c.spec.eval_readFields c.wellFormed object hfits hn hn id (fun _ _ _ _ => (bind_pure _).symm) s

/-- CORRECT: an object that fits is read as it was written, in whatever portions the bytes arrive, and
    what follows it is left for the next reading; where the end of it does not arrive, reading is cut
    short. -/
theorem read_write (hfits : c.spec.Fits object) (hn : (c.spec.write object).length ≤ n)
    (portions : Portions) :
    (∀ more, portions.flatten = c.spec.write object ++ more → ∃ later,
        (c.spec.read n).run transport portions = .ok (object, later) ∧ later.flatten = more) ∧
      ∀ missing, c.spec.write object = portions.flatten ++ missing → missing ≠ [] →
        (c.spec.read n).run transport portions = .error .cut := by
  constructor
  · intro more hmore
    exact run_of_eval transport_delivers (hmore ▸ c.eval_read hfits hn more)
  · intro missing hmissing hne
    have hwhole : (c.spec.read n).eval (portions.flatten ++ missing) = .ok (object, []) := by
      rw [← hmissing]
      simpa using c.eval_read hfits hn []
    exact run_of_eval_error transport_delivers (eval_cut hwhole hne)

/-- Two rows, of which one has no structure, in two portions with a byte behind them. -/
def sampleInfo : VaeDbCreateInfoResponse.spec.Object :=
  (some [(some 7, some (-1), ()), (none, some 2, ())], ())

theorem read_write_sampleInfo : ∃ later, (VaeDbCreateInfoResponse.spec.read 64).run transport
    [(VaeDbCreateInfoResponse.spec.write sampleInfo).take 9,
      (VaeDbCreateInfoResponse.spec.write sampleInfo).drop 9 ++ [1]] = .ok (sampleInfo, later) ∧
    later.flatten = [1] :=
  (@read_write VaeDbCreateInfoResponse sampleInfo 64 (by decide) (by decide) _).1 [1] (by decide)

/-- CORRECT: on any bytes, reading comes to an end: with an object, cut short by the end of the bytes,
    or with a `TProtocolException` about a field of an unknown type. -/
theorem read_ends (c : Class) (hn : portions.flatten.length < n) :
    (∃ object later, (c.spec.read n).run transport portions = .ok (object, later)) ∨
      (c.spec.read n).run transport portions = .error .cut ∨
      ∃ type, type ∉ TType.known ∧ (c.spec.read n).run transport portions =
        .error (.thrown (unknownFieldType type)) := by
  have hrun := run_eval transport_delivers (c.spec.read n) portions
  have hthrows := FieldType.throws_read n (.struct c.spec) portions.flatten hn
  cases h : (c.spec.read n).run transport portions with
  | ok at' => exact .inl ⟨at'.1, at'.2, rfl⟩
  | error e =>
    rw [h] at hrun
    cases e with
    | cut => exact .inr (.inl rfl)
    | thrown e =>
      obtain ⟨type, htype, rfl⟩ := hthrows e hrun.symm
      exact .inr (.inr ⟨type, htype, rfl⟩)

/-- A field of the type 7, with an id. -/
theorem read_ends_unknown :
    (∃ object later, (VaeDbCreateInfo.spec.read 8).run transport [[7, 0], [1]] = .ok (object, later)) ∨
      (VaeDbCreateInfo.spec.read 8).run transport [[7, 0], [1]] = .error .cut ∨
      ∃ type, type ∉ TType.known ∧ (VaeDbCreateInfo.spec.read 8).run transport [[7, 0], [1]] =
        .error (.thrown (unknownFieldType type)) :=
  @read_ends 8 [[7, 0], [1]] VaeDbCreateInfo (by decide)

/-- CORRECT: what is read, of any bytes, fits, and is read again as it is when it is sent on. -/
theorem read_again (hread : (c.spec.read n).run transport portions = .ok (object, later)) :
    c.spec.Fits object ∧ ∀ m, (c.spec.write object).length ≤ m → ∀ portions' more,
      portions'.flatten = c.spec.write object ++ more → ∃ later',
        (c.spec.read m).run transport portions' = .ok (object, later') ∧ later'.flatten = more := by
  have hrun := run_eval transport_delivers (c.spec.read n) portions
  rw [hread] at hrun
  have hfits : c.spec.Fits object := FieldType.yields_read n (.struct c.spec) _ _ _ hrun.symm
  exact ⟨hfits, fun m hm portions' more hmore =>
    run_of_eval transport_delivers (hmore ▸ c.eval_read hfits hm more)⟩

/-- A row that came with a field that is not known, and without its structure. -/
def sampleRow : VaeDbCreateInfo.spec.Object := (none, some 5, ())

set_option maxRecDepth 4000 in
theorem read_again_sampleRow : VaeDbCreateInfo.spec.Fits sampleRow ∧
    ∀ m, (VaeDbCreateInfo.spec.write sampleRow).length ≤ m → ∀ portions' more,
      portions'.flatten = VaeDbCreateInfo.spec.write sampleRow ++ more → ∃ later',
        (VaeDbCreateInfo.spec.read m).run transport portions' = .ok (sampleRow, later') ∧
          later'.flatten = more :=
  @read_again VaeDbCreateInfo sampleRow 16 [[2, 0, 9, 1], [8, 0, 2, 0, 0, 0, 5, 0]] [] rfl

end Connection

end VaeDb.Thrift
