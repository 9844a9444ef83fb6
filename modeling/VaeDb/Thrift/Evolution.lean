import VaeDb.Thrift.RoundTrip

/-! Readers and writers of different classes.

    The two ends of a connection may be of different ages: what one of them writes has fields that the
    other one does not know, and lacks others that it does. A reader goes over what it does not know
    with `skip`, which passes over a value of any type, and gets the fields that it shares with the
    writer; the rest of its object stays null.

        writer   1 id i32 │ 2 name string │ 5 tags list<…>
        reader   1 id i32 │               │                │ 7 kind string
        read     id       │ skip          │ skip           │ null

    The writer's fields have the types that fields of today's classes have. A peer could also write
    an i16, an i64, a double, a set or another kind of map; `skip` passes over those as well, but
    nothing is said about them here. -/

namespace VaeDb.Thrift
open Schemes Reading

/-! ### Skipping -/

mutual

/-- `skip` passes over a value. -/
theorem FieldType.eval_skip : {n : ℕ} → (type : FieldType) → type.WellFormed → (value : type.Val) →
    type.Fits value → (type.write value).length < n → (s : Bytes) →
    (skip n type.code).eval (type.write value ++ s) = .ok ((), s)
  | n + 1, .bool, _, value, _, _, s => by
    change (readBool >>= fun _ => pure () : Read Unit).eval _ = _
    rw [FieldType.write, eval_bind_of_ok (eval_readBool value s)]
    rfl
  | n + 1, .byte, _, value, hfits, _, s => by
    change (readByte >>= fun _ => pure () : Read Unit).eval _ = _
    rw [FieldType.write, eval_bind_of_ok (eval_readByte_of_inRange hfits s)]
    rfl
  | n + 1, .i32, _, value, hfits, _, s => by
    change (readI32 >>= fun _ => pure () : Read Unit).eval _ = _
    rw [FieldType.write, eval_bind_of_ok (eval_readI32_of_inRange hfits s)]
    rfl
  | n + 1, .string, _, value, hfits, _, s => by
    change (readString >>= fun _ => pure () : Read Unit).eval _ = _
    rw [FieldType.write, eval_bind_of_ok (eval_readString hfits s)]
    rfl
  | n + 1, .map, _, array, hfits, hn, s => by
    have hcode : InRange 7 TType.STRING := by decide
    obtain ⟨n, rfl⟩ : ∃ m, n = m + 1 := ⟨n - 1, by
      rw [FieldType.write, List.length_append] at hn
      have : (writeMapBegin TType.STRING TType.STRING array.entries.length).length = 6 := rfl
      omega⟩
    change (readMapBegin >>= _ : Read Unit).eval _ = _
    rw [FieldType.write, List.append_assoc, eval_bind_of_ok (eval_readMapBegin hcode hcode hfits.1 _)]
    change (Reading.times (skip (n + 1) TType.STRING >>= fun _ => skip (n + 1) TType.STRING)
      array.entries.length >>= fun _ => pure () : Read Unit).eval _ = _
    rw [eval_bind_of_ok (eval_times_map (g := fun _ => ()) (fun e he s => ?_) s)]
    · rfl
    · obtain ⟨hkey, hval⟩ := hfits.2 e he
      change ((readString >>= fun _ => pure ()) >>= fun _ => (readString >>= fun _ => pure ()) :
        Read Unit).eval _ = _
      rw [writeEntry, List.append_assoc, bind_assoc, eval_bind_of_ok (eval_readString hkey _), pure_bind,
        eval_bind_of_ok (eval_readString hval s)]
      rfl
  | n + 1, .list elem, hwf, values, hfits, hn, s => by
    rw [FieldType.write, List.length_append] at hn
    have hbegin : (writeListBegin elem.code values.length).length = 5 := rfl
    change (readListBegin >>= _ : Read Unit).eval _ = _
    rw [FieldType.write, List.append_assoc,
      eval_bind_of_ok (eval_readListBegin (inRange_of_mem_known elem.code_mem_known).1 hfits.1 _)]
    change (Reading.times (skip n elem.code) values.length >>= fun _ => pure () : Read Unit).eval _ = _
    rw [eval_bind_of_ok (eval_times_map (g := fun _ => ()) (fun value hvalue s => ?_) s)]
    · rfl
    · have hle : (elem.write value).length ≤ (values.flatMap elem.write).length :=
        length_le_flatMap hvalue
      exact elem.eval_skip hwf value (hfits.2 value hvalue) (by omega) s
  | n + 1, .struct spec, hwf, object, hfits, hn, s =>
    spec.eval_skipFields hwf object hfits (Nat.le_of_lt_succ hn) (Nat.le_of_lt hn) s

theorem Spec.eval_skipFields {n k : ℕ} : (spec : Spec) → spec.WellFormed → (object : spec.Object) →
    spec.Fits object → (spec.write object).length ≤ n → (spec.write object).length ≤ k → (s : Bytes) →
    (readFields k (fun ftype _ _ => skip n ftype) ()).eval (spec.write object ++ s) = .ok ((), s)
  | .nil, _, _, _, _, hk, s => by
    obtain ⟨k, rfl⟩ := Nat.exists_eq_add_one.mpr (Nat.lt_of_lt_of_le (Spec.length_write_pos .nil ()) hk)
    exact eval_readFields_stop k () s
  | .cons fid var type rest, ⟨⟨hfid, _⟩, hwfType, hwfRest⟩, (none, values), hfits, hn, hk, s =>
    rest.eval_skipFields hwfRest values hfits.2 hn hk s
  | .cons fid var type rest, ⟨⟨hfid, _⟩, hwfType, hwfRest⟩, (some v, values), hfits, hn, hk, s => by
    rw [Spec.length_write_some] at hn hk
    obtain ⟨k, rfl⟩ : ∃ j, k = j + 1 := ⟨k - 1, by omega⟩
    have hskip := type.eval_skip hwfType v (hfits.1 v rfl) (n := n) (by omega) (rest.write values ++ s)
    rw [Spec.write_some, eval_readFields_field hfid hskip var k]
    exact rest.eval_skipFields hwfRest values hfits.2 (by omega) (by omega) s

end

/-! ### What a reader is to see -/

/-- What an object has in its fields, by their ids. -/
def Spec.field : (spec : Spec) → spec.Object → ℤ → Option Typed
  | .nil, _, _ => none
  | .cons fid _ type rest, (value, values), id =>
    if id = fid then value.map fun v => ⟨type, v⟩ else rest.field values id

def Spec.typeOf : Spec → ℤ → Option FieldType
  | .nil, _ => none
  | .cons fid _ type rest, id => if id = fid then some type else rest.typeOf id

mutual

/-- A type for reading what has been written as another one. -/
def FieldType.Reads : FieldType → FieldType → Prop
  | .bool, .bool => True
  | .byte, .byte => True
  | .i32, .i32 => True
  | .string, .string => True
  | .map, .map => True
  | .list elem', .list elem => elem'.Reads elem
  | .struct spec', .struct spec => spec'.Reads spec
  | _, _ => False

/-- Where a field of one id has types of one code, the one is for reading the other. -/
def Spec.Reads : Spec → Spec → Prop
  | .nil, _ => True
  | .cons fid _ type' rest', spec =>
    (∀ type ∈ spec.typeOf fid, type.code = type'.code → type'.Reads type) ∧ rest'.Reads spec

end

/-- A field that was written with the expected type has its value; otherwise it is null. -/
def SeesField {type' : FieldType} (sees : (type : FieldType) → type.Val → type'.Val → Prop) :
    Option Typed → Option type'.Val → Prop
  | none, value' => value' = none
  | some ⟨type, v⟩, value' =>
    if type.code = type'.code then ∃ v' ∈ value', sees type v v' else value' = none

mutual

/-- What a value is to a reader of another type. -/
def FieldType.Sees : (type' type : FieldType) → type.Val → type'.Val → Prop
  | .bool, .bool, value, value' => value' = value
  | .byte, .byte, value, value' => value' = value
  | .i32, .i32, value, value' => value' = value
  | .string, .string, value, value' => value' = value
  | .map, .map, array, array' => array' = array
  | .list elem', .list elem, values, values' => List.Forall₂ (elem'.Sees elem) values values'
  | .struct spec', .struct spec, object, object' => spec'.Sees (spec.field object) object'
  | _, _, _, _ => False

/-- What fields that were written are to a reader of other ones. -/
def Spec.Sees : (spec' : Spec) → (ℤ → Option Typed) → spec'.Object → Prop
  | .nil, _, _ => True
  | .cons fid _ type' rest', written, (value', values') =>
    SeesField type'.Sees (written fid) value' ∧ rest'.Sees written values'

end

theorem Spec.field_of_notMem : (spec : Spec) → (object : spec.Object) → {id : ℤ} → id ∉ spec.fids →
    spec.field object id = none
  | .nil, _, _, _ => rfl
  | .cons _ _ _ rest, (_, values), _, h => by
    rw [fids, List.mem_cons, not_or] at h
    obtain ⟨hne, h⟩ := h
    rw [field, if_neg hne]
    exact rest.field_of_notMem values h

theorem Spec.typeOf_reads : (spec' : Spec) → {spec : Spec} → spec'.Reads spec → {fid : ℤ} →
    {type : FieldType} → spec.typeOf fid = some type → {type' : FieldType} →
    spec'.typeOf fid = some type' → type.code = type'.code → type'.Reads type
  | .nil, _, _, _, _, _, _, h, _ => by cases h
  | .cons id _ _ rest', _, ⟨hfield, hrest⟩, fid, type, htype, type', h, hcode => by
    rw [typeOf] at h
    split at h
    · next heq =>
      cases h
      exact hfield type (heq ▸ htype) hcode
    · exact rest'.typeOf_reads hrest htype h hcode

theorem Spec.sees_congr : (spec' : Spec) → {f g : ℤ → Option Typed} → (∀ id ∈ spec'.fids, f id = g id) →
    (object : spec'.Object) → spec'.Sees f object → spec'.Sees g object
  | .nil, _, _, _, _, _ => trivial
  | .cons _ _ _ rest', _, _, h, (_, values), ⟨hfield, hrest⟩ =>
    ⟨h _ List.mem_cons_self ▸ hfield,
      rest'.sees_congr (fun id hid => h id (List.mem_cons_of_mem _ hid)) values hrest⟩

theorem Spec.sees_blank : (spec' : Spec) → spec'.Sees (fun _ => none) spec'.blank
  | .nil => trivial
  | .cons _ _ _ rest' => ⟨rfl, rest'.sees_blank⟩

/-! ### Reading what was written as something else -/

/-- A reader that sees each field as it comes, sees what was written: `f` has what came before. -/
theorem Spec.eval_readFields_sees {whole : Spec} {n : ℕ} {α : Type} {field : ℤ → ℤ → α → Read α}
    {P : (ℤ → Option Typed) → α → Prop}
    (hstep : ∀ {type : FieldType} {v : type.Val} {fid : ℤ} {f : ℤ → Option Typed} {a : α},
      whole.typeOf fid = some type → type.WellFormed → type.Fits v → (type.write v).length < n →
      P f a → f fid = none → ∃ a', P (Function.update f fid (some ⟨type, v⟩)) a' ∧
        ∀ s, (field type.code fid a).eval (type.write v ++ s) = .ok (a', s)) :
    (spec : Spec) → spec.WellFormed → (∀ id ∈ spec.fids, whole.typeOf id = spec.typeOf id) →
    (object : spec.Object) → spec.Fits object → (spec.write object).length ≤ n → {k : ℕ} →
    (spec.write object).length ≤ k → {f : ℤ → Option Typed} → {a : α} → P f a →
    (∀ id ∈ spec.fids, f id = none) →
    ∃ a', P (fun id => (spec.field object id).or (f id)) a' ∧
      ∀ s, (readFields k field a).eval (spec.write object ++ s) = .ok (a', s)
  | .nil, _, _, _, _, _, k, hk, _, a, ha, _ => by
    obtain ⟨k, rfl⟩ := Nat.exists_eq_add_one.mpr (Nat.lt_of_lt_of_le (Spec.length_write_pos .nil ()) hk)
    exact ⟨a, ha, eval_readFields_stop k a⟩
  | .cons fid var type rest, hwf, hwhole, (value, values), hfits, hn, k, hk, f, a, ha, hnone => by
    obtain ⟨⟨hfid, hnot⟩, hwfType, hwfRest⟩ := hwf
    have hother : ∀ id ∈ rest.fids, id ≠ fid := fun id hid heq => hnot (heq ▸ hid)
    have hwholeRest : ∀ id ∈ rest.fids, whole.typeOf id = rest.typeOf id := by
      intro id hid
      rw [hwhole id (List.mem_cons_of_mem _ hid), typeOf, if_neg (hother id hid)]
    have hnoneRest : ∀ id ∈ rest.fids, f id = none :=
      fun id hid => hnone id (List.mem_cons_of_mem _ hid)
    cases value with
    | none =>
      obtain ⟨a', ha', heval⟩ := Spec.eval_readFields_sees hstep rest hwfRest hwholeRest values hfits.2
        hn hk ha hnoneRest
      refine ⟨a', ?_, heval⟩
      have hfield : (Spec.cons fid var type rest).field (none, values) = rest.field values := by
        funext id
        rw [Spec.field]
        split
        · next heq => rw [heq, rest.field_of_notMem values hnot, Option.map_none]
        · rfl
      rw [hfield]
      exact ha'
    | some v =>
      rw [Spec.length_write_some] at hn hk
      obtain ⟨k, rfl⟩ : ∃ j, k = j + 1 := ⟨k - 1, by omega⟩
      have htype : whole.typeOf fid = some type :=
        (hwhole fid List.mem_cons_self).trans (if_pos rfl)
      obtain ⟨b, hb, hread⟩ := hstep htype hwfType (hfits.1 v rfl) (by omega) ha
        (hnone fid List.mem_cons_self)
      obtain ⟨a', ha', heval⟩ := Spec.eval_readFields_sees hstep rest hwfRest hwholeRest values hfits.2
        (by omega) (k := k) (by omega) hb fun id hid => by
          rw [Function.update_of_ne (hother id hid)]
          exact hnoneRest id hid
      refine ⟨a', ?_, fun s => ?_⟩
      · have hfield : (fun id => ((Spec.cons fid var type rest).field (some v, values) id).or (f id)) =
            fun id => (rest.field values id).or (Function.update f fid (some ⟨type, v⟩) id) := by
          funext id
          rw [Spec.field]
          split
          · next heq =>
            rw [heq, rest.field_of_notMem values hnot, Function.update_self]
            rfl
          · next hne => rw [Function.update_of_ne hne]
        rw [hfield]
        exact ha'
      · rw [Spec.write_some,
          eval_readFields_field hfid (hread (rest.write values ++ s)) var k]
        exact heval s

mutual

theorem FieldType.eval_sees {n : ℕ} : (type' : FieldType) → type'.WellFormed → {type : FieldType} →
    type'.Reads type → type.WellFormed → (value : type.Val) → type.Fits value →
    (type.write value).length ≤ n →
    ∃ value', type'.Sees type value value' ∧
      ∀ s, (type'.read n).eval (type.write value ++ s) = .ok (value', s)
  | .bool, _, .bool, _, hwf, value, hfits, hn =>
    ⟨value, rfl, FieldType.eval_read .bool hwf value hfits hn⟩
  | .byte, _, .byte, _, hwf, value, hfits, hn =>
    ⟨value, rfl, FieldType.eval_read .byte hwf value hfits hn⟩
  | .i32, _, .i32, _, hwf, value, hfits, hn =>
    ⟨value, rfl, FieldType.eval_read .i32 hwf value hfits hn⟩
  | .string, _, .string, _, hwf, value, hfits, hn =>
    ⟨value, rfl, FieldType.eval_read .string hwf value hfits hn⟩
  | .map, _, .map, _, hwf, value, hfits, hn =>
    ⟨value, rfl, FieldType.eval_read .map hwf value hfits hn⟩
  | .list elem', hwf', .list elem, hreads, hwf, values, hfits, hn => by
    rw [FieldType.write, List.length_append] at hn
    obtain ⟨values', hsees, heval⟩ := eval_times_forall₂ fun value hvalue => by
      have hle : (elem.write value).length ≤ (values.flatMap elem.write).length :=
        length_le_flatMap hvalue
      exact elem'.eval_sees (n := n) hwf' hreads hwf value (hfits.2 value hvalue) (by omega)
    refine ⟨values', hsees, fun s => ?_⟩
    rw [FieldType.read, FieldType.write, List.append_assoc,
      eval_bind_of_ok (eval_readListBegin (inRange_of_mem_known elem.code_mem_known).1 hfits.1 _)]
    exact heval s
  | .struct spec', hwf', .struct spec, hreads, hwf, object, hfits, hn => by
    obtain ⟨object', hsees, heval⟩ := Spec.eval_readFields_sees (P := spec'.Sees)
      (fun htype hwfType hfitsValue hlength hsees hnone =>
        spec'.eval_readField_sees hwf' (fun htype' hcode => spec'.typeOf_reads hreads htype htype' hcode)
          hwfType hfitsValue hlength hsees hnone)
      spec hwf (fun _ _ => rfl) object hfits hn hn spec'.sees_blank fun _ _ => rfl
    simp only [Option.or_none] at hsees
    exact ⟨object', hsees, heval⟩

/-- A field, as it comes. -/
theorem Spec.eval_readField_sees {n : ℕ} : (spec' : Spec) → spec'.WellFormed → {type : FieldType} →
    {fid : ℤ} → (∀ {type'}, spec'.typeOf fid = some type' → type.code = type'.code → type'.Reads type) →
    type.WellFormed → {value : type.Val} → type.Fits value → (type.write value).length < n →
    {f : ℤ → Option Typed} → {object : spec'.Object} → spec'.Sees f object → f fid = none →
    ∃ object', spec'.Sees (Function.update f fid (some ⟨type, value⟩)) object' ∧
      ∀ s, (spec'.readField n type.code fid object).eval (type.write value ++ s) = .ok (object', s)
  | .nil, _, type, _, _, hwf, value, hfits, hn, _, object, _, _ => by
    refine ⟨object, trivial, fun s => ?_⟩
    rw [Spec.readField, eval_bind_of_ok (type.eval_skip hwf value hfits hn s)]
    rfl
  | .cons id var type' rest', hwf', type, fid, hreads, hwf, value, hfits, hn, f, (value', values'), hsees,
      hnone => by
    obtain ⟨⟨hid, hnot⟩, hwfType', hwfRest'⟩ := hwf'
    obtain ⟨hfield, hrest⟩ := hsees
    by_cases heq : fid = id
    · subst heq
      -- the field itself; none of the others has its id
      have hother : ∀ i ∈ rest'.fids, i ≠ fid := fun i hi heq => hnot (heq ▸ hi)
      have hrest' : rest'.Sees (Function.update f fid (some ⟨type, value⟩)) values' :=
        rest'.sees_congr (fun i hi => (Function.update_of_ne (hother i hi) _ _).symm) values' hrest
      by_cases hcode : type.code = type'.code
      · obtain ⟨v', hv', heval⟩ := type'.eval_sees (n := n) hwfType' (hreads (if_pos rfl) hcode) hwf value
          hfits (Nat.le_of_lt hn)
        refine ⟨(some v', values'), ⟨?_, hrest'⟩, fun s => ?_⟩
        · rw [Function.update_self, SeesField, if_pos hcode]
          exact ⟨v', rfl, hv'⟩
        · rw [Spec.readField, if_pos rfl, if_pos hcode, eval_bind_of_ok (heval s)]
          rfl
      · refine ⟨(value', values'), ⟨?_, hrest'⟩, fun s => ?_⟩
        · rw [hnone] at hfield
          rw [Function.update_self, SeesField, if_neg hcode]
          exact hfield
        · rw [Spec.readField, if_pos rfl, if_neg hcode,
            eval_bind_of_ok (type.eval_skip hwf value hfits hn s)]
          rfl
    · obtain ⟨values'', hsees', heval⟩ := rest'.eval_readField_sees hwfRest'
        (fun htype' => hreads ((if_neg heq).trans htype')) hwf hfits hn hrest hnone
      refine ⟨(value', values''), ⟨?_, hsees'⟩, fun s => ?_⟩
      · rw [Function.update_of_ne (Ne.symm heq)]
        exact hfield
      · rw [Spec.readField, if_neg heq, eval_bind_of_ok (heval s)]
        rfl

end

/-! ### Over a connection -/

/-- CORRECT: a reader of another class, for whose fields the writer's can be read, gets each field that
    was written under one of its ids with the type that it expects, and null for the others; fields
    that it does not know or that have another type are passed over, and it leaves what follows. -/
theorem read_other {c c' : Class} (hreads : c'.spec.Reads c.spec) {object : c.spec.Object}
    (hfits : c.spec.Fits object) {n : ℕ} (hn : (c.spec.write object).length ≤ n) {portions : Portions}
    {more : Bytes} (hportions : portions.flatten = c.spec.write object ++ more) :
    ∃ object' later, (c'.spec.read n).run transport portions = .ok (object', later) ∧
      later.flatten = more ∧ c'.spec.Sees (c.spec.field object) object' := by
  obtain ⟨object', hsees, heval⟩ :=
    @FieldType.eval_sees n (.struct c'.spec) c'.wellFormed (.struct c.spec) hreads c.wellFormed object
      hfits hn
  obtain ⟨later, hrun, hlater⟩ := run_of_eval transport_delivers (hportions ▸ heval more)
  exact ⟨object', later, hrun, hlater, hsees⟩

/-- Of a structure, a Context has the id, the type and the permalink; the name has an id of the
    Context's, but not its type. -/
def sampleStructure : VaeDbStructure.spec.Object :=
  (some 3, some [110], some [116], some [112], ())

theorem read_other_sampleStructure : ∃ object' later,
    (VaeDbContext.spec.read 64).run transport [VaeDbStructure.spec.write sampleStructure] =
      .ok (object', later) ∧ later.flatten = [] ∧
    VaeDbContext.spec.Sees (VaeDbStructure.spec.field sampleStructure) object' :=
  @read_other VaeDbStructure VaeDbContext
    ⟨by rintro _ ⟨⟩ _; trivial, by rintro _ ⟨⟩ ⟨⟩, by rintro _ ⟨⟩ _; trivial,
      by rintro _ ⟨⟩ _; trivial, by rintro _ ⟨⟩, by rintro _ ⟨⟩, trivial⟩
    sampleStructure (by decide) 64 (by decide) [VaeDbStructure.spec.write sampleStructure] [] (by simp)

end VaeDb.Thrift
