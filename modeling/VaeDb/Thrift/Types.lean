import VaeDb.Thrift.TBinaryProtocol

/-! The generated classes: what is sent and received.

    A class has fields, each with an id, a name and a type, as its `_TSPEC` lists them. `write` writes
    the fields that are not null, and a stop; `read` goes through fields in whatever order, keeps those
    of its own that have the expected type, and skips the others. The two are one function of the
    table each, as the generator of the classes has it.

        spec     1 id i32 │ 2 contexts list<struct …>
        object   some 7   │ none
        bytes    8 │ 0 1 │ 0 0 0 7 │ 0                                                              -/

namespace VaeDb.Thrift
open Schemes

/-! ### Values -/

/-- An `array` of strings by strings: the keys in the order in which they were first assigned. -/
@[ext]
structure PhpArray where
  entries : List (Bytes × Bytes)
  nodup : (entries.map Prod.fst).Nodup

namespace PhpArray

def empty : PhpArray := ⟨[], List.nodup_nil⟩

def assignEntries (entries : List (Bytes × Bytes)) (key val : Bytes) : List (Bytes × Bytes) :=
  if key ∈ entries.map Prod.fst then entries.map fun e => if e.1 = key then (key, val) else e
  else entries ++ [(key, val)]

theorem nodup_assignEntries {entries : List (Bytes × Bytes)} (h : (entries.map Prod.fst).Nodup)
    (key val : Bytes) : ((assignEntries entries key val).map Prod.fst).Nodup := by
  rw [assignEntries]
  split
  · have hkeys : (entries.map fun e => if e.1 = key then (key, val) else e).map Prod.fst =
        entries.map Prod.fst := by
      rw [List.map_map]
      refine List.map_congr_left fun e _ => ?_
      rw [Function.comp_apply]
      split
      · next heq => exact heq.symm
      · rfl
    rwa [hkeys]
  · next hkey =>
    rw [List.map_append]
    exact List.nodup_append.mpr ⟨h, by simp, fun a ha b hb => by
      simp only [List.map_cons, List.map_nil, List.mem_singleton] at hb
      exact fun heq => hkey (hb ▸ heq ▸ ha)⟩

/-- `$array[$key] = $val` -/
def assign (array : PhpArray) (key val : Bytes) : PhpArray :=
  ⟨assignEntries array.entries key val, nodup_assignEntries array.nodup key val⟩

end PhpArray

mutual

/-- The types of fields; a map has strings for its keys and its values. -/
inductive FieldType where
  | bool
  | byte
  | i32
  | string
  | map
  | list (elem : FieldType)
  | struct (spec : Spec)

/-- `_TSPEC` -/
inductive Spec where
  | nil
  | cons (fid : ℤ) (var : String) (type : FieldType) (rest : Spec)

end

def FieldType.code : FieldType → ℤ
  | bool => TType.BOOL
  | byte => TType.BYTE
  | i32 => TType.I32
  | string => TType.STRING
  | map => TType.MAP
  | list _ => TType.LST
  | struct _ => TType.STRUCT

mutual

@[reducible] def FieldType.Val : FieldType → Type
  | .bool => Bool
  | .byte => ℤ
  | .i32 => ℤ
  | .string => Bytes
  | .map => PhpArray
  | .list elem => List elem.Val
  | .struct spec => spec.Object

/-- The objects of a class; `none` is null. -/
@[reducible] def Spec.Object : Spec → Type
  | .nil => Unit
  | .cons _ _ type rest => Option type.Val × rest.Object

end

/-- A value with its type. -/
abbrev Typed := (type : FieldType) × type.Val

/-- `new`: all fields are null. -/
def Spec.blank : (spec : Spec) → spec.Object
  | .nil => ()
  | .cons _ _ _ rest => (none, rest.blank)

def Spec.fids : Spec → List ℤ
  | .nil => []
  | .cons fid _ _ rest => fid :: rest.fids

/-! ### Writing -/

def writeEntry (e : Bytes × Bytes) : Bytes := writeString e.1 ++ writeString e.2

mutual

def FieldType.write : (type : FieldType) → type.Val → Bytes
  | .bool, value => writeBool value
  | .byte, value => writeByte value
  | .i32, value => writeI32 value
  | .string, value => writeString value
  | .map, array =>
    writeMapBegin TType.STRING TType.STRING array.entries.length ++ array.entries.flatMap writeEntry
  | .list elem, values => writeListBegin elem.code values.length ++ values.flatMap elem.write
  | .struct spec, object => spec.write object

def Spec.write : (spec : Spec) → spec.Object → Bytes
  | .nil, _ => writeFieldStop
  | .cons fid var type rest, (value, values) =>
    (match value with
      | none => []
      | some value => writeFieldBegin var type.code fid ++ type.write value) ++ rest.write values

end

/-! ### Reading -/

def readEntry : Read (Bytes × Bytes) := do
  let key ← readString
  let val ← readString
  pure (key, val)

mutual

def FieldType.read (n : ℕ) : (type : FieldType) → Read type.Val
  | .bool => readBool
  | .byte => readByte
  | .i32 => readI32
  | .string => readString
  | .map => readMapBegin >>= fun (_, _, size) =>
    Reading.times readEntry size.toNat >>= fun entries =>
      pure (entries.foldl (fun array e => array.assign e.1 e.2) PhpArray.empty)
  | .list elem => readListBegin >>= fun (_, size) => Reading.times (elem.read n) size.toNat
  | .struct spec => readFields n (spec.readField n) spec.blank

/-- `switch ($fid)` -/
def Spec.readField (n : ℕ) : (spec : Spec) → (ftype fid : ℤ) → spec.Object → Read spec.Object
  | .nil, ftype, _, object => skip n ftype >>= fun _ => pure object
  | .cons id _ type rest, ftype, fid, (value, values) =>
    if fid = id then
      if ftype = type.code then type.read n >>= fun value => pure (some value, values)
      else skip n ftype >>= fun _ => pure (value, values)
    else rest.readField n ftype fid values >>= fun values => pure (value, values)

end

def Spec.read (n : ℕ) (spec : Spec) : Read spec.Object := readFields n (spec.readField n) spec.blank

/-! ### Well-formed classes -/

mutual

def FieldType.WellFormed : FieldType → Prop
  | .bool => True
  | .byte => True
  | .i32 => True
  | .string => True
  | .map => True
  | .list elem => elem.WellFormed
  | .struct spec => spec.WellFormed

/-- The ids are those of an `i16`, and no two fields have one id. -/
def Spec.WellFormed : Spec → Prop
  | .nil => True
  | .cons fid _ type rest =>
    (InRange 15 fid ∧ fid ∉ rest.fids) ∧ type.WellFormed ∧ rest.WellFormed

end

mutual

def FieldType.decidableWellFormed : (type : FieldType) → Decidable type.WellFormed
  | .bool => .isTrue trivial
  | .byte => .isTrue trivial
  | .i32 => .isTrue trivial
  | .string => .isTrue trivial
  | .map => .isTrue trivial
  | .list elem => elem.decidableWellFormed
  | .struct spec => spec.decidableWellFormed

def Spec.decidableWellFormed : (spec : Spec) → Decidable spec.WellFormed
  | .nil => .isTrue trivial
  | .cons _ _ type rest =>
    have := type.decidableWellFormed
    have := rest.decidableWellFormed
    inferInstanceAs (Decidable ((_ ∧ _) ∧ _ ∧ _))

end

instance (spec : Spec) : Decidable spec.WellFormed := spec.decidableWellFormed

/-- A generated class. -/
structure Class where
  spec : Spec
  wellFormed : spec.WellFormed

/-! ### The classes of `Types.php` -/

def VaeDbInternalError : Class := ⟨.cons 1 "message" .string .nil, by decide⟩
def VaeDbQueryError : Class := ⟨.cons 1 "message" .string .nil, by decide⟩
def VaeSyntaxError : Class := ⟨.cons 1 "message" .string .nil, by decide⟩

def VaeDbContext : Class where
  spec := .cons 1 "id" .i32 <| .cons 2 "structure_id" .i32 <| .cons 3 "type" .string <|
    .cons 4 "permalink" .string <| .cons 5 "data" .string <| .cons 6 "dataMap" .map .nil
  wellFormed := by decide

def VaeDbCreateInfo : Class :=
  ⟨.cons 1 "structure_id" .i32 <| .cons 2 "row_id" .i32 .nil, by decide⟩

def VaeDbStructure : Class where
  spec := .cons 1 "id" .i32 <| .cons 2 "name" .string <| .cons 3 "type" .string <|
    .cons 4 "permalink" .string .nil
  wellFormed := by decide

def VaeDbResponseForContext : Class where
  spec := .cons 1 "contexts" (.list (.struct VaeDbContext.spec)) <| .cons 2 "totalItems" .i32 .nil
  wellFormed := by decide

def VaeDbResponse : Class where
  spec := .cons 1 "id" .i32 <|
    .cons 2 "contexts" (.list (.struct VaeDbResponseForContext.spec)) .nil
  wellFormed := by decide

def VaeDbCreateInfoResponse : Class :=
  ⟨.cons 1 "contexts" (.list (.struct VaeDbCreateInfo.spec)) .nil, by decide⟩

def VaeDbDataForContext : Class := ⟨.cons 1 "data" .map .nil, by decide⟩

def VaeDbDataResponse : Class :=
  ⟨.cons 1 "contexts" (.list (.struct VaeDbDataForContext.spec)) .nil, by decide⟩

def VaeDbStructureResponse : Class :=
  ⟨.cons 1 "contexts" (.list (.struct VaeDbStructure.spec)) .nil, by decide⟩

def VaeDbOpenSessionResponse : Class :=
  ⟨.cons 1 "session_id" .i32 <| .cons 2 "generation" .i32 .nil, by decide⟩

end VaeDb.Thrift
