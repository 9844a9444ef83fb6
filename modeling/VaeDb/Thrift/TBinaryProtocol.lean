import Mathlib.Data.List.Induction
import Mathlib.Tactic.LinearCombination
import VaeDb.Schemes.Reading

/-! The binary protocol: how values stand on the wire.

    Integers are packed with the most significant byte first, a string follows its length, and a field
    is announced by its type and its id. Reading demands bytes of the transport, which collects them
    from the portions they arrive in; `skip` goes over a value of a type it is told, and throws where
    there is no such type. A loop of the source that only the bytes can end is given a number of
    rounds, and fails as `endless` should they run out.

        field    type │ id id │ value …      string   len len len len │ bytes …
        struct   field … field │ STOP        list     type │ size ×4 │ value …                      -/

namespace VaeDb.Thrift
open Schemes

abbrev Bytes := List UInt8

/-- What reading throws by itself: a `TProtocolException`, with its message and its code. -/
inductive Failure where
  | protocol (message : String) (code : ℤ)
  | endless
  deriving DecidableEq

abbrev Read := Reading UInt8 Failure

/-! ### The transport -/

/-- What is still to arrive, in the portions it arrives in. -/
abbrev Portions := List Bytes

/-- `TSocket::read`: at most `len` bytes, as soon as there are any; it throws when nothing more
    arrives. -/
def TSocket.read (len : ℕ) : Portions → Option (Bytes × Portions)
  | [] => none
  | data :: later =>
    if data.length ≤ len then some (data, later) else some (data.take len, data.drop len :: later)

/-- `TTransport::readAll`, from the round on in which it has `data`. -/
def TTransport.readAll (len : ℕ) (data : Bytes) : Portions → Option (Bytes × Portions)
  | [] => if data.length < len then none else some (data, [])
  | more :: later =>
    if data.length < len then
      if more.length ≤ len - data.length then TTransport.readAll len (data ++ more) later
      else some (data ++ more.take (len - data.length), more.drop (len - data.length) :: later)
    else some (data, more :: later)

/-- A round of the loop: `$data .= $this->read($len - $got)`. -/
theorem TTransport.readAll_eq (len : ℕ) (data : Bytes) (portions : Portions) :
    TTransport.readAll len data portions =
      if data.length < len then
        (TSocket.read (len - data.length) portions).bind fun (more, later) =>
          TTransport.readAll len (data ++ more) later
      else some (data, portions) := by
  cases portions with
  | nil => rfl
  | cons more later =>
    rw [TTransport.readAll]
    split
    · rw [TSocket.read]
      split
      · rfl
      · next hlt hmore =>
        -- the round that completes the data is the last one
        have hdone : ¬ (data ++ more.take (len - data.length)).length < len := by
          rw [List.length_append, List.length_take_of_le (by omega)]
          omega
        change _ = TTransport.readAll len (data ++ more.take (len - data.length)) _
        rw [TTransport.readAll, if_neg hdone]
    · rfl

/-- A socket, with its `readAll`. -/
def transport : Transport UInt8 Portions where
  readAll len := TTransport.readAll len []

/-- What the rounds gather is the data so far and what is missing of it, and the rest stays. -/
theorem TTransport.readAll_gathers (portions : Portions) {len : ℕ} {data : Bytes}
    (hdata : data.length ≤ len) :
    (len - data.length ≤ portions.flatten.length → ∃ later,
        TTransport.readAll len data portions =
          some (data ++ portions.flatten.take (len - data.length), later) ∧
        later.flatten = portions.flatten.drop (len - data.length)) ∧
      (portions.flatten.length < len - data.length → TTransport.readAll len data portions = none) := by
  induction portions generalizing data with
  | nil =>
    rw [TTransport.readAll]
    refine ⟨fun hlen => ⟨[], ?_, ?_⟩, fun hlen => if_pos (by simp at hlen; omega)⟩
    · rw [if_neg (by simp at hlen; omega), List.flatten_nil, List.take_nil, List.append_nil]
    · rw [List.flatten_nil, List.drop_nil]
  | cons more later ih =>
    rw [TTransport.readAll, List.flatten_cons]
    by_cases hlt : data.length < len
    · rw [if_pos hlt]
      by_cases hmore : more.length ≤ len - data.length
      · -- the portion is taken whole, and the rounds go on
        rw [if_pos hmore]
        have hsub : len - (data ++ more).length = len - data.length - more.length := by
          rw [List.length_append]
          omega
        obtain ⟨henough, hshort⟩ := @ih (data ++ more) (by rw [List.length_append]; omega)
        rw [hsub] at henough hshort
        rw [List.length_append, List.take_append, List.take_of_length_le hmore, List.drop_append,
          List.drop_of_length_le hmore, List.nil_append]
        refine ⟨fun hlen => ?_, fun hlen => hshort (by omega)⟩
        obtain ⟨after, hread, hrest⟩ := henough (by omega)
        exact ⟨after, by rw [hread, List.append_assoc], hrest⟩
      · rw [if_neg hmore]
        rw [List.take_append_of_le_length (by omega), List.drop_append_of_le_length (by omega)]
        refine ⟨fun _ => ⟨_, rfl, rfl⟩, fun hlen => ?_⟩
        rw [List.length_append] at hlen
        omega
    · obtain rfl : data.length = len := by omega
      rw [if_neg hlt]
      exact ⟨fun _ => ⟨more :: later, by simp, by simp⟩, fun hlen => by omega⟩

/-- However they are portioned, the bytes are delivered. -/
theorem transport_delivers : transport.Delivers List.flatten := by
  intro len portions
  have h := @TTransport.readAll_gathers portions len [] (Nat.zero_le _)
  simpa [transport] using h

/-! ### Integers -/

/-- `pack`: the last `k` bytes of an integer. -/
def pack : ℕ → ℤ → Bytes
  | 0, _ => []
  | k + 1, value => pack k (value / 256) ++ [UInt8.ofNat (value % 256).toNat]

/-- `unpack`, without a sign. -/
def unpack (data : Bytes) : ℕ := data.foldl (fun value b => value * 256 + b.toNat) 0

/-- `if ($value > $half) $value = 0 - (($value - 1) ^ $mask)` -/
def signed (half mask value : ℕ) : ℤ :=
  if half < value then 0 - (((value - 1) ^^^ mask : ℕ) : ℤ) else value

theorem length_pack (k : ℕ) (value : ℤ) : (pack k value).length = k := by
  induction k generalizing value with
  | zero => rfl
  | succ k ih => rw [pack, List.length_append, ih, List.length_singleton]

theorem unpack_append (data : Bytes) (b : UInt8) : unpack (data ++ [b]) = unpack data * 256 + b.toNat := by
  rw [unpack, unpack, List.foldl_append]
  rfl

theorem unpack_lt (data : Bytes) : unpack data < 256 ^ data.length := by
  induction data using List.reverseRecOn with
  | nil => simp [unpack]
  | append_singleton data b ih =>
    have hb := b.toNat_lt
    rw [unpack_append, List.length_append, List.length_singleton, pow_succ]
    omega

/-- Unpacking gives back what was packed, but for the bytes in front of it. -/
theorem unpack_pack (k : ℕ) (value : ℤ) : (unpack (pack k value) : ℤ) = value % 256 ^ k := by
  induction k generalizing value with
  | zero => simp [pack, unpack]
  | succ k ih =>
    have hlow : ((UInt8.ofNat (value % 256).toNat).toNat : ℤ) = value % 256 := by
      rw [UInt8.toNat_ofNat']
      omega
    have hpos : (0 : ℤ) < 256 ^ k := Int.pow_pos (by decide)
    have hsplit := Int.emod_add_mul_ediv value 256
    have hrest := Int.emod_add_mul_ediv (value / 256) (256 ^ k)
    have hvalue : value = value / 256 % 256 ^ k * 256 + value % 256 +
        256 ^ k * 256 * (value / 256 / 256 ^ k) := by
      linear_combination -hsplit - 256 * hrest
    have hlt := Int.emod_lt_of_pos (value / 256) hpos
    have hnonneg := Int.emod_nonneg (value / 256) (Int.ne_of_gt hpos)
    rw [pack, unpack_append, Nat.cast_add, Nat.cast_mul, ih, hlow, Int.pow_succ]
    conv_rhs => rw [hvalue, Int.add_mul_emod_self_left]
    exact (Int.emod_eq_of_lt (by omega) (by omega)).symm

theorem xor_mask {w value : ℕ} (h : value < 2 ^ w) : value ^^^ (2 ^ w - 1) = 2 ^ w - 1 - value := by
  have hnot := @BitVec.toNat_not w (BitVec.ofNat w value)
  rw [← BitVec.xor_allOnes, BitVec.toNat_xor, BitVec.toNat_allOnes, BitVec.toNat_ofNat,
    Nat.mod_eq_of_lt h] at hnot
  exact hnot

/-- The sign of an integer, by its first bit. -/
theorem signed_eq {w value : ℕ} (h : value < 2 ^ (w + 1)) :
    signed (2 ^ w - 1) (2 ^ (w + 1) - 1) value = (value : ℤ).bmod (2 ^ (w + 1)) := by
  have hpos : 0 < 2 ^ w := Nat.two_pow_pos w
  have hmod : (value : ℤ) % ((2 ^ (w + 1) : ℕ) : ℤ) = value :=
    Int.emod_eq_of_lt (Int.natCast_nonneg _) (Int.ofNat_lt.mpr h)
  rw [signed, Int.bmod, hmod]
  rw [Nat.pow_succ] at h ⊢
  split
  · next hhalf =>
    rw [← Nat.pow_succ, xor_mask (by rw [Nat.pow_succ]; omega), Nat.pow_succ, if_neg (by omega)]
    omega
  · rw [if_pos (by omega)]

/-- What `pack` leaves of an integer, read with its sign. -/
theorem signed_unpack_pack (k : ℕ) {w : ℕ} (hw : 8 * k = w + 1) (value : ℤ) :
    signed (2 ^ w - 1) (2 ^ (w + 1) - 1) (unpack (pack k value)) = value.bmod (2 ^ (w + 1)) := by
  have hbase : 256 ^ k = 2 ^ (w + 1) := by
    rw [← hw, Nat.pow_mul]
  have hlt := unpack_lt (pack k value)
  rw [length_pack, hbase] at hlt
  rw [signed_eq hlt, unpack_pack]
  have hcast : (256 : ℤ) ^ k = ((2 ^ (w + 1) : ℕ) : ℤ) := by
    rw [← hbase]
    simp
  rw [hcast, Int.emod_bmod]

/-! ### Values -/

namespace TType

def STOP : ℤ := 0
def BOOL : ℤ := 2
def BYTE : ℤ := 3
def DOUBLE : ℤ := 4
def I16 : ℤ := 6
def I32 : ℤ := 8
def I64 : ℤ := 10
def STRING : ℤ := 11
def STRUCT : ℤ := 12
def MAP : ℤ := 13
def SET : ℤ := 14
def LST : ℤ := 15

end TType

def writeBool (value : Bool) : Bytes := pack 1 (if value then 1 else 0)
def writeByte (value : ℤ) : Bytes := pack 1 value
def writeI16 (value : ℤ) : Bytes := pack 2 value
def writeI32 (value : ℤ) : Bytes := pack 4 value
def writeString (value : Bytes) : Bytes := writeI32 value.length ++ value

def writeFieldBegin (_fieldName : String) (fieldType fieldId : ℤ) : Bytes :=
  writeByte fieldType ++ writeI16 fieldId

def writeFieldStop : Bytes := writeByte TType.STOP

def writeMapBegin (keyType valType size : ℤ) : Bytes :=
  writeByte keyType ++ writeByte valType ++ writeI32 size

def writeListBegin (elemType size : ℤ) : Bytes := writeByte elemType ++ writeI32 size

/-- `unpack` with `c` has a sign. -/
def readByte : Read ℤ := do
  let data ← Reading.readAll 1
  pure (signed 0x7f 0xff (unpack data))

def readBool : Read Bool := do
  let value ← readByte
  pure (value == 1)

def readI16 : Read ℤ := do
  let data ← Reading.readAll 2
  pure (signed 0x7fff 0xffff (unpack data))

def readI32 : Read ℤ := do
  let data ← Reading.readAll 4
  pure (signed 0x7fffffff 0xffffffff (unpack data))

def readI64 : Read ℤ := do
  let data ← Reading.readAll 8
  let high := unpack (data.take 4)
  let low := unpack (data.drop 4)
  if high &&& 0x80000000 ≠ 0 then
    pure (0 - (high ^^^ 0xffffffff : ℕ) * 4294967296 - (low ^^^ 0xffffffff : ℕ) - 1)
  else pure (high * 4294967296 + low)

/-- The eight bytes; nothing here has a use for their value. -/
def readDouble : Read Bytes := Reading.readAll 8

/-- Of a negative length no byte is demanded. -/
def readString : Read Bytes := do
  let len ← readI32
  Reading.readAll len.toNat

def readFieldBegin : Read (ℤ × ℤ) := do
  let fieldType ← readByte
  if fieldType = TType.STOP then pure (fieldType, 0)
  else do
    let fieldId ← readI16
    pure (fieldType, fieldId)

def readMapBegin : Read (ℤ × ℤ × ℤ) := do
  let keyType ← readByte
  let valType ← readByte
  let size ← readI32
  pure (keyType, valType, size)

/-- `readListBegin`, and `readSetBegin`. -/
def readListBegin : Read (ℤ × ℤ) := do
  let elemType ← readByte
  let size ← readI32
  pure (elemType, size)

/-- The fields of a struct, up to the one that stops it: what each of them, with its type and its id,
    makes of the values so far. -/
def readFields {α : Type} (n : ℕ) (field : ℤ → ℤ → α → Read α) (values : α) : Read α :=
  Reading.rounds .endless (fun values => do
    let (ftype, fid) ← readFieldBegin
    if ftype = TType.STOP then pure (.inl values)
    else do
      let values ← field ftype fid values
      pure (.inr values)) n values

def unknownFieldType (type : ℤ) : Failure := .protocol ("Unknown field type: " ++ toString type) 1

/-- `TProtocol::skip`. -/
def skip : ℕ → ℤ → Read Unit
  | 0, _ => .fail .endless
  | n + 1, type =>
    if type = TType.BOOL then readBool >>= fun _ => pure ()
    else if type = TType.BYTE then readByte >>= fun _ => pure ()
    else if type = TType.I16 then readI16 >>= fun _ => pure ()
    else if type = TType.I32 then readI32 >>= fun _ => pure ()
    else if type = TType.I64 then readI64 >>= fun _ => pure ()
    else if type = TType.DOUBLE then readDouble >>= fun _ => pure ()
    else if type = TType.STRING then readString >>= fun _ => pure ()
    else if type = TType.STRUCT then readFields (n + 1) (fun ftype _ _ => skip n ftype) ()
    else if type = TType.MAP then
      readMapBegin >>= fun (keyType, valType, size) =>
        Reading.times (skip n keyType >>= fun _ => skip n valType) size.toNat >>= fun _ => pure ()
    else if type = TType.SET ∨ type = TType.LST then
      readListBegin >>= fun (elemType, size) =>
        Reading.times (skip n elemType) size.toNat >>= fun _ => pure ()
    else .fail (unknownFieldType type)

/-! ### Messages -/

inductive TMessageType where
  | CALL
  | REPLY
  | EXCEPTION
  | ONEWAY
  deriving DecidableEq

def TMessageType.code : TMessageType → ℕ
  | CALL => 1
  | REPLY => 2
  | EXCEPTION => 3
  | ONEWAY => 4

def VERSION_MASK : ℕ := 0xffff0000
def VERSION_1 : ℕ := 0x80010000

def writeMessageBegin (strictWrite : Bool) (name : Bytes) (type : TMessageType) (seqid : ℤ) : Bytes :=
  if strictWrite then
    writeI32 (VERSION_1 ||| type.code : ℕ) ++ writeString name ++ writeI32 seqid
  else writeString name ++ writeByte type.code ++ writeI32 seqid

/-- Of a negative integer the last 32 bits decide. -/
def readMessageBegin (strictRead : Bool) : Read (Bytes × ℤ × ℤ) := do
  let sz ← readI32
  if sz < 0 then
    let bits := (sz % 0x100000000).toNat
    if bits &&& VERSION_MASK ≠ VERSION_1 then
      .fail (.protocol ("Bad version identifier: " ++ toString sz) 4)
    else do
      let name ← readString
      let seqid ← readI32
      pure (name, (bits &&& 0xff : ℕ), seqid)
  else if strictRead then
    .fail (.protocol "No version identifier, old protocol client?" 4)
  else do
    let name ← Reading.readAll sz.toNat
    let type ← readByte
    let seqid ← readI32
    pure (name, type, seqid)

/-! ### Reading what was written -/

open Reading

theorem eval_readAll_pack (k : ℕ) (value : ℤ) (s : Bytes) :
    (Reading.readAll k : Read Bytes).eval (pack k value ++ s) = .ok (pack k value, s) := by
  have h := @eval_readAll_append UInt8 Failure (pack k value) s
  rwa [length_pack] at h

/-- What is packed in `8 * k` bits is read with its sign. -/
theorem eval_signed_pack (k : ℕ) {w : ℕ} (hw : 8 * k = w + 1) (value : ℤ) (s : Bytes) :
    (Reading.readAll k >>= fun data => pure (signed (2 ^ w - 1) (2 ^ (w + 1) - 1) (unpack data)) :
      Read ℤ).eval (pack k value ++ s) = .ok (value.bmod (2 ^ (w + 1)), s) := by
  rw [eval_bind_of_ok (eval_readAll_pack k value s), eval_pure, signed_unpack_pack k hw]

theorem eval_readByte (value : ℤ) (s : Bytes) :
    readByte.eval (writeByte value ++ s) = .ok (value.bmod 0x100, s) :=
  eval_signed_pack 1 (w := 7) rfl value s

theorem eval_readI16 (value : ℤ) (s : Bytes) :
    readI16.eval (writeI16 value ++ s) = .ok (value.bmod 0x10000, s) :=
  eval_signed_pack 2 (w := 15) rfl value s

theorem eval_readI32 (value : ℤ) (s : Bytes) :
    readI32.eval (writeI32 value ++ s) = .ok (value.bmod 0x100000000, s) :=
  eval_signed_pack 4 (w := 31) rfl value s

theorem eval_readBool (value : Bool) (s : Bytes) :
    readBool.eval (writeBool value ++ s) = .ok (value, s) := by
  rw [readBool, writeBool, ← writeByte, eval_bind_of_ok (eval_readByte _ s)]
  cases value <;> rfl

/-- The integers that a field of `w + 1` bits holds. -/
def InRange (w : ℕ) (value : ℤ) : Prop := -2 ^ w ≤ value ∧ value < 2 ^ w

instance (w : ℕ) (value : ℤ) : Decidable (InRange w value) :=
  inferInstanceAs (Decidable (_ ∧ _))

theorem bmod_of_inRange {w : ℕ} {value : ℤ} (h : InRange w value) :
    value.bmod (2 ^ (w + 1)) = value := by
  obtain ⟨hlow, hhigh⟩ := h
  rw [Int.bmod_eq_of_le]
  · push_cast
    rw [Int.pow_succ]
    omega
  · push_cast
    rw [Int.pow_succ]
    omega

/-- Sizes and lengths that an `i32` holds. -/
def Countable (len : ℕ) : Prop := len < 2 ^ 31

instance (len : ℕ) : Decidable (Countable len) := inferInstanceAs (Decidable (len < 2 ^ 31))

theorem Countable.inRange {len : ℕ} (h : Countable len) : InRange 31 len := by
  rw [Countable] at h
  constructor
  · omega
  · exact_mod_cast h

theorem eval_readI32_of_inRange {value : ℤ} (h : InRange 31 value) (s : Bytes) :
    readI32.eval (writeI32 value ++ s) = .ok (value, s) := by
  have hmod : value.bmod 0x100000000 = value := bmod_of_inRange h
  rw [eval_readI32, hmod]

theorem eval_readByte_of_inRange {value : ℤ} (h : InRange 7 value) (s : Bytes) :
    readByte.eval (writeByte value ++ s) = .ok (value, s) := by
  have hmod : value.bmod 0x100 = value := bmod_of_inRange h
  rw [eval_readByte, hmod]

theorem eval_readString {value : Bytes} (h : Countable value.length) (s : Bytes) :
    readString.eval (writeString value ++ s) = .ok (value, s) := by
  rw [readString, writeString, List.append_assoc,
    eval_bind_of_ok (eval_readI32_of_inRange h.inRange _), Int.toNat_natCast]
  exact eval_readAll_append value s

theorem eval_readFieldStop (s : Bytes) :
    readFieldBegin.eval (writeFieldStop ++ s) = .ok ((TType.STOP, 0), s) := by
  rw [readFieldBegin, writeFieldStop, eval_bind_of_ok (eval_readByte_of_inRange (by decide) s)]
  rfl

theorem eval_readFieldBegin {fieldType fieldId : ℤ} (htype : InRange 7 fieldType)
    (hstop : fieldType ≠ TType.STOP) (hid : InRange 15 fieldId) (name : String) (s : Bytes) :
    readFieldBegin.eval (writeFieldBegin name fieldType fieldId ++ s) = .ok ((fieldType, fieldId), s) := by
  have hmod : fieldId.bmod 0x10000 = fieldId := bmod_of_inRange hid
  rw [readFieldBegin, writeFieldBegin, List.append_assoc,
    eval_bind_of_ok (eval_readByte_of_inRange htype _), if_neg hstop,
    eval_bind_of_ok (eval_readI16 fieldId s), hmod]
  rfl

theorem eval_readMapBegin {keyType valType : ℤ} {len : ℕ} (hkey : InRange 7 keyType)
    (hval : InRange 7 valType) (hlen : Countable len) (s : Bytes) :
    readMapBegin.eval (writeMapBegin keyType valType len ++ s) = .ok ((keyType, valType, (len : ℤ)), s) := by
  rw [readMapBegin, writeMapBegin, List.append_assoc, List.append_assoc,
    eval_bind_of_ok (eval_readByte_of_inRange hkey _),
    eval_bind_of_ok (eval_readByte_of_inRange hval _),
    eval_bind_of_ok (eval_readI32_of_inRange hlen.inRange s)]
  rfl

theorem eval_readListBegin {elemType : ℤ} {len : ℕ} (helem : InRange 7 elemType)
    (hlen : Countable len) (s : Bytes) :
    readListBegin.eval (writeListBegin elemType len ++ s) = .ok ((elemType, (len : ℤ)), s) := by
  rw [readListBegin, writeListBegin, List.append_assoc,
    eval_bind_of_ok (eval_readByte_of_inRange helem _),
    eval_bind_of_ok (eval_readI32_of_inRange hlen.inRange s)]
  rfl

/-! ### What is read, whatever the bytes -/

theorem inRange_bmod (w : ℕ) (value : ℤ) : InRange w (value.bmod (2 ^ (w + 1))) := by
  have hpos : 0 < 2 ^ (w + 1) := Nat.two_pow_pos _
  have hlow := Int.le_bmod (x := value) hpos
  have hhigh := Int.bmod_lt (x := value) hpos
  push_cast [Int.pow_succ] at hlow hhigh
  constructor <;> omega

theorem inRange_signed (k : ℕ) {w : ℕ} (hw : 8 * k = w + 1) {data : Bytes} (h : data.length = k) :
    InRange w (signed (2 ^ w - 1) (2 ^ (w + 1) - 1) (unpack data)) := by
  have hlt := unpack_lt data
  rw [h, show 256 = 2 ^ 8 from rfl, ← Nat.pow_mul, hw] at hlt
  rw [signed_eq hlt]
  exact inRange_bmod w _

theorem yields_readAll (len : ℕ) :
    Yields (fun data => data.length = len) (Reading.readAll len : Read Bytes) :=
  fun _ _ _ h => (eval_readAll_eq_ok.mp h).1

theorem yields_readByte : Yields (InRange 7) readByte :=
  (yields_readAll 1).bind fun _ h => yields_pure (inRange_signed 1 rfl h)

theorem yields_readI32 : Yields (InRange 31) readI32 :=
  (yields_readAll 4).bind fun _ h => yields_pure (inRange_signed 4 rfl h)

/-- A size is a count of so many rounds at most. -/
theorem countable_toNat {size : ℤ} (h : InRange 31 size) : Countable size.toNat := by
  obtain ⟨-, hhigh⟩ := h
  rw [Countable]
  omega

theorem yields_readString : Yields (fun value => Countable value.length) readString :=
  yields_readI32.bind fun len hlen s value r h => by
    rw [yields_readAll len.toNat s value r h]
    exact countable_toNat hlen

theorem yields_readMapBegin : Yields (fun begun => InRange 31 begun.2.2) readMapBegin :=
  yields_readByte.bind fun _ _ => yields_readByte.bind fun _ _ =>
    yields_readI32.bind fun _ hsize => yields_pure hsize

theorem yields_readListBegin : Yields (fun begun => InRange 31 begun.2) readListBegin :=
  yields_readByte.bind fun _ _ => yields_readI32.bind fun _ hsize => yields_pure hsize

/-! ### What is thrown, whatever the bytes -/

theorem takes_readByte : Takes 1 readByte := (takes_readAll 1).bind _
theorem takes_readFieldBegin : Takes 1 readFieldBegin := takes_readByte.bind _
theorem takes_readMapBegin : Takes 1 readMapBegin := takes_readByte.bind _
theorem takes_readListBegin : Takes 1 readListBegin := takes_readByte.bind _

section Thrown
variable (P : Failure → Prop) (n : ℕ)

theorem throws_readByte : Throws P n readByte :=
  (throws_readAll P n 1).map _

theorem throws_readBool : Throws P n readBool :=
  (throws_readByte P n).map _

theorem throws_readI16 : Throws P n readI16 :=
  (throws_readAll P n 2).map _

theorem throws_readI32 : Throws P n readI32 :=
  (throws_readAll P n 4).map _

theorem throws_readI64 : Throws P n readI64 :=
  (throws_readAll P n 8).bind fun data => by
    dsimp only
    split <;> exact throws_pure P n _

theorem throws_readString : Throws P n readString :=
  (throws_readI32 P n).bind fun len => throws_readAll P n len.toNat

theorem throws_readFieldBegin : Throws P n readFieldBegin :=
  (throws_readByte P n).bind fun fieldType => by
    split
    · exact throws_pure P n _
    · exact (throws_readI16 P n).map _

theorem throws_readMapBegin : Throws P n readMapBegin :=
  (throws_readByte P n).bind fun _ => (throws_readByte P n).bind fun _ =>
    (throws_readI32 P n).map _

theorem throws_readListBegin : Throws P n readListBegin :=
  (throws_readByte P n).bind fun _ => (throws_readI32 P n).map _

variable {P n}

/-- A struct is at its end before the rounds are. -/
theorem throws_readFields {α : Type} {field : ℤ → ℤ → α → Read α}
    (h : ∀ ftype fid values, Throws P n (field ftype fid values)) (values : α) :
    Throws P (n + 1) (readFields (n + 1) field values) := by
  refine throws_rounds (fun _ => takes_readFieldBegin.bind _) (fun a => ?_) values
  refine Throws.after takes_readFieldBegin (throws_readFieldBegin P (n + 1)) fun begun => ?_
  obtain ⟨ftype, fid⟩ := begun
  dsimp only
  split
  · exact throws_pure P n _
  · exact (h ftype fid a).map _

end Thrown

/-- The types that `skip` knows. -/
def TType.known : List ℤ :=
  [BOOL, BYTE, I16, I32, I64, DOUBLE, STRING, STRUCT, MAP, SET, LST]

/-- A field of an unknown type. -/
def Unknown (e : Failure) : Prop := ∃ type, type ∉ TType.known ∧ e = unknownFieldType type

/-- Going over what is not wanted ends, and throws at an unknown type only. -/
theorem throws_skip (n : ℕ) (type : ℤ) : Throws Unknown n (skip n type) := by
  induction n generalizing type with
  | zero => exact throws_zero Unknown _
  | succ n ih =>
    rw [skip]
    refine throws_ite ((throws_readBool Unknown _).map _) fun hbool => ?_
    refine throws_ite ((throws_readByte Unknown _).map _) fun hbyte => ?_
    refine throws_ite ((throws_readI16 Unknown _).map _) fun hi16 => ?_
    refine throws_ite ((throws_readI32 Unknown _).map _) fun hi32 => ?_
    refine throws_ite ((throws_readI64 Unknown _).map _) fun hi64 => ?_
    refine throws_ite ((throws_readAll Unknown _ 8).map _) fun hdouble => ?_
    refine throws_ite ((throws_readString Unknown _).map _) fun hstring => ?_
    refine throws_ite (throws_readFields (fun ftype _ _ => ih ftype) ()) fun hstruct => ?_
    refine throws_ite ?_ fun hmap => throws_ite ?_ fun hlist => throws_fail ⟨type, ?_, rfl⟩ _
    · refine Throws.after takes_readMapBegin (throws_readMapBegin Unknown _) fun begun => ?_
      exact (((ih begun.1).bind fun _ => ih begun.2.1).times begun.2.2.toNat).map _
    · refine Throws.after takes_readListBegin (throws_readListBegin Unknown _) fun begun => ?_
      exact ((ih begun.1).times begun.2.toNat).map _
    · intro hknown
      simp only [TType.known, List.mem_cons, List.not_mem_nil, or_false] at hknown
      tauto

end VaeDb.Thrift
