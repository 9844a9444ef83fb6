import VaeDb.Thrift.RoundTrip

/-! The calls of a client, and the replies to them.

    A client writes a message with the arguments of the call, and reads a message with its result: what
    the method returns, or one of the exceptions that it declares, or nothing where it returns nothing;
    a message of the type EXCEPTION has a `TApplicationException` in place of the result. The replies to
    a number of calls follow one another on the connection. Neither the name nor the number in a reply
    is looked at: that a client gets its own replies rests on every one of them being read to its end.

        calls     get │ data │ ping            replies   REPLY result │ EXCEPTION x │ REPLY result
        received  ◀── one for each call, in their order                                              -/

namespace VaeDb.Thrift
open Schemes Reading

/-! ### Messages -/

theorem eval_readMessageBegin {strictRead strictWrite : Bool} (h : strictRead = true → strictWrite = true)
    {name : Bytes} (hname : Countable name.length) (type : TMessageType) {seqid : ℤ}
    (hseqid : InRange 31 seqid) (s : Bytes) :
    (readMessageBegin strictRead).eval (writeMessageBegin strictWrite name type seqid ++ s) =
      .ok ((name, (type.code : ℤ), seqid), s) := by
  cases strictWrite with
  | true =>
    -- the version makes a negative integer, with the type in its last byte
    have hversion : ∃ sz, (((VERSION_1 ||| type.code : ℕ) : ℤ)).bmod 0x100000000 = sz ∧ sz < 0 ∧
        (sz % 0x100000000).toNat &&& VERSION_MASK = VERSION_1 ∧
        (sz % 0x100000000).toNat &&& 0xff = type.code := by
      refine ⟨_, rfl, ?_⟩
      cases type <;> decide
    obtain ⟨sz, hsz, hneg, hbits, htype⟩ := hversion
    have hread := eval_readI32 ((VERSION_1 ||| type.code : ℕ) : ℤ) (writeString name ++ (writeI32 seqid ++ s))
    rw [hsz] at hread
    rw [readMessageBegin, writeMessageBegin, if_pos rfl, List.append_assoc, List.append_assoc,
      eval_bind_of_ok hread, if_pos hneg, if_neg (not_not.mpr hbits),
      eval_bind_of_ok (eval_readString hname _), eval_bind_of_ok (eval_readI32_of_inRange hseqid s), htype]
    rfl
  | false =>
    cases strictRead with
    | true => exact absurd (h rfl) Bool.false_ne_true
    | false =>
      have htype : InRange 7 (type.code : ℤ) := by cases type <;> decide
      rw [readMessageBegin, writeMessageBegin, if_neg Bool.false_ne_true, writeString, List.append_assoc,
        List.append_assoc, List.append_assoc, eval_bind_of_ok (eval_readI32_of_inRange hname.inRange _),
        if_neg (Int.not_lt.mpr (Int.natCast_nonneg _)), if_neg Bool.false_ne_true, Int.toNat_natCast,
        eval_bind_of_ok (eval_readAll_append name _), eval_bind_of_ok (eval_readByte_of_inRange htype _),
        eval_bind_of_ok (eval_readI32_of_inRange hseqid s)]
      rfl

/-! ### The methods of `VaeDb.php` -/

/-- `none` stands for what the constructor has given: no message, and the code 0. -/
def TApplicationException : Class :=
  ⟨.cons 1 "message" .string <| .cons 2 "code" .i32 .nil, by decide⟩

/-- The exceptions that methods declare. -/
inductive Declared where
  | VaeDbInternalError
  | VaeDbQueryError
  deriving DecidableEq

def Declared.class : Declared → Class
  | .VaeDbInternalError => Thrift.VaeDbInternalError
  | .VaeDbQueryError => Thrift.VaeDbQueryError

inductive Method where
  | ping
  | closeSession
  | createInfo
  | data
  | get
  | openSession
  | resetSite
  | structure_
  | sessionCacheGet
  | sessionCacheSet
  | sessionCacheDelete
  | shortTermCacheGet
  | shortTermCacheSet
  | shortTermCacheDelete
  | longTermCacheGet
  | longTermCacheSet
  | longTermCacheDelete
  | longTermCacheEmpty
  | longTermCacheSweeperInfo
  | sitewideLock
  | sitewideUnlock
  deriving DecidableEq

namespace Method

def name : Method → String
  | ping => "ping"
  | closeSession => "closeSession"
  | createInfo => "createInfo"
  | data => "data"
  | get => "get"
  | openSession => "openSession"
  | resetSite => "resetSite"
  | structure_ => "structure"
  | sessionCacheGet => "sessionCacheGet"
  | sessionCacheSet => "sessionCacheSet"
  | sessionCacheDelete => "sessionCacheDelete"
  | shortTermCacheGet => "shortTermCacheGet"
  | shortTermCacheSet => "shortTermCacheSet"
  | shortTermCacheDelete => "shortTermCacheDelete"
  | longTermCacheGet => "longTermCacheGet"
  | longTermCacheSet => "longTermCacheSet"
  | longTermCacheDelete => "longTermCacheDelete"
  | longTermCacheEmpty => "longTermCacheEmpty"
  | longTermCacheSweeperInfo => "longTermCacheSweeperInfo"
  | sitewideLock => "sitewideLock"
  | sitewideUnlock => "sitewideUnlock"

/-- `success`; `none` where a method returns nothing. -/
def success : Method → Option FieldType
  | ping => some .byte
  | createInfo => some (.struct VaeDbCreateInfoResponse.spec)
  | data => some (.struct VaeDbDataResponse.spec)
  | get => some (.struct VaeDbResponse.spec)
  | openSession => some (.struct VaeDbOpenSessionResponse.spec)
  | structure_ => some (.struct VaeDbStructureResponse.spec)
  | sessionCacheGet => some .string
  | shortTermCacheGet => some .string
  | longTermCacheGet => some .string
  | longTermCacheSweeperInfo => some (.struct VaeDbDataForContext.spec)
  | sitewideLock => some .i32
  | sitewideUnlock => some .i32
  | _ => none

/-- The other fields of a result, by their names. -/
def throws : Method → List (String × Declared)
  | closeSession => [("e", .VaeDbInternalError)]
  | createInfo => [("ie", .VaeDbInternalError), ("qe", .VaeDbQueryError)]
  | data => [("ie", .VaeDbInternalError)]
  | get => [("ie", .VaeDbInternalError), ("qe", .VaeDbQueryError)]
  | openSession => [("e", .VaeDbInternalError)]
  | resetSite => [("e", .VaeDbInternalError)]
  | structure_ => [("ie", .VaeDbInternalError)]
  | _ => []

end Method

/-- Exceptions, numbered from 1 on. -/
def throwsSpec : ℤ → List (String × Declared) → Spec
  | _, [] => .nil
  | fid, (var, d) :: rest => .cons fid var (.struct d.class.spec) (throwsSpec (fid + 1) rest)

def resultSpec (success : Option FieldType) (throws : List (String × Declared)) : Spec :=
  match success with
  | none => throwsSpec 1 throws
  | some type => .cons 0 "success" type (throwsSpec 1 throws)

/-- `VaeDb_get_result` and the others. -/
def Method.result (m : Method) : Class := ⟨resultSpec m.success m.throws, by cases m <;> decide⟩

/-! ### Receiving -/

/-- How a call ends in the client. -/
inductive Received where
  | returned (value : Typed)
  | void
  | raised (d : Declared) (e : d.class.spec.Object)
  | application (x : TApplicationException.spec.Object)
  | unknown (message : String)

/-- `if ($result->ie !== null) throw $result->ie;`, for one exception after the other. -/
def raisedOr (otherwise : Received) :
    (fid : ℤ) → (throws : List (String × Declared)) → (throwsSpec fid throws).Object → Received
  | _, [], _ => otherwise
  | _, (_, d) :: _, (some e, _) => .raised d e
  | fid, _ :: rest, (none, es) => raisedOr otherwise (fid + 1) rest es

/-- What a client makes of a result. -/
def received (name : String) : (success : Option FieldType) → (throws : List (String × Declared)) →
    (resultSpec success throws).Object → Received
  | none, throws, es => raisedOr .void 1 throws es
  | some type, _, (some value, _) => .returned ⟨type, value⟩
  | some _, throws, (none, es) => raisedOr (.unknown (name ++ " failed: unknown result")) 1 throws es

/-- `recv_get` and the others. -/
def Method.recv (strictRead : Bool) (n : ℕ) (m : Method) : Read Received :=
  readMessageBegin strictRead >>= fun (_, mtype, _) =>
    if mtype = TMessageType.EXCEPTION.code then
      TApplicationException.spec.read n >>= fun x => pure (.application x)
    else m.result.spec.read n >>= fun result => pure (received m.name m.success m.throws result)

/-- A client that makes calls one after another, up to the first at which reading fails. -/
def receive (strictRead : Bool) (n : ℕ) :
    List Method → Portions → List Received × Except (Halt Failure) Portions
  | [], portions => ([], .ok portions)
  | m :: ms, portions =>
    match (m.recv strictRead n).run transport portions with
    | .error e => ([], .error e)
    | .ok (r, portions) =>
      let rest := receive strictRead n ms portions
      (r :: rest.1, rest.2)

/-! ### Replies -/

inductive Reply (m : Method) where
  | result (r : m.result.spec.Object)
  | exception (x : TApplicationException.spec.Object)

namespace Reply
variable {m : Method}

/-- The rest of the message. -/
def body : Reply m → Bytes
  | result r => m.result.spec.write r
  | exception x => TApplicationException.spec.write x

def type : Reply m → TMessageType
  | result _ => .REPLY
  | exception _ => .EXCEPTION

def Fits : Reply m → Prop
  | result r => m.result.spec.Fits r
  | exception x => TApplicationException.spec.Fits x

instance : (r : Reply m) → Decidable r.Fits
  | result r => inferInstanceAs (Decidable (m.result.spec.Fits r))
  | exception x => inferInstanceAs (Decidable (TApplicationException.spec.Fits x))

/-- What the caller is to get. -/
def outcome : Reply m → Received
  | result r => received m.name m.success m.throws r
  | exception x => .application x

end Reply

/-- A call with the reply to it, and what the message says of itself. -/
structure Exchange where
  method : Method
  reply : Reply method
  name : Bytes
  seqid : ℤ

namespace Exchange

def write (strictWrite : Bool) (e : Exchange) : Bytes :=
  writeMessageBegin strictWrite e.name e.reply.type e.seqid ++ e.reply.body

structure Fits (n : ℕ) (e : Exchange) : Prop where
  reply : e.reply.Fits
  name : Countable e.name.length
  seqid : InRange 31 e.seqid
  rounds : e.reply.body.length ≤ n

instance (n : ℕ) (e : Exchange) : Decidable (e.Fits n) :=
  decidable_of_iff (e.reply.Fits ∧ Countable e.name.length ∧ InRange 31 e.seqid ∧ e.reply.body.length ≤ n)
    ⟨fun ⟨hreply, hname, hseqid, hrounds⟩ => ⟨hreply, hname, hseqid, hrounds⟩,
      fun h => ⟨h.reply, h.name, h.seqid, h.rounds⟩⟩

end Exchange

variable {strictRead strictWrite : Bool} {n : ℕ}

/-- A reply is received, and no more than it is read. -/
theorem eval_recv (h : strictRead = true → strictWrite = true) {e : Exchange} (hfits : e.Fits n)
    (s : Bytes) :
    (e.method.recv strictRead n).eval (e.write strictWrite ++ s) = .ok (e.reply.outcome, s) := by
  obtain ⟨m, reply, name, seqid⟩ := e
  obtain ⟨hreply, hname, hseqid, hrounds⟩ := hfits
  rw [Method.recv, Exchange.write, List.append_assoc,
    eval_bind_of_ok (eval_readMessageBegin h hname reply.type hseqid _)]
  cases reply with
  | result r =>
    have hne : ((TMessageType.REPLY.code : ℕ) : ℤ) ≠ (TMessageType.EXCEPTION.code : ℕ) := by decide
    change (if ((TMessageType.REPLY.code : ℕ) : ℤ) = _ then _ else _ : Read Received).eval _ = _
    rw [if_neg hne]
    exact eval_bind_of_ok (m.result.eval_read hreply hrounds s)
  | exception x =>
    change (if ((TMessageType.EXCEPTION.code : ℕ) : ℤ) = _ then _ else _ : Read Received).eval _ = _
    rw [if_pos rfl]
    exact eval_bind_of_ok (TApplicationException.eval_read hreply hrounds s)

/-- The replies to the first calls. -/
theorem receive_append (h : strictRead = true → strictWrite = true) {es : List Exchange}
    (hfits : ∀ e ∈ es, e.Fits n) (ms : List Method) {portions : Portions} {more : Bytes}
    (hportions : portions.flatten = es.flatMap (Exchange.write strictWrite) ++ more) :
    ∃ later, later.flatten = more ∧
      receive strictRead n (es.map Exchange.method ++ ms) portions =
        (es.map (fun e => e.reply.outcome) ++ (receive strictRead n ms later).1,
          (receive strictRead n ms later).2) := by
  induction es generalizing portions with
  | nil => exact ⟨portions, hportions, rfl⟩
  | cons e es ih =>
    obtain ⟨he, hes⟩ := List.forall_mem_cons.mp hfits
    rw [List.flatMap_cons, List.append_assoc] at hportions
    obtain ⟨next, hrun, hnext⟩ := run_of_eval transport_delivers (hportions ▸ eval_recv h he _)
    obtain ⟨later, hlater, hreceive⟩ := ih hes hnext
    refine ⟨later, hlater, ?_⟩
    rw [List.map_cons, List.cons_append, receive, hrun]
    dsimp only
    rw [hreceive]
    rfl

/-- CORRECT: on one connection, every call gets the reply to it: what the method returned or threw, or
    the `TApplicationException` in its place, whatever the portions in which the replies arrive and
    whatever names and numbers they bear. Where the connection ends within a reply, the calls before
    that one have got theirs, and that one is cut short. -/
theorem receive_replies (h : strictRead = true → strictWrite = true) {es : List Exchange}
    (hfits : ∀ e ∈ es, e.Fits n) (portions : Portions) :
    (∀ more, portions.flatten = es.flatMap (Exchange.write strictWrite) ++ more → ∃ later,
        receive strictRead n (es.map Exchange.method) portions =
          (es.map fun e => e.reply.outcome, .ok later) ∧ later.flatten = more) ∧
      ∀ before e after part missing, es = before ++ e :: after →
        portions.flatten = before.flatMap (Exchange.write strictWrite) ++ part →
        e.write strictWrite = part ++ missing → missing ≠ [] →
        receive strictRead n (es.map Exchange.method) portions =
          (before.map fun e => e.reply.outcome, .error .cut) := by
  constructor
  · intro more hmore
    obtain ⟨later, hlater, hreceive⟩ := receive_append h hfits [] hmore
    refine ⟨later, ?_, hlater⟩
    rw [List.append_nil] at hreceive
    rw [hreceive, receive, List.append_nil]
  · rintro before e after part missing rfl hportions hpart hmissing
    have hbefore : ∀ e ∈ before, e.Fits n := fun e he => hfits e (List.mem_append_left _ he)
    have he : e.Fits n := hfits e (List.mem_append_right _ List.mem_cons_self)
    obtain ⟨later, hlater, hreceive⟩ :=
      receive_append h hbefore ((e :: after).map Exchange.method) hportions
    have hwhole : (e.method.recv strictRead n).eval (later.flatten ++ missing) =
        .ok (e.reply.outcome, []) := by
      rw [hlater, ← hpart]
      simpa using eval_recv h he []
    have hcut := run_of_eval_error transport_delivers (eval_cut hwhole hmissing)
    rw [List.map_append, hreceive, List.map_cons, receive, hcut, List.append_nil]

/-- A query error, a number that came under another name, and an exception that is not declared. -/
def sampleExchanges : List Exchange :=
  [⟨.get, .result (none, none, some (some [98], ()), ()), [103], 0⟩,
    ⟨.ping, .result (some 1, ()), [120], 7⟩,
    ⟨.sessionCacheGet, .exception (some [101], some 0, ()), [], 0⟩]

theorem receive_replies_sampleExchanges : ∃ later,
    receive false 64 [.get, .ping, .sessionCacheGet]
        [(sampleExchanges.flatMap (Exchange.write true)).take 20,
          (sampleExchanges.flatMap (Exchange.write true)).drop 20] =
      ([.raised .VaeDbQueryError (some [98], ()), .returned ⟨.byte, (1 : ℤ)⟩,
        .application (some [101], some 0, ())], .ok later) ∧ later.flatten = [] :=
  (@receive_replies false true 64 (fun _ => rfl) sampleExchanges (by decide) _).1 []
    (by simp [List.take_append_drop])

end VaeDb.Thrift
