import VaeDb.Thrift.Calls

/-! The server's side of a call: `VaeDbProcessor`.

    The processor runs the handler and puts what comes of it into a result: the value, or an exception
    of a class that the method declares. Any other `std::exception`, be it of a class that other methods
    declare, goes into a `TApplicationException` with its `what()`. The C++ Thrift library, which is not
    here, writes the messages; `what()` of an exception is the library's too.

        handler     returns v ──▶ REPLY success
                    throws ie ──▶ REPLY ie, or EXCEPTION what()
                    fails     ──▶ EXCEPTION what()                                                   -/

namespace VaeDb.Thrift

/-- What a method returns. -/
@[reducible] def Value : Option FieldType → Type
  | none => Unit
  | some type => type.Val

/-- How a method of the handler ends; `fails` is any other `std::exception`, with its `what()`. -/
inductive Handled (m : Method) where
  | returns (value : Value m.success)
  | throws (d : Declared) (message : Bytes)
  | fails (what : Bytes)

def Declared.object : (d : Declared) → Bytes → d.class.spec.Object
  | .VaeDbInternalError, message => (some message, ())
  | .VaeDbQueryError, message => (some message, ())

/-- `result.success = …; result.__isset.success = true;` -/
def successful : (success : Option FieldType) → (throws : List (String × Declared)) → Value success →
    (resultSpec success throws).Object
  | none, throws, _ => (throwsSpec 1 throws).blank
  | some _, throws, value => (some value, (throwsSpec 1 throws).blank)

/-- `catch (VaeDbInternalError &ie) { result.ie = ie; result.__isset.ie = true; }`, one clause after the
    other. -/
def caught (d : Declared) (message : Bytes) :
    (fid : ℤ) → (throws : List (String × Declared)) → Option (throwsSpec fid throws).Object
  | _, [] => none
  | fid, (_, d') :: rest =>
    if d' = d then some (some (d'.object message), (throwsSpec (fid + 1) rest).blank)
    else (caught d message (fid + 1) rest).map fun es => (none, es)

def thrown (d : Declared) (message : Bytes) :
    (success : Option FieldType) → (throws : List (String × Declared)) →
    Option (resultSpec success throws).Object
  | none, throws => caught d message 1 throws
  | some _, throws => (caught d message 1 throws).map fun es => (none, es)

/-- `TApplicationException x(e.what());` -/
def applicationException (what : Bytes) : TApplicationException.spec.Object := (some what, some 0, ())

/-- `process_get` and the others, from where the arguments have been read. -/
def process (what : Declared → Bytes → Bytes) {m : Method} : Handled m → Reply m
  | .returns value => .result (successful m.success m.throws value)
  | .throws d message =>
    (thrown d message m.success m.throws).elim (.exception (applicationException (what d message))) .result
  | .fails what => .exception (applicationException what)

/-! ### What the caller is to see -/

def seenValue : (success : Option FieldType) → Value success → Received
  | none, _ => .void
  | some type, value => .returned ⟨type, value⟩

/-- Of exceptions, those that the method declares are thrown on. -/
def Handled.seen (what : Declared → Bytes → Bytes) {m : Method} : Handled m → Received
  | .returns value => seenValue m.success value
  | .throws d message =>
    if d ∈ m.throws.map Prod.snd then .raised d (d.object message)
    else .application (applicationException (what d message))
  | .fails what => .application (applicationException what)

def FitsValue : (success : Option FieldType) → Value success → Prop
  | none, _ => True
  | some type, value => type.Fits value

def Handled.Fits (what : Declared → Bytes → Bytes) {m : Method} : Handled m → Prop
  | .returns value => FitsValue m.success value
  | .throws d message => Countable message.length ∧ Countable (what d message).length
  | .fails what => Countable what.length

theorem raisedOr_blank (otherwise : Received) (fid : ℤ) (throws : List (String × Declared)) :
    raisedOr otherwise fid throws (throwsSpec fid throws).blank = otherwise := by
  induction throws generalizing fid with
  | nil => rfl
  | cons t rest ih => exact ih (fid + 1)

theorem received_successful (name : String) (success : Option FieldType)
    (throws : List (String × Declared)) (value : Value success) :
    received name success throws (successful success throws value) = seenValue success value := by
  cases success with
  | none => exact raisedOr_blank .void 1 throws
  | some type => rfl

/-- A clause catches what the method declares, and the client throws it on. -/
theorem caught_spec (d : Declared) (message : Bytes) (otherwise : Received) (fid : ℤ)
    (throws : List (String × Declared)) :
    (d ∈ throws.map Prod.snd → ∃ es, caught d message fid throws = some es ∧
        raisedOr otherwise fid throws es = .raised d (d.object message)) ∧
      (d ∉ throws.map Prod.snd → caught d message fid throws = none) := by
  induction throws generalizing fid with
  | nil => exact ⟨fun h => (List.not_mem_nil h).elim, fun _ => rfl⟩
  | cons t rest ih =>
    obtain ⟨var, d'⟩ := t
    obtain ⟨hmem, hnot⟩ := ih (fid + 1)
    rw [List.map_cons, List.mem_cons, not_or, caught]
    by_cases hd : d' = d
    · subst hd
      rw [if_pos rfl]
      exact ⟨fun _ => ⟨_, rfl, rfl⟩, fun h => absurd rfl h.1⟩
    · rw [if_neg hd]
      refine ⟨fun h => ?_, fun h => ?_⟩
      · obtain ⟨es, hes, hraised⟩ := hmem (h.resolve_left (Ne.symm hd))
        refine ⟨(none, es), ?_, hraised⟩
        rw [hes]
        rfl
      · rw [hnot h.2]
        rfl

theorem thrown_spec (name : String) (d : Declared) (message : Bytes) (success : Option FieldType)
    (throws : List (String × Declared)) :
    (d ∈ throws.map Prod.snd → ∃ r, thrown d message success throws = some r ∧
        received name success throws r = .raised d (d.object message)) ∧
      (d ∉ throws.map Prod.snd → thrown d message success throws = none) := by
  cases success with
  | none => exact caught_spec d message .void 1 throws
  | some type =>
    obtain ⟨hmem, hnot⟩ := caught_spec d message (.unknown (name ++ " failed: unknown result")) 1 throws
    refine ⟨fun h => ?_, fun h => ?_⟩
    · obtain ⟨es, hes, hraised⟩ := hmem h
      refine ⟨(none, es), ?_, hraised⟩
      rw [thrown, hes]
      rfl
    · rw [thrown, hnot h]
      rfl

/-- What the processor makes of a call is what the client is to see of it. -/
theorem outcome_process (what : Declared → Bytes → Bytes) {m : Method} (h : Handled m) :
    (process what h).outcome = h.seen what := by
  cases h with
  | returns value => exact received_successful m.name m.success m.throws value
  | fails what => rfl
  | throws d message =>
    obtain ⟨hmem, hnot⟩ := thrown_spec m.name d message m.success m.throws
    rw [process, Handled.seen]
    by_cases hd : d ∈ m.throws.map Prod.snd
    · obtain ⟨r, hr, hraised⟩ := hmem hd
      rw [if_pos hd, hr]
      exact hraised
    · rw [if_neg hd, hnot hd]
      rfl

/-! ### What the processor writes fits -/

theorem Declared.fits_object (d : Declared) {message : Bytes} (h : Countable message.length) :
    d.class.spec.Fits (d.object message) := by
  cases d with
  | VaeDbInternalError => exact ⟨by rintro _ ⟨⟩; exact h, trivial⟩
  | VaeDbQueryError => exact ⟨by rintro _ ⟨⟩; exact h, trivial⟩

theorem fits_caught (d : Declared) {message : Bytes} (h : Countable message.length) (fid : ℤ)
    (throws : List (String × Declared)) :
    ∀ es ∈ caught d message fid throws, (throwsSpec fid throws).Fits es := by
  induction throws generalizing fid with
  | nil => rintro _ ⟨⟩
  | cons t rest ih =>
    obtain ⟨var, d'⟩ := t
    rw [caught]
    split
    · rintro _ ⟨⟩
      exact ⟨by rintro _ ⟨⟩; exact d'.fits_object h, Spec.fits_blank _⟩
    · intro es hes
      obtain ⟨es', hes', rfl⟩ := Option.map_eq_some_iff.mp hes
      exact ⟨by rintro _ ⟨⟩, ih (fid + 1) es' hes'⟩

theorem fits_thrown (d : Declared) {message : Bytes} (h : Countable message.length)
    (success : Option FieldType) (throws : List (String × Declared)) :
    ∀ r ∈ thrown d message success throws, (resultSpec success throws).Fits r := by
  cases success with
  | none => exact fits_caught d h 1 throws
  | some type =>
    intro r hr
    obtain ⟨es, hes, rfl⟩ := Option.map_eq_some_iff.mp hr
    exact ⟨by rintro _ ⟨⟩, fits_caught d h 1 throws es hes⟩

theorem fits_applicationException {what : Bytes} (h : Countable what.length) :
    TApplicationException.spec.Fits (applicationException what) :=
  ⟨by rintro _ ⟨⟩; exact h, by rintro _ ⟨⟩; exact ⟨by decide, by decide⟩, trivial⟩

theorem fits_successful {success : Option FieldType} {value : Value success} (h : FitsValue success value)
    (throws : List (String × Declared)) :
    (resultSpec success throws).Fits (successful success throws value) := by
  cases success with
  | none => exact Spec.fits_blank _
  | some type => exact ⟨by rintro _ ⟨⟩; exact h, Spec.fits_blank _⟩

theorem fits_process {what : Declared → Bytes → Bytes} {m : Method} {h : Handled m} (hfits : h.Fits what) :
    (process what h).Fits := by
  cases h with
  | returns value => exact fits_successful hfits m.throws
  | fails w => exact fits_applicationException hfits
  | throws d message =>
    rw [process]
    cases hr : thrown d message m.success m.throws with
    | none => exact fits_applicationException hfits.2
    | some r => exact fits_thrown d hfits.1 m.success m.throws r hr

/-! ### From the handler to the caller -/

/-- A call, as the server goes through it. -/
structure Served where
  method : Method
  handled : Handled method
  seqid : ℤ

/-- The message with the reply. -/
def Served.exchange (what : Declared → Bytes → Bytes) (name : Bytes) (c : Served) : Exchange :=
  ⟨c.method, process what c.handled, name, c.seqid⟩

structure Served.Fits (what : Declared → Bytes → Bytes) (n : ℕ) (c : Served) : Prop where
  handled : c.handled.Fits what
  seqid : InRange 31 c.seqid
  rounds : (process what c.handled).body.length ≤ n

variable {what : Declared → Bytes → Bytes} {oprot : Served → Bytes} {n : ℕ}

/-- CORRECT: where the server's library writes its messages with the binary protocol, a client that
    makes calls on one connection gets, call by call, what the handler came to: the value, the exception
    where the method declares its class, and else a `TApplicationException` with its `what()`. -/
theorem calls_served (hbinary : ∀ c, ∃ name, Countable name.length ∧
      oprot c = (c.exchange what name).write true) {calls : List Served}
    (hfits : ∀ c ∈ calls, c.Fits what n) (strictRead : Bool) {portions : Portions} {more : Bytes}
    (hportions : portions.flatten = calls.flatMap oprot ++ more) : ∃ later,
      receive strictRead n (calls.map Served.method) portions =
        (calls.map fun c => c.handled.seen what, .ok later) ∧ later.flatten = more := by
  choose name hname hwrite using hbinary
  have hexchanges : ∀ e ∈ calls.map fun c => c.exchange what (name c), e.Fits n := by
    intro e he
    obtain ⟨c, hc, rfl⟩ := List.mem_map.mp he
    obtain ⟨hhandled, hseqid, hrounds⟩ := hfits c hc
    exact ⟨fits_process hhandled, hname c, hseqid, hrounds⟩
  have hbytes : portions.flatten =
      (calls.map fun c => c.exchange what (name c)).flatMap (Exchange.write true) ++ more := by
    rw [hportions, List.flatMap_map]
    congr 2
    funext c
    exact hwrite c
  have hstrict : strictRead = true → true = true := fun _ => rfl
  obtain ⟨later, hlater, hreceive⟩ := receive_append hstrict hexchanges [] hbytes
  rw [List.append_nil, receive, List.append_nil, List.map_map, List.map_map] at hreceive
  refine ⟨later, hreceive.trans ?_, hlater⟩
  congr 2
  funext c
  exact outcome_process what c.handled

/-- `get` declares the exception that it throws, `sessionCacheGet` does not; `closeSession` returns
    nothing. -/
def sampleCalls : List Served :=
  [⟨.sessionCacheGet, .throws .VaeDbInternalError [98], 0⟩, ⟨.get, .throws .VaeDbQueryError [99], 0⟩,
    ⟨.closeSession, .returns (), 0⟩]

/-- The bytes of an ASCII text. -/
def ascii (s : String) : Bytes := s.toList.map fun c => UInt8.ofNat c.toNat

/-- The classes do not redefine `what()`. -/
def sampleWhat (_ : Declared) (_ : Bytes) : Bytes := ascii "Default TException."

/-- A library with the binary protocol, which writes the name of the method. -/
def sampleOprot (c : Served) : Bytes := (c.exchange sampleWhat (ascii c.method.name)).write true

theorem calls_served_sampleCalls : ∃ later,
    receive false 64 [.sessionCacheGet, .get, .closeSession] [sampleCalls.flatMap sampleOprot] =
      ([.application (some (ascii "Default TException."), some 0, ()),
        .raised .VaeDbQueryError (some [99], ()), .void], .ok later) ∧ later.flatten = [] := by
  have hname : ∀ c : Served, Countable (ascii c.method.name).length := by
    intro c
    cases c.method <;> decide
  have hfits : ∀ c ∈ sampleCalls, c.Fits sampleWhat 64 := by
    intro c hc
    simp only [sampleCalls, List.mem_cons, List.not_mem_nil, or_false] at hc
    rcases hc with rfl | rfl | rfl
    · exact ⟨⟨by decide, by decide⟩, by decide, by decide⟩
    · exact ⟨⟨by decide, by decide⟩, by decide, by decide⟩
    · exact ⟨trivial, by decide, by decide⟩
  exact @calls_served sampleWhat sampleOprot 64 (fun c => ⟨_, hname c, rfl⟩)
    sampleCalls hfits false _ [] (by rw [List.flatten_cons, List.flatten_nil])

end VaeDb.Thrift
