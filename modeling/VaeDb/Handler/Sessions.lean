import VaeDb.Handler.Sites
import VaeDb.Session.Session

/-! The handler: sessions and sites, and the calls that clients, the bus and the reaper make.

    Every call runs from beginning to end before the next one. A call carries what the world decides
    for it: the fetches from S3, the time, the numbers that `rand` yields. `openSession` takes the
    suggested id or, while that is in use, the next random number; a list of numbers that runs out
    is a call that has not returned.

        openSession ──▶ getSite ──▶ sessions[id] = new Session(site)
        get, data, structure, createInfo ──▶ sessions[id] ──▶ Session, over the caches of its Site
        closeSession, reaper ──▶ sessions.erase(id) -/

namespace VaeDb
open Schemes S3

structure Handler where
  store : Sites
  sessions : ℤ → Option Session

inductive Op where
  | openSession (subdomain secretKey : String) (stagingMode : Bool) (suggestedSessionId : ℤ)
      (feed secret : Fetch) (now : ℤ) (rands : List ℤ)
  | closeSession (sessionId : ℤ) (secretKey : String)
  | call (sessionId : ℤ) (c : Call)
  | resetSite (subdomain secretKey : String)
  | reloadSite (subdomain : String) (feed secret secretStaging : Fetch)
  | reap (now : ℤ)

inductive Outcome where
  /-- session id and generation -/
  | opened (r : Result (ℤ × ℤ))
  | answered (r : Result Answer)
  | done (r : Result Unit)

/-- What a client gets for a session that does not exist. -/
def Call.missing : Call → Answer
  | .get .. => .get ⟨0, []⟩
  | .data _ => .data []
  | .struct _ => .struct []
  | .createInfo .. => .createInfo []

namespace Sites

/-- The caches of an object after a call. -/
def setCaches (w : Sites) (i : ℕ) (caches : Caches) : Sites :=
  { w with
    objects := w.objects.modify i fun obj => { obj with caches := caches }
    valid := fun k j h => by
      rw [List.length_modify]
      exact w.valid k j h }

end Sites

namespace Handler

def init : Handler := ⟨Sites.init, fun _ => none⟩

variable (rt : Runtime)

/-- `while (sessions.count(sessionId)) sessionId = rand();`. -/
def freeId (sessions : ℤ → Option Session) : ℤ → List ℤ → Option ℤ
  | sessionId, [] => if (sessions sessionId).isNone then some sessionId else none
  | sessionId, r :: rands =>
    if (sessions sessionId).isNone then some sessionId else freeId sessions r rands

def openSession (h : Handler) (subdomain secretKey : String) (stagingMode : Bool)
    (suggestedSessionId : ℤ) (feed secret : Fetch) (now : ℤ) (rands : List ℤ) :
    Option (Handler × Result (ℤ × ℤ)) :=
  match h.store.getSite rt.lib subdomain secretKey stagingMode feed secret with
  | (w, .error e) => some ({ h with store := w }, .error e)
  | (w, .ok i) =>
    match w.objects[i]? with
    | none => some ({ h with store := w }, .error .undefined)
    | some obj =>
      match freeId h.sessions suggestedSessionId rands with
      | none => none
      | some sessionId => some
          (⟨w, Function.update h.sessions sessionId (some ⟨i, now, []⟩)⟩,
            .ok (sessionId, obj.site.generation))

/-- The secret key is not looked at. -/
def closeSession (h : Handler) (sessionId : ℤ) (_ : String) : Handler :=
  { h with sessions := Function.update h.sessions sessionId none }

/-- `get`, `data`, `structure` and `createInfo`. -/
def call (h : Handler) (sessionId : ℤ) (c : Call) : Handler × Result Answer :=
  match h.sessions sessionId with
  | none => (h, .ok c.missing)
  | some s =>
    match h.store.objects[s.site]? with
    | none => (h, .error .undefined)
    | some obj =>
      let ops := Lookups.cached rt.lib obj.site
      match (Session.call ops rt obj.site s.responses c).go obj.caches with
      | (.error e, caches) => ({ h with store := h.store.setCaches s.site caches }, .error e)
      | (.ok (answer, responses), caches) =>
        (⟨h.store.setCaches s.site caches,
          Function.update h.sessions sessionId (some { s with responses := responses })⟩,
          .ok answer)

/-- `SESSION_REAP_TIME`. -/
def reapTime : ℤ := 62

/-- One sweep of `Reaper::Run`. -/
def reap (h : Handler) (now : ℤ) : Handler :=
  { h with sessions := fun sessionId =>
      (h.sessions sessionId).filter fun s => ¬ reapTime < now - s.createdAt }

def step (h : Handler) : Op → Option (Handler × Outcome)
  | .openSession subdomain secretKey stagingMode suggestedSessionId feed secret now rands =>
    (h.openSession rt subdomain secretKey stagingMode suggestedSessionId feed secret now rands).map
      fun (h, r) => (h, .opened r)
  | .closeSession sessionId secretKey => some (h.closeSession sessionId secretKey, .done (.ok ()))
  | .call sessionId c =>
    let (h, r) := h.call rt sessionId c
    some (h, .answered r)
  | .resetSite subdomain secretKey =>
    let (w, r) := h.store.resetSite subdomain secretKey
    some ({ h with store := w }, .done r)
  | .reloadSite subdomain feed secret secretStaging =>
    let (w, r) := h.store.reloadSite rt.lib subdomain feed secret secretStaging
    some ({ h with store := w }, .done r)
  | .reap now => some (h.reap now, .done (.ok ()))

/-- A run, with the outcome of every call. -/
def run : Handler → List Op → Option (Handler × List (Op × Outcome))
  | h, [] => some (h, [])
  | h, op :: ops =>
    match h.step rt op with
    | none => none
    | some (h', outcome) => (run h' ops).map fun (h'', log) => (h'', (op, outcome) :: log)

end Handler

end VaeDb
