import VaeDb.Cache.Operations
import VaeDb.Mysql.SessionData
import VaeDb.Schemes.Faults

/-! Cache writes whose statements may fail.

    `MysqlProxy::sessionCacheSet` and `MysqlProxy::longTermCacheSet` replace a row by a DELETE and an
    INSERT on a connection that commits each of them. An exception is caught and logged, and the
    caller is told nothing: the handler goes on to store the value in memcached.

        old row ──▶ DELETE ──▶ INSERT refused ──▶ no row         memcached: the new value

    So an entry can be lost, and its copy can be ahead of it. And the DELETE takes whatever compares
    equal to the key: a set of `logo.png` takes the row `Logo.png` away. -/

namespace VaeDb.Faults
open Schemes

variable {collation : Collation}

/-- `MysqlProxy::sessionCacheSet`. -/
def MysqlProxy.sessionCacheSet (faults : ReplaceFaults) (t : SessionData.SessionTable collation) (now : ℤ)
    (subdomain key value : String) : SessionData.SessionTable collation :=
  t.replace faults (SessionData.matchesRow collation subdomain key)
    ⟨key, subdomain, value, now + 86400 * 2⟩

/-- `MysqlProxy::longTermCacheSet`. -/
def MysqlProxy.longTermCacheSet (faults : ReplaceFaults) (t : Kvstore.KvTable collation) (now : ℤ)
    (subdomain key value : String) (expireInterval isFilename : ℤ) :
    Kvstore.KvTable collation :=
  t.replace faults (Kvstore.matchesRow collation subdomain key)
    ⟨subdomain, key, value, Kvstore.dateAdd now expireInterval, isFilename⟩

/-- `VaeDbHandler::longTermCacheSet`, for a session of the site `subdomain`. -/
def VaeDbHandler.longTermCacheSet (faults : ReplaceFaults) (w : Cache.World collation)
    (subdomain key value : String) (expireInterval isFilename : ℤ) : Cache.World collation :=
  { w with
    kv := MysqlProxy.longTermCacheSet faults w.kv w.now subdomain key value expireInterval isFilename
    mc := w.mc.set (Cache.fullKey .longTerm subdomain key) value }

/-- The session data of a key: the values of the rows that a read selects. -/
def sessionEntry (t : SessionData.SessionTable collation) (subdomain key : String) : List String :=
  t.values (SessionData.matchesRow collation subdomain key) SessionData.Row.data

/-- The long-term entry of a key. -/
def longTermEntry (t : Kvstore.KvTable collation) (subdomain key : String) : List String :=
  t.values (Kvstore.matchesRow collation subdomain key) Kvstore.Row.v

/-- The row is that of the pair itself, and not of one that compares equal. -/
def sessionRow (subdomain key : String) (r : SessionData.Row) : Bool :=
  decide (r.id = key) && decide (r.subdomain = subdomain)

/-- The same for a long-term entry. -/
def longTermRow (subdomain key : String) (r : Kvstore.Row) : Bool :=
  decide (r.k = key) && decide (r.subdomain = subdomain)

/-- A write of session data is all or nothing. -/
def SessionWritten (t t' : SessionData.SessionTable collation) (subdomain key value : String) :
    Prop :=
  t.AllOrNothing (SessionData.matchesRow collation subdomain key) (sessionRow subdomain key)
    SessionData.Row.data value t'

/-- A write of a long-term entry is all or nothing. -/
def LongTermWritten (t t' : Kvstore.KvTable collation) (subdomain key value : String) : Prop :=
  t.AllOrNothing (Kvstore.matchesRow collation subdomain key) (longTermRow subdomain key)
    Kvstore.Row.v value t'

/-- The entry has no row under another spelling. -/
def SessionSpelled (t : SessionData.SessionTable collation) (subdomain key : String) : Prop :=
  ∀ r ∈ t.rows, SessionData.matchesRow collation subdomain key r → sessionRow subdomain key r

/-- The same for a long-term entry. -/
def LongTermSpelled (t : Kvstore.KvTable collation) (subdomain key : String) : Prop :=
  ∀ r ∈ t.rows, Kvstore.matchesRow collation subdomain key r → longTermRow subdomain key r

/-- So is the write of the handler, and memcached has the new value only if the row does. -/
def HandlerWritten (w w' : Cache.World collation) (subdomain key value : String) : Prop :=
  LongTermWritten w.kv w'.kv subdomain key value ∧
    (w'.mc (Cache.fullKey .longTerm subdomain key) = some value →
      longTermEntry w'.kv subdomain key = [value])

variable {faults : ReplaceFaults} {now expireInterval isFilename : ℤ} {subdomain key value : String}

/-! ### Without faults -/

theorem sessionCacheSet_none (t : SessionData.SessionTable collation) (now : ℤ)
    (subdomain key value : String) :
    MysqlProxy.sessionCacheSet .none t now subdomain key value =
      SessionData.sessionCacheSet t now subdomain key value := by
  rw [MysqlProxy.sessionCacheSet, Table.replace_eq, if_pos (by decide)]
  rfl

theorem longTermCacheSet_none (w : Cache.World collation) (subdomain key value : String)
    (expireInterval isFilename : ℤ) :
    VaeDbHandler.longTermCacheSet .none w subdomain key value expireInterval isFilename =
      Cache.longTermCacheSet w subdomain key value expireInterval isFilename := by
  rw [VaeDbHandler.longTermCacheSet, MysqlProxy.longTermCacheSet, Table.replace_eq,
    if_pos (by decide)]
  rfl

/-! ### With faults -/

theorem sessionCacheSet_written_iff (t : SessionData.SessionTable collation) :
    SessionWritten t (MysqlProxy.sessionCacheSet faults t now subdomain key value) subdomain key
        value ↔
      (sessionEntry t subdomain key = [] ∨ ¬ faults.Deletes ∨
        (faults.Inserts ∧ SessionSpelled t subdomain key)) := by
  have hkey : ∀ r, SessionData.matchesRow collation subdomain key r →
      r.key collation = collation key := by
    intro r hr
    simp only [SessionData.matchesRow, Bool.and_eq_true, decide_eq_true_eq] at hr
    exact hr.1
  have hown : ∀ r, sessionRow subdomain key r →
      SessionData.matchesRow collation subdomain key r := by
    intro r hr
    simp only [sessionRow, Bool.and_eq_true, decide_eq_true_eq] at hr
    simp [SessionData.matchesRow, SessionData.Row.key, hr]
  have hrow : sessionRow subdomain key ⟨key, subdomain, value, now + 86400 * 2⟩ := by
    simp [sessionRow]
  exact Table.replace_allOrNothing_iff hkey hown hrow

theorem matchesRow_of_longTermRow {r : Kvstore.Row} (hr : longTermRow subdomain key r) :
    Kvstore.matchesRow collation subdomain key r := by
  simp only [longTermRow, Bool.and_eq_true, decide_eq_true_eq] at hr
  simp [Kvstore.matchesRow, Kvstore.Row.key, hr]

theorem longTermRow_new (subdomain key value : String) (expire_at : Option ℤ) (isFilename : ℤ) :
    longTermRow subdomain key ⟨subdomain, key, value, expire_at, isFilename⟩ := by
  simp [longTermRow]

theorem longTermCacheSet_written_iff (t : Kvstore.KvTable collation) :
    LongTermWritten t (MysqlProxy.longTermCacheSet faults t now subdomain key value expireInterval
        isFilename) subdomain key value ↔
      (longTermEntry t subdomain key = [] ∨ ¬ faults.Deletes ∨
        (faults.Inserts ∧ LongTermSpelled t subdomain key)) := by
  have hkey : ∀ r, Kvstore.matchesRow collation subdomain key r →
      r.key collation = Kvstore.weights collation subdomain key := fun r hr => of_decide_eq_true hr
  have hrow := longTermRow_new subdomain key value (Kvstore.dateAdd now expireInterval) isFilename
  have hown : ∀ r, longTermRow subdomain key r → Kvstore.matchesRow collation subdomain key r :=
    fun _ => matchesRow_of_longTermRow
  exact Table.replace_allOrNothing_iff hkey hown hrow

/-- In `kvstore` the DELETE always frees the key of the new row. -/
theorem insert_accepted (t : Kvstore.KvTable collation) (row : Kvstore.Row)
    (hrow : Kvstore.matchesRow collation subdomain key row) :
    ∃ t', (t.deleteWhere (Kvstore.matchesRow collation subdomain key)).insert? row = some t' := by
  refine Option.ne_none_iff_exists'.mp fun hnone => ?_
  obtain ⟨q, hq⟩ := Table.insert?_eq_none.mp hnone
  obtain ⟨hmem, hkey⟩ := Table.rowAt_eq_some.mp hq
  have hnot := (Table.mem_deleteWhere.mp hmem).2
  have hsame : q.key collation = Kvstore.weights collation subdomain key :=
    hkey.trans (of_decide_eq_true hrow)
  exact of_decide_eq_false hnot hsame

theorem longTermCacheSet_entry_iff (t : Kvstore.KvTable collation) :
    longTermEntry (MysqlProxy.longTermCacheSet faults t now subdomain key value expireInterval
        isFilename) subdomain key = [value] ↔
      (faults.Inserts ∨ (¬ faults.Deletes ∧ longTermEntry t subdomain key = [value])) :=
  have hrow := matchesRow_of_longTermRow (longTermRow_new ..)
  Table.values_replace_iff (insert_accepted t _ hrow) hrow

theorem handler_written_iff (w : Cache.World collation) :
    HandlerWritten w (VaeDbHandler.longTermCacheSet faults w subdomain key value expireInterval
        isFilename) subdomain key value ↔
      ((faults.Inserts ∧ LongTermSpelled w.kv subdomain key) ∨
        (¬ faults.Deletes ∧ longTermEntry w.kv subdomain key = [value])) := by
  have hcopy : (VaeDbHandler.longTermCacheSet faults w subdomain key value expireInterval
      isFilename).mc (Cache.fullKey .longTerm subdomain key) = some value :=
    Cache.Memcached.set_self ..
  rw [HandlerWritten, forall_prop_of_true hcopy]
  constructor
  · rintro ⟨hwritten, hentry⟩
    refine ((longTermCacheSet_entry_iff w.kv).mp hentry).imp_left fun hinserts => ⟨hinserts, ?_⟩
    rcases (longTermCacheSet_written_iff w.kv).mp hwritten with hnil | hkept | ⟨-, hspelled⟩
    · exact fun r hmem hr => absurd hr (Table.values_eq_nil.mp hnil r hmem)
    · exact absurd hinserts.deletes hkept
    · exact hspelled
  · intro h
    exact ⟨(longTermCacheSet_written_iff w.kv).mpr (.inr (h.symm.imp_left And.left)),
      (longTermCacheSet_entry_iff w.kv).mpr (h.imp_left And.left)⟩

/-- CORRECT: a write is all or nothing exactly if there is no entry to lose, or the DELETE has no
    effect, or the INSERT is executed and the entry had no row under another spelling. The handler's
    write is so, with memcached not ahead of the row, exactly if the INSERT is executed and the entry
    had no row under another spelling, or the DELETE has no effect and the entry is the value
    already. -/
theorem cacheSets_written_iff (t : SessionData.SessionTable collation)
    (t' : Kvstore.KvTable collation) (w : Cache.World collation) (faults : ReplaceFaults)
    (now expireInterval isFilename : ℤ) (subdomain key value : String) :
    (SessionWritten t (MysqlProxy.sessionCacheSet faults t now subdomain key value) subdomain key
        value ↔
      (sessionEntry t subdomain key = [] ∨ ¬ faults.Deletes ∨
        (faults.Inserts ∧ SessionSpelled t subdomain key))) ∧
    (LongTermWritten t' (MysqlProxy.longTermCacheSet faults t' now subdomain key value expireInterval
        isFilename) subdomain key value ↔
      (longTermEntry t' subdomain key = [] ∨ ¬ faults.Deletes ∨
        (faults.Inserts ∧ LongTermSpelled t' subdomain key))) ∧
    (HandlerWritten w (VaeDbHandler.longTermCacheSet faults w subdomain key value expireInterval
        isFilename) subdomain key value ↔
      ((faults.Inserts ∧ LongTermSpelled w.kv subdomain key) ∨
        (¬ faults.Deletes ∧ longTermEntry w.kv subdomain key = [value]))) :=
  ⟨sessionCacheSet_written_iff t, longTermCacheSet_written_iff t', handler_written_iff w⟩

/-- The INSERT of a second write is refused: the old value is gone from the table, the new one is in
    memcached only. -/
theorem not_cacheSets_written :
    let w := VaeDbHandler.longTermCacheSet .none (Cache.World.init foldCase 0) "shop" "front" "old" 7 0
    let faults : ReplaceFaults := ⟨.done, .done, .done, .refused⟩
    let w' := VaeDbHandler.longTermCacheSet faults w "shop" "front" "new" 7 0
    longTermEntry w.kv "shop" "front" = ["old"] ∧ longTermEntry w'.kv "shop" "front" = [] ∧
      w'.mc (Cache.fullKey .longTerm "shop" "front") = some "new" ∧
      ¬ LongTermWritten w.kv w'.kv "shop" "front" "new" ∧ ¬ HandlerWritten w w' "shop" "front" "new" := by
  intro w faults w'
  have hold : longTermEntry w.kv "shop" "front" = ["old"] := by decide +kernel
  have hgone : longTermEntry w'.kv "shop" "front" = [] := by decide +kernel
  have hwritten : ¬ LongTermWritten w.kv w'.kv "shop" "front" "new" := by
    intro h
    rcases h.selected with heq | heq
    · exact nomatch (hgone.symm.trans heq).trans hold
    · exact nomatch hgone.symm.trans heq
  have hcopy : w'.mc (Cache.fullKey .longTerm "shop" "front") = some "new" := by decide +kernel
  exact ⟨hold, hgone, hcopy, hwritten, fun h => hwritten h.1⟩

end VaeDb.Faults
