import VaeDb.Handler.Serving

/-! What holds over every run of calls on `sites`.

    `sites` is what the installs and erasures so far have made of it. A call that returns an object has
    seen it in service since it began; an object is installed once, so that one that was erased stays
    away. And no call waits for good: mutexes are taken in one order, each call has finitely many steps,
    so from every state that is reached all calls can be brought to their end.

        held by a call that waits     { }          { site }
        it waits for                  site         sites          in this order, never the other way -/

namespace VaeDb.Serving
open Schemes
open Loading (Mutex Lookup)

variable {c : ℕ} {throws : Bool} {w w' : Shared} {pc pc' : Pc}

/-! ### What a call has seen -/

/-- The Site was in service for the key at a time when the log was at least that long. -/
def Served (log : List Event) (since : ℕ) (k : String) (o : ℕ) : Prop :=
  ∃ past, past <:+ log ∧ since ≤ past.length ∧ serving past k = some o

theorem Served.later {log log' : List Event} {since : ℕ} {k : String} {o : ℕ}
    (h : Served log since k o) (hlog : log <:+ log') : Served log' since k o := by
  obtain ⟨past, hpast, hsince, hserving⟩ := h
  exact ⟨past, hpast.trans hlog, hsince, hserving⟩

theorem Served.now {log : List Event} {since : ℕ} {k : String} {o : ℕ} (hsince : since ≤ log.length)
    (h : serving log k = some o) : Served log since k o := ⟨log, List.suffix_rfl, hsince, h⟩

/-- What the call has seen is still so, or was so since it began. -/
structure Knows (w : Shared) (c : ℕ) (pc : Pc) : Prop where
  started : w.started c ≤ w.log.length
  mutex : ∀ k m, pc.mutex = some (k, m) → w.siteMutexes k = some m
  creating : ∀ k, pc.creating = some k → w.siteMutexes k = none
  present : ∀ k, pc.present = some k → w.sites k ≠ none
  found : ∀ k o, pc.found = some (k, o) → Served w.log (w.started c) k o

/-- What the call goes on knowing, as long as the maps stay the same. -/
theorem Knows.carry (hk : Knows w c pc) (hsiteMutexes : w'.siteMutexes = w.siteMutexes)
    (hlog : w.log <:+ w'.log) (hstarted : w'.started = w.started)
    (hmutex : pc'.mutex = none ∨ pc'.mutex = pc.mutex) (hcreating : pc'.creating = none)
    (hpresent : pc'.present = none) (hfound : pc'.found = none ∨ pc'.found = pc.found) :
    Knows w' c pc' where
  started := by
    rw [hstarted]
    exact hk.started.trans hlog.length_le
  mutex k m h := by
    rw [hsiteMutexes]
    rcases hmutex with heq | heq <;> rw [heq] at h
    · cases h
    · exact hk.mutex k m h
  creating k h := by
    rw [hcreating] at h
    cases h
  present k h := by
    rw [hpresent] at h
    cases h
  found k o h := by
    rw [hstarted]
    rcases hfound with heq | heq <;> rw [heq] at h
    · cases h
    · exact (hk.found k o h).later hlog

theorem Knows.reloads (hk : Knows w c pc) (hsiteMutexes : w'.siteMutexes = w.siteMutexes)
    (hlog : w'.log = w.log) (hstarted : w'.started = w.started) (d : String) (p s : Bool) :
    Knows w' c (.reloads d p s) := by
  have hlog : w.log <:+ w'.log := hlog ▸ List.suffix_rfl
  cases p <;> cases s <;> exact hk.carry hsiteMutexes hlog hstarted (.inl rfl) rfl rfl (.inl rfl)

/-- What a call sees or does in a step is so afterwards. -/
theorem advance_knows (hk : Knows w c pc) (hsites : w.sites = serving w.log)
    (h : advance c throws w pc = some (w', pc')) : Knows w' c pc' := by
  have hlock : ∀ {m : Mutex} {next : Pc},
      (w.lock c m).map (fun w => (w, next)) = some (w', pc') →
      next.mutex = none ∨ next.mutex = pc.mutex → next.creating = none → next.present = none →
      next.found = none → Knows w' c pc' := by
    intro m next hmap hmutex hcreating hpresent hfound
    obtain ⟨w₁, hw₁, heq⟩ := Option.map_eq_some_iff.mp hmap
    obtain ⟨-, rfl⟩ := lock_eq_some hw₁
    cases heq
    exact hk.carry rfl List.suffix_rfl rfl hmutex hcreating hpresent (.inl hfound)
  cases pc with
  | idle => cases h
  | lockMutexes j k | lockCount d | lockReset d r => exact hlock h (.inl rfl) rfl rfl rfl
  | lockGet k m | lockLoad j k m o => exact hlock h (.inr rfl) rfl rfl rfl
  | lockSite j k m => cases j <;> exact hlock h (.inr rfl) rfl rfl rfl
  | countMutex j k =>
    rw [advance] at h
    split at h <;> cases h
    · next m hm => exact ⟨hk.started, by rintro _ _ ⟨⟩; exact hm, by rintro _ ⟨⟩, by rintro _ ⟨⟩, by rintro _ _ ⟨⟩⟩
    · next hm => exact ⟨hk.started, by rintro _ _ ⟨⟩, by rintro _ ⟨⟩; exact hm, by rintro _ ⟨⟩, by rintro _ _ ⟨⟩⟩
  | newMutex j k =>
    cases h
    exact ⟨hk.started, by rintro _ _ ⟨⟩; exact Function.update_self .., by rintro _ ⟨⟩,
      by rintro _ ⟨⟩, by rintro _ _ ⟨⟩⟩
  | countSite k m =>
    rw [advance] at h
    split at h <;> cases h
    · next hsome =>
      refine ⟨hk.started, hk.mutex, by rintro _ ⟨⟩, ?_, by rintro _ _ ⟨⟩⟩
      rintro _ ⟨⟩
      exact Option.isSome_iff_ne_none.mp hsome
    · exact hk.carry rfl List.suffix_rfl rfl (.inr rfl) rfl rfl (.inl rfl)
  | checkSite k m =>
    rw [advance] at h
    split at h <;> cases h
    next o ho =>
      cases throws
      · refine ⟨hk.started, hk.mutex, by rintro _ ⟨⟩, by rintro _ ⟨⟩, ?_⟩
        rintro _ _ ⟨⟩
        exact .now hk.started (hsites ▸ ho)
      · exact hk.carry rfl List.suffix_rfl rfl (.inr rfl) rfl rfl (.inl rfl)
  | unlockGet k m r =>
    cases r <;> cases h
    · exact hk.carry rfl List.suffix_rfl rfl (.inr rfl) rfl rfl (.inl rfl)
    · exact hk.carry rfl List.suffix_rfl rfl (.inr rfl) rfl rfl (.inl rfl)
    · exact hk.carry rfl List.suffix_rfl rfl (.inr rfl) rfl rfl (.inr rfl)
  | unlockMutexes j k m | readFeed k m =>
    cases h
    exact hk.carry rfl List.suffix_rfl rfl (.inr rfl) rfl rfl (.inl rfl)
  | countProd d | countStaging d p | readReload d p s | unlockCount d p s =>
    cases h
    exact hk.carry rfl List.suffix_rfl rfl (.inl rfl) rfl rfl (.inl rfl)
  | build j k m =>
    rw [advance] at h
    split at h <;> cases h
    · cases j <;> exact hk.carry rfl List.suffix_rfl rfl (.inr rfl) rfl rfl (.inl rfl)
    · exact hk.carry rfl List.suffix_rfl rfl (.inr rfl) rfl rfl (.inl rfl)
  | install j k m o =>
    cases h
    refine ⟨Nat.le_succ_of_le hk.started, hk.mutex, by rintro _ ⟨⟩, by rintro _ ⟨⟩, ?_⟩
    rintro _ _ ⟨⟩
    exact .now (Nat.le_succ_of_le hk.started) (Function.update_self ..)
  | unlockLoad j k m o =>
    cases j <;> cases h
    · exact hk.carry rfl List.suffix_rfl rfl (.inr rfl) rfl rfl (.inr rfl)
    · exact hk.carry rfl List.suffix_rfl rfl (.inr rfl) rfl rfl (.inl rfl)
  | validate k m o =>
    cases h
    cases throws
    · exact hk.carry rfl List.suffix_rfl rfl (.inr rfl) rfl rfl (.inr rfl)
    · exact hk.carry rfl List.suffix_rfl rfl (.inr rfl) rfl rfl (.inl rfl)
  | leave j k m r =>
    cases r <;> cases j <;> cases h
    · exact hk.carry rfl List.suffix_rfl rfl (.inl rfl) rfl rfl (.inl rfl)
    · exact hk.carry rfl List.suffix_rfl rfl (.inl rfl) rfl rfl (.inl rfl)
    · exact hk.carry rfl List.suffix_rfl rfl (.inl rfl) rfl rfl (.inl rfl)
    · refine hk.reloads ?_ ?_ ?_ .. <;> rfl
  | countReset d r s =>
    rw [advance] at h
    cases s <;> split at h <;> cases h <;>
      exact hk.carry rfl List.suffix_rfl rfl (.inl rfl) rfl rfl (.inl rfl)
  | eraseSite d r s =>
    rw [advance] at h
    cases s <;> split at h <;> cases h
    · exact hk.carry rfl List.suffix_rfl rfl (.inl rfl) rfl rfl (.inl rfl)
    · exact hk.carry rfl (List.suffix_cons ..) rfl (.inl rfl) rfl rfl (.inl rfl)
    · exact hk.carry rfl List.suffix_rfl rfl (.inl rfl) rfl rfl (.inl rfl)
    · exact hk.carry rfl (List.suffix_cons ..) rfl (.inl rfl) rfl rfl (.inl rfl)
  | unlockReset d r threw =>
    cases r <;> cases h
    · exact hk.carry rfl List.suffix_rfl rfl (.inl rfl) rfl rfl (.inl rfl)
    · refine hk.reloads ?_ ?_ ?_ .. <;> rfl

/-! ### The invariant -/

/-- Every object is installed at most once. -/
structure Distinct (w : Shared) (calls : ℕ → Pc) : Prop where
  once : (installed w.log).Nodup
  known : ∀ o ∈ installed w.log, o < w.objects
  fresh : ∀ c o, (calls c).built = some o → o < w.objects ∧ o ∉ installed w.log
  apart : ∀ c c' o, (calls c).built = some o → (calls c').built = some o → c = c'

structure Inv (s : State) : Prop where
  records : Records s.shared.owner fun c => (s.calls c).held
  knows : ∀ c, Knows s.shared c (s.calls c)
  sites : s.shared.sites = serving s.shared.log
  distinct : Distinct s.shared s.calls
  returned : ∀ r ∈ s.shared.returned, Served s.shared.log r.2.2 r.1 r.2.1

theorem creating_held {k : String} (h : pc.creating = some k) : Mutex.sites ∈ pc.held := by
  cases pc with
  | newMutex j k' => simp [Pc.held]
  | _ => cases h

theorem present_held {k : String} (h : pc.present = some k) : Mutex.sites ∈ pc.held := by
  cases pc with
  | checkSite k' m => simp [Pc.held]
  | _ => cases h

theorem loads_held {k : String} (h : pc.loads = some k) :
    ∃ m, pc.mutex = some (k, m) ∧ Mutex.site m ∈ pc.held := by
  cases pc with
  | build j k' m | lockLoad j k' m o | install j k' m o | unlockLoad j k' m o =>
    cases h
    exact ⟨m, rfl, by simp [Pc.held]⟩
  | _ => cases h

/-- A call takes `sitesMutex` on top of what it holds, and the mutex of a key when it holds nothing. -/
def rank : Mutex → ℕ
  | .site _ => 0
  | .sites => 1

theorem rank_le : ∀ m : Mutex, rank m ≤ 1
  | .site _ => Nat.zero_le 1
  | .sites => le_rfl

theorem rank_lt {m : Mutex} (h : pc.wants = some m) : ∀ m' ∈ pc.held, rank m' < rank m := by
  cases pc with
  | lockMutexes | lockGet | lockLoad | lockCount | lockReset | lockSite =>
    cases h
    simp [Pc.held, rank]
  | _ => cases h

/-- What a step of one call writes leaves alone what another call has seen, as long as they do not
    hold `sitesMutex` both. -/
theorem knows_other {c₂ : ℕ} {pc₂ : Pc} (hw : Writes c w pc w') (hk : Knows w c pc)
    (hk₂ : Knows w c₂ pc₂) (hsites : .sites ∈ pc.held → .sites ∉ pc₂.held) : Knows w' c₂ pc₂ := by
  cases hw with
  | nothing hmutexes hsame hlog hstarted _ =>
    exact ⟨by rw [hstarted, hlog]; exact hk₂.started, by rw [hmutexes]; exact hk₂.mutex,
      by rw [hmutexes]; exact hk₂.creating, by rw [hsame]; exact hk₂.present,
      by rw [hstarted, hlog]; exact hk₂.found⟩
  | mutex k hpc hmutexes hsame hlog hstarted _ =>
    refine ⟨by rw [hstarted, hlog]; exact hk₂.started, fun k' m hm => ?_,
      fun k' hk' => absurd (creating_held hk') (hsites (creating_held hpc)),
      by rw [hsame]; exact hk₂.present, by rw [hstarted, hlog]; exact hk₂.found⟩
    have hold := hk₂.mutex k' m hm
    have hne : k' ≠ k := by
      rintro rfl
      rw [hk.creating k' hpc] at hold
      cases hold
    rw [hmutexes, Function.update_of_ne hne, hold]
  | site e hheld _ hmutexes _ hlog hstarted _ =>
    have hgrows : w.log <:+ w'.log := hlog ▸ List.suffix_cons ..
    exact ⟨hstarted ▸ hk₂.started.trans hgrows.length_le, by rw [hmutexes]; exact hk₂.mutex,
      by rw [hmutexes]; exact hk₂.creating,
      fun k' hk' => absurd (present_held hk') (hsites hheld),
      fun k' o hk' => hstarted ▸ (hk₂.found k' o hk').later hgrows⟩

theorem writes_sites (hw : Writes c w pc w') (h : w.sites = serving w.log) :
    w'.sites = serving w'.log := by
  cases hw with
  | nothing _ hsites hlog _ _ => rw [hsites, hlog, h]
  | mutex _ _ _ hsites hlog _ _ => rw [hsites, hlog, h]
  | site e _ _ _ hsites hlog _ _ => rw [hlog, hsites h]

/-- A call returns what it has seen in service. -/
theorem writes_returned (hw : Writes c w pc w') (hk : Knows w c pc)
    (h : ∀ r ∈ w.returned, Served w.log r.2.2 r.1 r.2.1) :
    ∀ r ∈ w'.returned, Served w'.log r.2.2 r.1 r.2.1 := by
  cases hw with
  | nothing _ _ hlog _ hreturned =>
    rw [hlog]
    rcases hreturned with hsame | ⟨k, o, hfound, hnew⟩
    · rwa [hsame]
    · rw [hnew]
      exact List.forall_mem_cons.mpr ⟨hk.found k o hfound, h⟩
  | mutex _ _ _ _ hlog _ hreturned => rwa [hlog, hreturned]
  | site e _ _ _ _ hlog _ hreturned =>
    rw [hreturned]
    exact fun r hr => (h r hr).later (hlog ▸ List.suffix_cons ..)

theorem Distinct.step {calls : ℕ → Pc} (h : Distinct w calls)
    (hbuilds : Builds w (calls c) w' pc') : Distinct w' (Function.update calls c pc') := by
  -- what the calls have built afterwards, for a call that has built nothing new
  have hback : pc'.built = none ∨ pc'.built = (calls c).built → ∀ c₁ o,
      (Function.update calls c pc' c₁).built = some o → (calls c₁).built = some o := by
    intro hbuilt c₁ o ho
    rcases eq_or_ne c₁ c with rfl | hne
    · rw [Function.update_self] at ho
      rcases hbuilt with heq | heq <;> rw [heq] at ho
      · cases ho
      · exact ho
    · rwa [Function.update_of_ne hne] at ho
  cases hbuilds with
  | neither hobjects hbuilt hlog =>
    refine ⟨hlog ▸ h.once, by rw [hlog, hobjects]; exact h.known, fun c₁ o ho => ?_,
      fun c₁ c₂ o ho₁ ho₂ => h.apart c₁ c₂ o (hback hbuilt _ _ ho₁) (hback hbuilt _ _ ho₂)⟩
    rw [hlog, hobjects]
    exact h.fresh c₁ o (hback hbuilt _ _ ho)
  | build hobjects hbuilt hlog =>
    have hnew : ∀ c₁ o, (Function.update calls c pc' c₁).built = some o →
        (c₁ = c ∧ o = w.objects) ∨ (c₁ ≠ c ∧ (calls c₁).built = some o) := by
      intro c₁ o ho
      rcases eq_or_ne c₁ c with rfl | hne
      · rw [Function.update_self, hbuilt] at ho
        exact .inl ⟨rfl, (Option.some.inj ho).symm⟩
      · rw [Function.update_of_ne hne] at ho
        exact .inr ⟨hne, ho⟩
    refine ⟨hlog ▸ h.once, fun o ho => ?_, fun c₁ o ho => ?_, fun c₁ c₂ o ho₁ ho₂ => ?_⟩
    · rw [hlog] at ho
      rw [hobjects]
      exact Nat.lt_succ_of_lt (h.known o ho)
    · rw [hlog, hobjects]
      rcases hnew c₁ o ho with ⟨-, rfl⟩ | ⟨-, hold⟩
      · exact ⟨Nat.lt_succ_self _, fun hmem => lt_irrefl _ (h.known _ hmem)⟩
      · exact ⟨Nat.lt_succ_of_lt (h.fresh c₁ o hold).1, (h.fresh c₁ o hold).2⟩
    · rcases hnew c₁ o ho₁ with ⟨rfl, rfl⟩ | ⟨-, hold₁⟩ <;>
        rcases hnew c₂ _ ho₂ with ⟨rfl, heq⟩ | ⟨-, hold₂⟩
      · rfl
      · exact absurd (h.fresh c₂ _ hold₂).1 (lt_irrefl _)
      · exact absurd (heq ▸ (h.fresh c₁ o hold₁).1) (lt_irrefl _)
      · exact h.apart c₁ c₂ o hold₁ hold₂
  | install o hobjects hwas hbuilt hlog =>
    obtain ⟨hlt, hnot⟩ := h.fresh c o hwas
    refine ⟨?_, fun o' ho' => ?_, fun c₁ o₁ ho₁ => ?_, fun c₁ c₂ o₁ ho₁ ho₂ =>
      h.apart c₁ c₂ o₁ (hback (.inl hbuilt) _ _ ho₁) (hback (.inl hbuilt) _ _ ho₂)⟩
    · rw [hlog]
      exact List.nodup_cons.mpr ⟨hnot, h.once⟩
    · rw [hlog] at ho'
      rw [hobjects]
      rcases List.mem_cons.mp ho' with rfl | hold
      · exact hlt
      · exact h.known o' hold
    · have hold := hback (.inl hbuilt) _ _ ho₁
      obtain ⟨hlt₁, hnot₁⟩ := h.fresh c₁ o₁ hold
      rw [hlog, hobjects]
      refine ⟨hlt₁, fun hmem => ?_⟩
      rcases List.mem_cons.mp hmem with rfl | hmem
      · -- the object is built by this call only, and this call has installed it
        obtain rfl := h.apart c₁ c o₁ hold hwas
        rw [Function.update_self, hbuilt] at ho₁
        cases ho₁
      · exact hnot₁ hmem

theorem inv_advance {s : State} (hs : Inv s)
    (h : advance c throws s.shared (s.calls c) = some (w', pc')) :
    Inv ⟨w', Function.update s.calls c pc'⟩ := by
  have hwrites := advance_writes h
  have hknows := hs.knows c
  refine ⟨?_, fun c' => ?_, writes_sites hwrites hs.sites, hs.distinct.step (advance_builds h),
    writes_returned hwrites hknows hs.returned⟩
  · have hheld : (fun c' => (Function.update s.calls c pc' c').held) =
        Function.update (fun c' => (s.calls c').held) c pc'.held :=
      Function.comp_update Pc.held s.calls c pc'
    dsimp only
    rw [hheld]
    cases advance_moves h with
    | acquire m hfree howner hheld =>
      rw [howner, hheld]
      exact hs.records.acquire hfree
    | release m howner hheld hlast =>
      rw [howner]
      exact hs.records.release hheld hlast
    | keep howner hheld =>
      rw [howner]
      exact hs.records.keep hheld
  · dsimp only
    rcases eq_or_ne c' c with rfl | hne
    · rw [Function.update_self]
      exact advance_knows hknows hs.sites h
    · rw [Function.update_of_ne hne]
      exact knows_other hwrites hknows (hs.knows c') fun hheld hheld' =>
        hne (hs.records.owns.exclusive hheld' hheld)

theorem start_idle (request : Request) : request.start.held = [] ∧ request.start.mutex = none ∧
    request.start.creating = none ∧ request.start.present = none ∧ request.start.built = none ∧
    request.start.found = none := by
  cases request <;> simp [Request.start, Pc.held, Pc.mutex, Pc.creating, Pc.present, Pc.built, Pc.found]

theorem inv_start {s : State} (hs : Inv s) (hidle : s.calls c = .idle) (request : Request) :
    Inv ⟨s.shared.begin c, Function.update s.calls c request.start⟩ := by
  obtain ⟨hheld, hmutex, hcreating, hpresent, hbuilt, hfound⟩ := start_idle request
  refine ⟨?_, fun c' => ?_, hs.sites, ?_, hs.returned⟩
  · have hheld' : (fun c' => (Function.update s.calls c request.start c').held) =
        Function.update (fun c' => (s.calls c').held) c request.start.held :=
      Function.comp_update Pc.held s.calls c request.start
    dsimp only
    rw [hheld']
    exact hs.records.keep (by rw [hheld, hidle]; rfl)
  · dsimp only
    rcases eq_or_ne c' c with rfl | hne
    · rw [Function.update_self]
      refine ⟨?_, fun _ _ h => ?_, fun _ h => ?_, fun _ h => ?_, fun _ _ h => ?_⟩
      · exact (Function.update_self ..).le
      · rw [hmutex] at h
        cases h
      · rw [hcreating] at h
        cases h
      · rw [hpresent] at h
        cases h
      · rw [hfound] at h
        cases h
    · rw [Function.update_of_ne hne]
      have hstarted : (s.shared.begin c).started c' = s.shared.started c' :=
        Function.update_of_ne hne ..
      exact ⟨hstarted.trans_le (hs.knows c').started, (hs.knows c').mutex, (hs.knows c').creating,
        (hs.knows c').present, fun k o hk => by rw [hstarted]; exact (hs.knows c').found k o hk⟩
  · exact hs.distinct.step (.neither rfl (.inl hbuilt) rfl)

theorem inv_step (s : State) (a : Act) (s' : State) (hs : Inv s) (h : step s a = some s') :
    Inv s' := by
  cases a with
  | start c request =>
    rw [step] at h
    split at h
    · next hidle =>
      cases h
      exact inv_start hs hidle request
    · cases h
  | next c throws =>
    obtain ⟨⟨w', pc'⟩, hadvance, heq⟩ := Option.map_eq_some_iff.mp h
    cases heq
    exact inv_advance hs hadvance

theorem inv_init : Inv State.init where
  records c m := by simp [State.init, Shared.init, Pc.held]
  knows c := by
    constructor <;> simp [State.init, Shared.init, Pc.mutex, Pc.creating, Pc.present, Pc.found]
  sites := rfl
  distinct := by
    constructor <;> simp [State.init, Shared.init, installed, Pc.built]
  returned := by simp [State.init, Shared.init]

/-! ### Loads one at a time, and what is returned -/

/-- Two calls that load for one key hold one mutex. -/
theorem Inv.same_load {s : State} (hs : Inv s) {c c' : ℕ} {k : String}
    (hc : (s.calls c).loads = some k) (hc' : (s.calls c').loads = some k) : c = c' := by
  obtain ⟨m, hm, hheld⟩ := loads_held hc
  obtain ⟨m', hm', hheld'⟩ := loads_held hc'
  have hmm : some m = some m' :=
    ((hs.knows c).mutex k m hm).symm.trans ((hs.knows c').mutex k m' hm')
  cases hmm
  exact hs.records.owns.exclusive hheld hheld'

/-- CORRECT: in every state that any interleaving of `getSite`, `resetSite` and `reloadSite` calls
    reaches, at most one call is in `_loadSite` for a key; `sites` is what the installs and erasures
    so far have made of it, no object installed twice, so that an erased one does not come back; and
    every `getSite` that returned has returned an object that was in service for its key at some time
    since the call began. -/
theorem sites_served {acts : List Act} {s : State} (h : run step State.init acts = some s) :
    (∀ k c c', (s.calls c).loads = some k → (s.calls c').loads = some k → c = c') ∧
    s.shared.sites = serving s.shared.log ∧ (installed s.shared.log).Nodup ∧
    ∀ r ∈ s.shared.returned, Served s.shared.log r.2.2 r.1 r.2.1 := by
  have hs := run_invariant' inv_step inv_init h
  exact ⟨fun k c c' hc hc' => hs.same_load hc hc', hs.sites, hs.distinct.once, hs.returned⟩

/-- A site in service. A client gets it while the bus reloads it, which erases it before the client
    has its answer; and a third call is about to reset the site. -/
def busy : List Act :=
  [.start 0 (.getSite "shop" false)] ++ List.replicate 15 (.next 0 false) ++
    [.start 1 (.getSite "shop" false), .start 2 (.reloadSite "shop"), .start 3 (.resetSite "shop")] ++
    List.replicate 5 (.next 2 false) ++ List.replicate 8 (.next 1 false) ++
    List.replicate 5 (.next 2 false) ++ [.next 1 false]

theorem sites_served_busy : ∃ s, run step State.init busy = some s ∧
    (s.shared.returned = [("shop", 0, 1), ("shop", 0, 0)] ∧ s.shared.sites "shop" = none) ∧
    (∀ k c c', (s.calls c).loads = some k → (s.calls c').loads = some k → c = c') ∧
    s.shared.sites = serving s.shared.log ∧ (installed s.shared.log).Nodup ∧
    ∀ r ∈ s.shared.returned, Served s.shared.log r.2.2 r.1 r.2.1 := by
  have hreturned : ((run step State.init busy).map fun s => (s.shared.returned, s.shared.sites "shop"))
      = some ([("shop", 0, 1), ("shop", 0, 0)], none) := by
    decide +kernel
  obtain ⟨s, hrun, hs⟩ := Option.map_eq_some_iff.mp hreturned
  exact ⟨s, hrun, Prod.mk.inj hs, sites_served hrun⟩

/-! ### No deadlock -/

/-- The steps that a set of calls still makes at most. -/
def State.left (s : State) (calls : Finset ℕ) : ℕ := ∑ c ∈ calls, (s.calls c).left

/-- As long as a call is under way, some call can go on. -/
theorem Inv.exists_next {s : State} (hs : Inv s) {c : ℕ} (hc : s.calls c ≠ .idle) :
    ∃ c' s', s.calls c' ≠ .idle ∧ step s (.next c' false) = some s' := by
  obtain ⟨c', hc', hfree⟩ := hs.records.exists_unblocked (fun c => (s.calls c).wants) rank rank_le
    (fun _ _ h => rank_lt h) c
  have hidle : s.calls c' ≠ .idle := by
    rcases hc' with rfl | hheld
    · exact hc
    · intro hidle
      rw [hidle] at hheld
      exact hheld rfl
  obtain ⟨w', pc', hadvance⟩ := advance_enabled hidle (hs.knows c').present hfree
  exact ⟨c', _, hidle, by rw [step, hadvance]; rfl⟩

theorem step_next {s s' : State} (h : step s (.next c throws) = some s') :
    (s'.calls c).left < (s.calls c).left ∧ ∀ c', c' ≠ c → s'.calls c' = s.calls c' := by
  obtain ⟨⟨w', pc'⟩, hadvance, heq⟩ := Option.map_eq_some_iff.mp h
  cases heq
  refine ⟨?_, fun c' hne => Function.update_of_ne hne ..⟩
  dsimp only
  rw [Function.update_self]
  exact advance_left hadvance

/-- One step lowers what is left of the calls. -/
theorem left_next {s s' : State} {calls : Finset ℕ} (hc : c ∈ calls)
    (h : step s (.next c throws) = some s') : s'.left calls < s.left calls := by
  obtain ⟨hlt, hothers⟩ := step_next h
  refine Finset.sum_lt_sum (fun c' _ => ?_) ⟨c, hc, hlt⟩
  rcases eq_or_ne c' c with rfl | hne
  · exact hlt.le
  · rw [hothers c' hne]

/-- Only these calls are under way. -/
def Within (calls : Finset ℕ) (s : State) : Prop := ∀ c, c ∉ calls → s.calls c = .idle

theorem Within.next {s s' : State} {calls : Finset ℕ} (hs : Within calls s) (hc : c ∈ calls)
    (h : step s (.next c throws) = some s') : Within calls s' := by
  intro c' hc'
  rw [(step_next h).2 c' (by rintro rfl; exact hc' hc)]
  exact hs c' hc'

/-- A run has only so many calls under way. -/
theorem exists_within {acts : List Act} {s : State} (h : run step State.init acts = some s) :
    ∃ calls, Within calls s := by
  refine run_invariant' (I := fun s => ∃ calls, Within calls s) (fun s a s' hs hstep => ?_)
    ⟨∅, fun _ _ => rfl⟩ h
  obtain ⟨calls, hcalls⟩ := hs
  cases a with
  | start c request =>
    rw [step] at hstep
    split at hstep <;> cases hstep
    refine ⟨insert c calls, fun c' hc' => ?_⟩
    rw [Finset.mem_insert, not_or] at hc'
    exact (Function.update_of_ne hc'.1 ..).trans (hcalls c' hc'.2)
  | next c throws =>
    have hwithin : Within (insert c calls) s :=
      fun c' hc' => hcalls c' fun hmem => hc' (Finset.mem_insert_of_mem hmem)
    exact ⟨insert c calls, hwithin.next (Finset.mem_insert_self ..) hstep⟩

/-- The steps of a call, and how often it is made. -/
def isNext (c : ℕ) : Act → Bool
  | .start _ _ => false
  | .next c' _ => c' = c

def isStart (c : ℕ) : Act → Bool
  | .start c' _ => c' = c
  | .next _ _ => false

theorem left_le (pc : Pc) : pc.left ≤ 43 := by
  have hjob : ∀ j : Job, j.left ≤ 16 := by
    rintro (_ | ⟨_, _ | _⟩) <;> simp [Job.left]
  have hreason : ∀ r : Reason, r.left ≤ 32 := by
    rintro (_ | ⟨_, _⟩) <;> simp [Reason.left]
  cases pc with
  | leave j | unlockLoad j | install j | lockLoad j | build j | lockSite j | unlockMutexes j
  | newMutex j | countMutex j | lockMutexes j =>
    have := hjob j
    simp only [Pc.left]
    omega
  | unlockReset _ r | lockReset _ r =>
    have := hreason r
    simp only [Pc.left]
    omega
  | eraseSite _ r again | countReset _ r again =>
    have := hreason r
    cases again <;> simp only [Pc.left] <;> omega
  | _ => simp [Pc.left]

theorem step_cost (c : ℕ) (s : State) (a : Act) (s' : State) (h : step s a = some s') :
    (s'.calls c).left + (isNext c a).toNat ≤ (s.calls c).left + 43 * (isStart c a).toNat := by
  cases a with
  | start c' request =>
    rw [step] at h
    split at h <;> cases h
    dsimp only [isNext, isStart]
    rcases eq_or_ne c' c with rfl | hne
    · rw [Function.update_self]
      simpa using (left_le request.start).trans (Nat.le_add_left ..)
    · rw [Function.update_of_ne hne.symm]
      simp [hne]
  | next c' throws =>
    obtain ⟨hlt, hothers⟩ := step_next h
    dsimp only [isNext, isStart]
    rcases eq_or_ne c' c with rfl | hne
    · simpa using Nat.succ_le_of_lt hlt
    · rw [hothers c hne.symm]
      simp [hne]

/-- While `c` is not started again, it makes so many steps at most. -/
theorem steps_le {acts before between after : List Act} {s : State}
    (h : run step State.init acts = some s) (hacts : acts = before ++ between ++ after) {c : ℕ}
    (hstarts : between.countP (isStart c) = 0) : between.countP (isNext c) ≤ 43 := by
  rw [hacts, List.append_assoc, run_append_eq_some] at h
  obtain ⟨s₁, -, h⟩ := h
  obtain ⟨s₂, hbetween, -⟩ := run_append_eq_some.mp h
  have hcost := run_cost (step_cost c) hbetween
  have hleft := left_le (s₁.calls c)
  omega

/-- CORRECT: no interleaving of `getSite`, `resetSite` and `reloadSite` calls ends in a deadlock. Each
    call makes at most 43 steps: so many between two starts of one caller, and so many for each start
    in all. And from every state that is reached the calls can go on, none of them waiting for good,
    until all have ended and every mutex is free. -/
theorem calls_complete {acts : List Act} {s : State} (h : run step State.init acts = some s) :
    (∀ c before between after, acts = before ++ between ++ after →
      between.countP (isStart c) = 0 → between.countP (isNext c) ≤ 43) ∧
    (∀ c, acts.countP (isNext c) ≤ 43 * acts.countP (isStart c)) ∧
    ((∃ c, s.calls c ≠ .idle) → ∃ c s', step s (.next c false) = some s') ∧
    ∃ acts' s', (∀ a ∈ acts', ∃ c, a = .next c false) ∧ run step s acts' = some s' ∧
      (∀ c, s'.calls c = .idle) ∧ ∀ m, s'.shared.owner m = none := by
  have hs := run_invariant' inv_step inv_init h
  refine ⟨fun c _ _ _ hacts => steps_le h hacts, fun c => ?_, fun ⟨c, hc⟩ => ?_, ?_⟩
  · have hcost := run_cost (step_cost c) h
    have hnone : (State.init.calls c).left = 0 := rfl
    omega
  · obtain ⟨c', s', -, hnext⟩ := hs.exists_next hc
    exact ⟨c', s', hnext⟩
  · obtain ⟨calls, hcalls⟩ := exists_within h
    have hgoes : ∀ s, Inv s ∧ Within calls s → (∀ c, s.calls c = .idle) ∨
        ∃ a s', (∃ c, a = .next c false) ∧ step s a = some s' ∧ (Inv s' ∧ Within calls s') ∧
          s'.left calls < s.left calls := by
      intro s ⟨hs, hwithin⟩
      by_cases hdone : ∀ c, s.calls c = .idle
      · exact .inl hdone
      · push Not at hdone
        obtain ⟨c, hc⟩ := hdone
        obtain ⟨c', s', hidle, hnext⟩ := hs.exists_next hc
        have hmem : c' ∈ calls := by
          by_contra hnot
          exact hidle (hwithin c' hnot)
        exact .inr ⟨_, s', ⟨c', rfl⟩, hnext, ⟨inv_step _ _ _ hs hnext, hwithin.next hmem hnext⟩,
          left_next hmem hnext⟩
    obtain ⟨acts', s', hquiet, hrun, ⟨hs', -⟩, hdone⟩ :=
      run_completes (fun s => Inv s ∧ Within calls s) (fun s => ∀ c, s.calls c = .idle)
        (fun a => ∃ c, a = Act.next c false) (State.left · calls) hgoes ⟨hs, hcalls⟩
    refine ⟨acts', s', hquiet, hrun, hdone, fun m => ?_⟩
    cases howner : s'.shared.owner m with
    | none => rfl
    | some c =>
      have hheld : m ∈ (s'.calls c).held := (hs'.records c m).mp howner
      rw [hdone c] at hheld
      cases hheld

theorem calls_complete_busy : ∃ s, run step State.init busy = some s ∧
    (∀ c before between after, busy = before ++ between ++ after →
      between.countP (isStart c) = 0 → between.countP (isNext c) ≤ 43) ∧
    (∀ c, busy.countP (isNext c) ≤ 43 * busy.countP (isStart c)) ∧
    ((∃ c, s.calls c ≠ .idle) → ∃ c s', step s (.next c false) = some s') ∧
    ∃ acts' s', (∀ a ∈ acts', ∃ c, a = .next c false) ∧ run step s acts' = some s' ∧
      (∀ c, s'.calls c = .idle) ∧ ∀ m, s'.shared.owner m = none := by
  have hruns : (run step State.init busy).isSome = true := by decide +kernel
  obtain ⟨s, hrun⟩ := Option.isSome_iff_exists.mp hruns
  exact ⟨s, hrun, calls_complete hrun⟩

end VaeDb.Serving
