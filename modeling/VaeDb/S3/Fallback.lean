import Mathlib.Data.List.Infix
import Mathlib.Tactic.Common
import VaeDb.S3

/-! The fallback: what `read_s3` answers over a history of fetches that may fail.

    A fetch that succeeds is answered from its own chunks; one that fails is answered from the cache
    directory. The directory should hold, for each object, the content of the most recent fetch whose
    file was moved into place. `finalize` removes the old copy before it renames the new one, so a
    rename that fails leaves no copy at all.

        fetch "a", moved      o ↦ a
        fetch "b", rename fails   (o removed)  ──▶ o ↦ nothing
        fetch fails           answer: nothing, not "a" -/

namespace VaeDb.S3

/-- A call of `read_s3`, and how its fetch goes. -/
structure Call where
  objectname : String
  fetch : Fetch

/-- The file of the fetch was moved into place. -/
def Fetch.moved (f : Fetch) : Bool := f.ok && f.tempOpens && f.renames

/-- The cache directory after some calls. -/
def dirAfter (initial : CacheDir) (calls : List Call) : CacheDir :=
  calls.foldl (fun cache c => (read_s3 cache c.fetch c.objectname).1) initial

/-- What a call answers after some others. -/
def answer (initial : CacheDir) (before : List Call) (c : Call) : String :=
  (read_s3 (dirAfter initial before) c.fetch c.objectname).2

/-- The content of the most recent fetch of an object that was moved into place, or else what was
    there before all calls. -/
def latest (initial : CacheDir) (calls : List Call) (objectname : String) : Option String :=
  ((calls.filter fun c => c.objectname = objectname && c.fetch.moved).getLast?.map
    (·.fetch.buffer)).or (initial objectname)

/-- A call does what a fallback cache has to do. -/
structure Right (initial : CacheDir) (before : List Call) (c : Call) : Prop where
  fetched : c.fetch.ok → answer initial before c = String.join c.fetch.chunks
  fallback : ¬ c.fetch.ok → answer initial before c = (latest initial before c.objectname).getD ""
  kept : ¬ c.fetch.moved → ∀ objectname content, dirAfter initial before objectname = some content →
    dirAfter initial (before ++ [c]) objectname = some content

/-- If the rename is what fails, there was no copy to lose. -/
def NothingLost (initial : CacheDir) (before : List Call) (c : Call) : Prop :=
  c.fetch.ok → c.fetch.tempOpens → ¬ c.fetch.renames → latest initial before c.objectname = none

variable {initial : CacheDir} {before calls : List Call} {c : Call}

theorem dirAfter_concat : dirAfter initial (before ++ [c]) =
    finalize (dirAfter initial before) c.fetch c.objectname := by
  simp [dirAfter, read_s3]

theorem latest_concat : latest initial (before ++ [c]) =
    if c.fetch.moved then
      Function.update (latest initial before) c.objectname (some c.fetch.buffer)
    else latest initial before := by
  funext objectname
  by_cases hmoved : c.fetch.moved
  · rw [if_pos hmoved, Function.update_apply]
    by_cases heq : c.objectname = objectname
    · simp [latest, List.filter_append, heq, hmoved]
    · simp [latest, List.filter_append, heq, Ne.symm heq]
  · simp [latest, List.filter_append, hmoved]

theorem finalize_of_moved (h : c.fetch.moved) (cache : CacheDir) :
    finalize cache c.fetch c.objectname =
      Function.update cache c.objectname (some c.fetch.buffer) := by
  simp only [Fetch.moved, Bool.and_eq_true] at h
  simp [finalize, h]

/-- A call that moves nothing leaves the directory alone, unless its rename failed. -/
theorem finalize_of_not_moved (h : ¬ c.fetch.moved) (cache : CacheDir) :
    finalize cache c.fetch c.objectname =
      if c.fetch.ok ∧ c.fetch.tempOpens then Function.update cache c.objectname none else cache := by
  cases hok : c.fetch.ok <;> cases htemp : c.fetch.tempOpens <;>
    simp_all [finalize, Fetch.moved]

/-- One call, from a directory that holds what it should. -/
theorem right_iff_nothingLost (h : dirAfter initial before = latest initial before) :
    Right initial before c ↔ NothingLost initial before c := by
  have hanswer : answer initial before c =
      if c.fetch.ok then c.fetch.buffer else (latest initial before c.objectname).getD "" := by
    rw [answer, read_s3_snd, Fetch.text, h]
  constructor
  · intro hright hok htemp hrename
    have hmoved : ¬ c.fetch.moved := by simp [Fetch.moved, hrename]
    rw [← h]
    cases hcopy : dirAfter initial before c.objectname with
    | none => rfl
    | some content =>
      have hkept := hright.kept hmoved _ content hcopy
      rw [dirAfter_concat, finalize_of_not_moved hmoved, if_pos ⟨hok, htemp⟩,
        Function.update_self] at hkept
      cases hkept
  · intro hlost
    refine ⟨fun hok => by rw [hanswer, if_pos hok, Fetch.buffer],
      fun hok => by rw [hanswer, if_neg hok], ?_⟩
    intro hmoved objectname content hcopy
    rw [dirAfter_concat, finalize_of_not_moved hmoved]
    split
    · next hboth =>
      have hnone := hlost hboth.1 hboth.2 (by simpa [Fetch.moved, hboth] using hmoved)
      have hne : objectname ≠ c.objectname := by
        rintro rfl
        rw [h, hnone] at hcopy
        cases hcopy
      rw [Function.update_of_ne hne, hcopy]
    · exact hcopy

/-- The directory keeps holding what it should. -/
theorem dirAfter_concat_eq (h : dirAfter initial before = latest initial before)
    (hlost : NothingLost initial before c) :
    dirAfter initial (before ++ [c]) = latest initial (before ++ [c]) := by
  rw [dirAfter_concat, latest_concat]
  by_cases hmoved : c.fetch.moved
  · rw [finalize_of_moved hmoved, if_pos hmoved, h]
  · rw [finalize_of_not_moved hmoved, if_neg hmoved, ← h]
    split
    · next hboth =>
      have hnone := hlost hboth.1 hboth.2 (by simpa [Fetch.moved, hboth] using hmoved)
      rw [Function.update_eq_self_iff, h, hnone]
    · rfl

/-! ### Histories -/

theorem prefix_concat_iff {P : List Call → Call → Prop} :
    (∀ pre d, pre ++ [d] <+: calls ++ [c] → P pre d) ↔
      (∀ pre d, pre ++ [d] <+: calls → P pre d) ∧ P calls c := by
  constructor
  · intro h
    exact ⟨fun pre d hpre => h pre d (hpre.trans (List.prefix_append _ _)), h _ _ List.prefix_rfl⟩
  · rintro ⟨hcalls, hlast⟩ pre d hpre
    rcases List.prefix_concat_iff.mp hpre with heq | hpre
    · obtain ⟨rfl, rfl⟩ := List.append_inj' heq rfl |>.imp id List.singleton_inj.mp
      exact hlast
    · exact hcalls pre d hpre

theorem rights_iff (initial : CacheDir) (calls : List Call) :
    ((∀ pre d, pre ++ [d] <+: calls → Right initial pre d) ↔
      ∀ pre d, pre ++ [d] <+: calls → NothingLost initial pre d) ∧
    ((∀ pre d, pre ++ [d] <+: calls → NothingLost initial pre d) →
      dirAfter initial calls = latest initial calls) := by
  induction calls using List.reverseRecOn with
  | nil =>
    refine ⟨iff_of_true ?_ ?_, fun _ => by funext objectname; simp [dirAfter, latest]⟩
    · intro pre d hpre
      simp at hpre
    · intro pre d hpre
      simp at hpre
  | append_singleton calls c ih =>
    obtain ⟨hiff, hdir⟩ := ih
    rw [prefix_concat_iff, prefix_concat_iff, hiff]
    constructor
    · exact and_congr_right fun hlost => right_iff_nothingLost (hdir hlost)
    · exact fun hlost => dirAfter_concat_eq (hdir hlost.1) hlost.2

/-- CORRECT: over any history of calls, from any directory, every call does its part exactly if no
    rename fails for an object that has a copy. -/
theorem read_s3_right_iff (initial : CacheDir) (calls : List Call) :
    (∀ before c, before ++ [c] <+: calls → Right initial before c) ↔
      ∀ before c, before ++ [c] <+: calls → NothingLost initial before c :=
  (rights_iff initial calls).1

/-- The copy "a" is gone after a rename that failed, and the next fetch that fails is answered with
    nothing. -/
def renameFails : List Call :=
  [⟨"feed", .arrived "a"⟩, ⟨"feed", ⟨["b"], true, true, false⟩⟩, ⟨"feed", ⟨[], false, true, true⟩⟩]

theorem copy_lost :
    latest (fun _ => none) (renameFails.take 2) "feed" = some "a" ∧
    answer (fun _ => none) (renameFails.take 2) ⟨"feed", ⟨[], false, true, true⟩⟩ = "" ∧
    ¬ ∀ before c, before ++ [c] <+: renameFails → Right (fun _ => none) before c := by
  have hlatest : latest (fun _ => none) (renameFails.take 2) "feed" = some "a" := by decide
  have hanswer :
      answer (fun _ => none) (renameFails.take 2) ⟨"feed", ⟨[], false, true, true⟩⟩ = "" := by
    decide
  refine ⟨hlatest, hanswer, fun h => ?_⟩
  have hright := h (renameFails.take 2) ⟨"feed", ⟨[], false, true, true⟩⟩ List.prefix_rfl
  have hfallback := hright.fallback (by decide)
  rw [hanswer, hlatest] at hfallback
  exact absurd hfallback (by decide)

end VaeDb.S3
