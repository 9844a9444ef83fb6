import Mathlib.Logic.Function.Basic

/-! `read_s3`: fetch an object, keep a copy in the cache directory, fall back to the copy.

    The chunks that arrive go to a buffer and to a temporary file. After a successful fetch the old
    copy is removed and the temporary file renamed into its place; after a failed one the temporary
    file is thrown away and the copy, if there is one, is the answer. -/

namespace VaeDb.S3

/-- The cache directory: object name to content. -/
abbrev CacheDir := String → Option String

/-- How one fetch goes: the chunks delivered, whether it completes, whether the temporary file could
    be opened, and whether it can be renamed into place. -/
structure Fetch where
  chunks : List String
  ok : Bool
  tempOpens : Bool
  renames : Bool

/-- A fetch that delivers a text, and stores it. -/
def Fetch.arrived (text : String) : Fetch := ⟨[text], true, true, true⟩

/-- `ss`: what `commit_buffer` has collected. -/
def Fetch.buffer (f : Fetch) : String := String.join f.chunks

/-- `transfer::finalize`. -/
def finalize (cache : CacheDir) (f : Fetch) (objectname : String) : CacheDir :=
  if !f.tempOpens then cache
  else if !f.ok then cache
  else
    -- the old copy goes before the rename is tried
    let cache := Function.update cache objectname none
    if f.renames then Function.update cache objectname (some f.buffer) else cache

/-- `transfer::get_value`. -/
def get_value (cache : CacheDir) (f : Fetch) (objectname : String) : String :=
  if f.ok then f.buffer else (cache objectname).getD ""

def read_s3 (cache : CacheDir) (f : Fetch) (objectname : String) : CacheDir × String :=
  let cache := finalize cache f objectname
  (cache, get_value cache f objectname)

/-- The text a fetch yields: what arrived, or else the cached copy, or else nothing. -/
def Fetch.text (f : Fetch) (cache : CacheDir) (objectname : String) : String :=
  if f.ok then f.buffer else (cache objectname).getD ""

/-- Storing the copy does not change what the same call answers. -/
theorem read_s3_snd (cache : CacheDir) (f : Fetch) (objectname : String) :
    (read_s3 cache f objectname).2 = f.text cache objectname := by
  rcases hok : f.ok with _ | _
  · simp [read_s3, finalize, get_value, Fetch.text, hok]
  · simp [read_s3, get_value, Fetch.text, hok]

end VaeDb.S3
