import StyleAudit.Settings.Basic

/-!
# Settings from values

Settings come as a table of named values, from a settings file or from an editor, or as a list of
values in the order of the fields. Names that are no field are ignored and missing fields keep
their defaults; a value of the wrong type is refused.
-/

namespace StyleAudit

namespace Settings

/-- A value of a settings document. -/
inductive Value
  | bool (b : Bool)
  | integer (n : Int)
  | text (s : String)
  | list (items : List Value)
  /-- Any other value. No field has one. -/
  | other
  deriving Repr, Inhabited

namespace Value

def bool? : Value → Option Bool
  | bool b => some b
  | _ => none

/-- The number of words of 64 bits. -/
def wordCount : Int := 18446744073709551616

/-- Numbers are natural numbers of 64 bits. -/
def nat? : Value → Option Nat
  | integer n => if 0 ≤ n ∧ n < wordCount then some n.toNat else none
  | _ => none

def text? : Value → Option String
  | text s => some s
  | _ => none

def texts? : Value → Option (List String)
  | list items => items.mapM text?
  | _ => none

end Value

/-- A whole settings document. -/
inductive Source
  /-- No settings are given. -/
  | absent
  | table (fields : List (String × Value))
  | sequence (items : List Value)
  /-- A document of another shape. -/
  | other
  deriving Repr

/-- Sets one field, unless the value is of the wrong type. -/
abbrev Setter := Settings → Value → Option Settings

def fields : List (String × Setter) := [
  ("exclude", fun s v => v.texts?.map fun x => { s with exclude := x }),
  ("style_extensions", fun s v => v.texts?.map fun x => { s with styleExtensions := x }),
  ("markup_extensions", fun s v => v.texts?.map fun x => { s with markupExtensions := x }),
  ("script_extensions", fun s v => v.texts?.map fun x => { s with scriptExtensions := x }),
  ("check_undefined", fun s v => v.bool?.map fun x => { s with checkUndefined := x }),
  ("check_unused", fun s v => v.bool?.map fun x => { s with checkUnused := x }),
  ("remote_stylesheets", fun s v => v.bool?.map fun x => { s with remoteStylesheets := x }),
  ("workspace_scan", fun s v => v.bool?.map fun x => { s with workspaceScan := x }),
  ("report_unknown_id_attributes",
    fun s v => v.bool?.map fun x => { s with reportUnknownIdAttributes := x }),
  ("cache_max_entries", fun s v => v.nat?.map fun x => { s with cacheMaxEntries := x }),
  ("cache_ttl_secs", fun s v => v.nat?.map fun x => { s with cacheTtlSecs := x }),
  ("max_workspace_files", fun s v => v.nat?.map fun x => { s with maxWorkspaceFiles := x }),
  ("batch_size", fun s v => v.nat?.map fun x => { s with batchSize := x }),
  ("max_concurrency", fun s v => v.nat?.map fun x => { s with maxConcurrency := x }),
  ("max_file_size", fun s v => v.nat?.map fun x => { s with maxFileSize := x }),
  ("max_content_length", fun s v => v.nat?.map fun x => { s with maxContentLength := x }),
  ("remote_timeout_ms", fun s v => v.nat?.map fun x => { s with remoteTimeoutMs := x }),
  ("max_redirects", fun s v => v.nat?.map fun x => { s with maxRedirects := x })]

/-- Sets the fields that a table names. -/
def ofTable? (table : List (String × Value)) : Option Settings :=
  fields.foldlM (fun s (name, setter) =>
    match table.lookup name with
    | some v => setter s v
    | none => some s) {}

/-- Sets the first fields to the values of a list. -/
def ofSequence? (items : List Value) : Option Settings :=
  if fields.length < items.length then none
  else (fields.zip items).foldlM (fun s ((_, setter), v) => setter s v) {}

def ofSource? : Source → Option Settings
  | .absent => some {}
  | .table fields => ofTable? fields
  | .sequence items => ofSequence? items
  | .other => none

/-- The place that settings of an editor are said to come from. -/
def editorOptions : String := "initializationOptions"

/-- The settings that an editor sends. -/
def ofEditor (source : Source) : Except Error Settings :=
  match ofSource? source with
  | some s => .ok s
  | none => .error (.settings editorOptions "not a settings document")

end Settings

end StyleAudit
