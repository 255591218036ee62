import Olap.Config.Json
import Olap.Diagnostic

/-!
# Engine configuration

The settings of an engine. They may be given as a JSON object: settings that it does not name keep
their defaults, and fields that name no setting are skipped. They may also be given as a JSON array,
which lists the values of the first few settings in their fixed order; the others keep their defaults.
-/

set_option autoImplicit false

namespace Olap

structure EngineConfig where
  /-- The largest number of tuples in a list; zero means any number. -/
  resultLimit : Nat := 0
  /-- Every how many rounds a loop asks whether to go on; zero means never. -/
  checkInterval : Nat := 1000
  /-- The timeout of a query in milliseconds; zero means none. -/
  queryTimeoutMs : Nat := 0
  /-- Whether the evaluations of each calculation are counted. -/
  profiling : Bool := true
  maxPhases : Nat := 16
  /-- The number of queued cells that ends a phase. -/
  cellBatchSize : Nat := 1000
  /-- The number of calculations that may be nested in each other. -/
  maxEvalDepth : Nat := 512
  deriving DecidableEq, Repr

namespace EngineConfig

/-- The failure of a configuration. -/
def failure (message : String) : QueryError := { code := .configuration, message }

/-- Refuses settings that an engine cannot run with. -/
def validate (c : EngineConfig) : Except QueryError Unit :=
  if c.maxPhases = 0 then .error (failure "max_phases must be at least 1")
  else if c.maxEvalDepth = 0 then .error (failure "max_eval_depth must be at least 1")
  else if c.cellBatchSize = 0 then .error (failure "cell_batch_size must be at least 1")
  else .ok ()

/-- The timeout of a query, if there is one. -/
def timeout? (c : EngineConfig) : Option Nat :=
  if 0 < c.queryTimeoutMs then some c.queryTimeoutMs else none

/-! ## Settings by name -/

/-- A setting that is a whole number. -/
structure NumberSetting where
  name : String
  value : EngineConfig → Nat
  change : EngineConfig → Nat → EngineConfig

/-- The settings that are whole numbers. -/
def numberSettings : List NumberSetting :=
  [⟨"result_limit", resultLimit, fun c n => { c with resultLimit := n }⟩,
    ⟨"check_cancel_or_timeout_interval", checkInterval, fun c n => { c with checkInterval := n }⟩,
    ⟨"query_timeout_ms", queryTimeoutMs, fun c n => { c with queryTimeoutMs := n }⟩,
    ⟨"max_phases", maxPhases, fun c n => { c with maxPhases := n }⟩,
    ⟨"cell_batch_size", cellBatchSize, fun c n => { c with cellBatchSize := n }⟩,
    ⟨"max_eval_depth", maxEvalDepth, fun c n => { c with maxEvalDepth := n }⟩]

/-- The whole-number setting of a given name. -/
def numberSetting? (name : String) : Option NumberSetting :=
  numberSettings.find? (·.name == name)

/-- The names of all settings, in their fixed order. -/
def settingNames : List String :=
  ["result_limit", "check_cancel_or_timeout_interval", "query_timeout_ms", "profiling", "max_phases",
    "cell_batch_size", "max_eval_depth"]

/-- Changes the setting that a field names, if it names one and gives it a fitting value. -/
def applyField? (c : EngineConfig) (name : String) (value : JsonValue) : Option EngineConfig :=
  if name = "profiling" then
    match value with
    | .bool b => some { c with profiling := b }
    | _ => none
  else match numberSetting? name with
    | none => some c
    | some setting =>
      match value with
      | .natural n => some (setting.change c n)
      | _ => none

/-- Changes settings field by field. Names must be valid text, and no setting may be named twice. -/
def applyFields? (seen : List String) (c : EngineConfig) :
    List (Option String × JsonValue) → Option EngineConfig
  | [] => some c
  | (none, _) :: _ => none
  | (some name, value) :: rest =>
    if seen.contains name then none
    else do
      let c ← c.applyField? name value
      applyFields? (if settingNames.contains name then name :: seen else seen) c rest

/-- Changes the first settings in their fixed order. There must not be more values than settings. -/
def applyItems? (c : EngineConfig) (items : List JsonValue) : Option EngineConfig :=
  if items.length ≤ settingNames.length then
    applyFields? [] c ((settingNames.map some).zip items)
  else none

/-- The configuration that a JSON value describes, before it is checked. -/
def ofJson? : JsonValue → Option EngineConfig
  | .object fields => applyFields? [] {} fields
  | .array items => applyItems? {} items
  | _ => none

/-- Reads a configuration from a JSON text. -/
def ofText (text : String) : Except QueryError EngineConfig :=
  match (JsonValue.read? text).bind ofJson? with
  | some c =>
    match c.validate with
    | .ok _ => .ok c
    | .error e => .error e
  | none => .error (failure "Invalid engine configuration")

end EngineConfig

end Olap
