import GroovySharp.Json.Value
import GroovySharp.Registry.Basic
import GroovySharp.Sink

/-!
# Tables

A run leaves two tables: one row for each result and one for each anomaly. A table is kept as a series
of numbered parts; rows wait in memory until a part is written.
-/

namespace GroovySharp

/-! ### Rows -/

/-- What is kept of a result. -/
structure ResultRow where
  path : String
  digest : String
  ok : Bool
  stage? : Option String
  errorCode? : Option String
  errorDetail? : Option String
  errorLine? : Option Int
  elapsedMs : Float
  outputPath? : Option String
  outputBytes : Nat
  readerVersion? : Option String
  grammarDigest? : Option String
  deriving Repr

/-- The row of a result whose C# text has the given bytes and stands at the given path. -/
def ResultRow.ofResult (r : Result) (output? : Option (String × Bytes)) : ResultRow where
  path := r.file.path
  digest := r.file.digest
  ok := r.ok
  stage? := r.stage?
  errorCode? := r.errorCode?
  errorDetail? := r.error?
  errorLine? := r.errorLine?
  elapsedMs := r.elapsed.milliseconds
  outputPath? := output?.map (·.1)
  outputBytes := match output? with
    | some (_, content) => content.length
    | none => 0
  readerVersion? := r.reader?.map (·.version)
  grammarDigest? := r.reader?.map (·.grammarDigest)

def schemaVersion : String := "1.0"

def JsonValue.ofText? (s : Option String) : JsonValue :=
  match s with
  | some s => .text s
  | none => .null

def JsonValue.ofInt? (n : Option Int) : JsonValue :=
  match n with
  | some n => .integer n
  | none => .null

def ResultRow.value (r : ResultRow) : JsonValue :=
  .ofFields [("path", .text r.path), ("blob_sha", .text r.digest), ("ok", .bool r.ok),
    ("stage", .ofText? r.stage?), ("error_code", .ofText? r.errorCode?),
    ("error_detail", .ofText? r.errorDetail?), ("error_line", .ofInt? r.errorLine?),
    ("elapsed_ms", .decimal r.elapsedMs), ("output_path", .ofText? r.outputPath?),
    ("output_bytes", .integer r.outputBytes), ("driver_version", .ofText? r.readerVersion?),
    ("grammar_sha", .ofText? r.grammarDigest?), ("schema_version", .text schemaVersion)]

def Anomaly.value (a : Anomaly) : JsonValue :=
  .ofFields [("path", .text a.path), ("blob_sha", .text a.digest), ("kind", .text a.kind.label),
    ("severity", .text a.severity.label), ("detail", .text a.detail),
    ("line_start", .ofInt? (a.lines?.map (·.1))), ("line_end", .ofInt? (a.lines?.map (·.2))),
    ("schema_version", .text schemaVersion)]

inductive Rows
  | results (rows : List ResultRow)
  | anomalies (rows : List Anomaly)

/-! ### Series -/

/-- The rows of a table: those that wait, and those of each part, with the counts of both. -/
structure Series (α : Type) where
  waiting : Array α := #[]
  parts : List (List α) := []
  count : Nat := 0
  rowsWritten : Nat := 0
  count_eq : count = parts.length := by rfl
  rowsWritten_eq : rowsWritten = parts.flatten.length := by rfl

namespace Series

def empty {α : Type} : Series α := {}

def rows {α : Type} (s : Series α) : List α := s.parts.flatten ++ s.waiting.toList

def add {α : Type} (row : α) (s : Series α) : Series α := { s with waiting := s.waiting.push row }

def cut {α : Type} (s : Series α) : Series α where
  parts := s.parts ++ [s.waiting.toList]
  count := s.count + 1
  rowsWritten := s.rowsWritten + s.waiting.size
  count_eq := by simp [s.count_eq]
  rowsWritten_eq := by simp [s.rowsWritten_eq]

def needsPart {α : Type} (force : Bool) (s : Series α) : Bool :=
  !s.waiting.isEmpty || (force && s.count == 0)

theorem rows_add {α : Type} (row : α) (s : Series α) : (s.add row).rows = s.rows ++ [row] := by simp [rows, add]

theorem rows_cut {α : Type} (s : Series α) : s.cut.rows = s.rows := by simp [rows, cut]

end Series

end GroovySharp
