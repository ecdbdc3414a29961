import GroovySharp.Stage

/-!
# Anomalies

An anomaly is a note about one file that was passed over or failed: what kind it is, how grave, and
where in the file.
-/

namespace GroovySharp

inductive Severity
  | info
  | warn
  | error
  deriving Repr, DecidableEq

namespace Severity

def all : List Severity := [info, warn, error]

def label : Severity → String
  | info => "INFO"
  | warn => "WARN"
  | error => "ERROR"

def ofLabel? (s : String) : Option Severity := all.find? fun v => v.label == s

end Severity

inductive AnomalyKind
  | ioError
  | skipped
  | encoding
  | langUnknown
  | sizeLimit
  | structuralError
  | parseFailed
  | missingConstruct
  | unsupportedConstruct
  | typeMismatch
  | timeout
  | unknown
  deriving Repr, DecidableEq

namespace AnomalyKind

def all : List AnomalyKind :=
  [ioError, skipped, encoding, langUnknown, sizeLimit, structuralError, parseFailed,
    missingConstruct, unsupportedConstruct, typeMismatch, timeout, unknown]

def label : AnomalyKind → String
  | ioError => "IO_ERROR"
  | skipped => "SKIPPED"
  | encoding => "ENCODING"
  | langUnknown => "LANG_UNKNOWN"
  | sizeLimit => "SIZE_LIMIT"
  | structuralError => "STRUCTURAL_ERROR"
  | parseFailed => "PARSE_FAILED"
  | missingConstruct => "MISSING_CONSTRUCT"
  | unsupportedConstruct => "UNSUPPORTED_CONSTRUCT"
  | typeMismatch => "TYPE_MISMATCH"
  | timeout => "TIMEOUT"
  | unknown => "UNKNOWN"

def ofLabel? (s : String) : Option AnomalyKind := all.find? fun k => k.label == s

def ofCode (code : String) : AnomalyKind :=
  match code with
  | "STRUCTURAL" => structuralError
  | "SYNTAX_ERROR" => parseFailed
  | "UNMAPPED_RULE" => parseFailed
  | "MISSING_CONSTRUCT" => missingConstruct
  | "UNSUPPORTED_CONSTRUCT" => unsupportedConstruct
  | "TYPE_MISMATCH" => typeMismatch
  | "IO_ERROR" => ioError
  | "TIMEOUT" => timeout
  | _ => unknown

end AnomalyKind

structure Anomaly where
  path : String
  /-- The digest of the file's content, empty if it is not known. -/
  digest : String
  kind : AnomalyKind
  severity : Severity
  detail : String := ""
  /-- The first and the last line concerned. -/
  lines? : Option (Int × Int) := none
  deriving Repr, DecidableEq

/-- The anomaly of a file that failed at a stage; line zero stands for no line. -/
def Anomaly.ofFailure (path digest stage code detail : String) (line? : Option Int) : Anomaly where
  path := path
  digest := digest
  kind := .ofCode code
  severity := .error
  detail := "[" ++ stage ++ "] " ++ detail
  lines? := match line? with
    | some n => if n = 0 then none else some (n, n)
    | none => none

end GroovySharp
