import GroovySharp.Disk.Basic
import GroovySharp.Encoding.Codec
import GroovySharp.Number.Seconds
import GroovySharp.SourceFile
import GroovySharp.Stage

/-!
# Readers by language

A registry knows a reader for some languages. It takes jobs, each a file whose text is at hand or
on disk, and the work on one job gives C# text or the stage that failed.
-/

namespace GroovySharp

open Unicode

/-! ### Registries -/

structure Registry where
  readers : List (Language × ReaderInfo)
  limit : Number.Seconds := .fraction 8.0
  /-- How many jobs are in flight; at least one is. -/
  workers : Int := 4
  enabled : List Language := [.groovy]

/-- Why a reader cannot be registered. -/
inductive RegistrationFault
  | incomplete (language : Language) (info : ReaderInfo)
  | mismatched (language : Language) (info : ReaderInfo)
  deriving Repr, DecidableEq

/-- What is said about a reader that cannot be registered. -/
def RegistrationFault.breakdown : RegistrationFault → Breakdown
  | incomplete language info =>
    ⟨"ValueError", "Driver for " ++ language.label ++ " returned incomplete DriverInfo: " ++
      String.ofList info.record⟩
  | mismatched language info =>
    ⟨"ValueError", "Driver registered for " ++ language.label ++ " parses " ++ info.language.label⟩

def ReaderInfo.check (language : Language) (info : ReaderInfo) : Except RegistrationFault Unit :=
  if !info.isComplete then .error (.incomplete language info)
  else if info.language ≠ language then .error (.mismatched language info)
  else .ok ()

namespace Registry

def checked (reg : Registry) : Except RegistrationFault Registry := do
  reg.readers.forM fun (language, info) => info.check language
  return reg

def window (reg : Registry) : Nat := max 1 reg.workers.toNat

def readerFor? (reg : Registry) (language : Language) : Option ReaderInfo :=
  if reg.enabled.contains language then reg.readers.lookup language else none

end Registry

/-! ### The work on one job -/

structure Job where
  file : SourceFile
  text? : Option Chars := none
  deriving Repr, DecidableEq

structure Mishap where
  stage : Stage
  code : String
  detail : String
  line? : Option Int := none
  deriving Repr, DecidableEq

namespace Mishap

def unreadable (b : Breakdown) : Mishap := { stage := .read, code := "IO_ERROR", detail := b.describe }

def internal (stage : Stage) (b : Breakdown) : Mishap :=
  { stage, code := "INTERNAL", detail := b.describe }

def ofComplaint (stage : Stage) : Complaint → Mishap
  | .reported r => { stage, code := r.code, detail := r.describe, line? := r.lineStart }
  | .broken b => internal stage b

end Mishap

/-- What becomes of a job, its text or what went wrong. -/
abbrev Work := Job → Except Mishap Points

namespace Job

def encodingName (f : SourceFile) : String :=
  match f.encoding with
  | some name => if name.isEmpty then "utf-8" else name
  | none => "utf-8"

/-- Decodes the content of a file. An empty file is an empty text in any encoding, also in one that is
not known. -/
def decode (f : SourceFile) (content : Bytes) : Except Mishap Chars :=
  match Encoding.Codec.ofName? (encodingName f) with
  | none =>
    if content.isEmpty then .ok []
    else .error (.internal .read ⟨"LookupError", "unknown encoding: " ++ encodingName f⟩)
  | some codec =>
    match Encoding.Codec.decode content codec with
    | .ok cs => .ok cs
    | .error e => .error (.unreadable ⟨"UnicodeDecodeError", e.decodingMessage⟩)

def text (d : Disk) (j : Job) : Except Mishap Chars :=
  match j.text? with
  | some cs => .ok cs
  | none =>
    match d.read (Path.ofText j.file.realPath) with
    | .ok content => decode j.file content
    | .error f => .error (.unreadable f.breakdown)

/-- Takes a job through the stages; what ends the work is noted with the stage it was in. -/
def work (d : Disk) (options : Conversion.Options) (j : Job) : Except Mishap Points := do
  let cs ← j.text d
  let settled ← (Source.normalize cs).mapError fun f => .ofComplaint .normalize (.reported f.report)
  let tree ← (Program.read settled).mapError fun f => .ofComplaint .parse f.complaint
  let (unit, _) ← (Conversion.convert options tree).mapError fun f => .ofComplaint .transform f.complaint
  (CSharp.render CSharp.fourSpaces unit).mapError fun m =>
    .internal .render ⟨"TypeError", m.message⟩

def reachesReader (outcome : Except Mishap Points) : Bool :=
  match outcome with
  | .ok _ => true
  | .error m => m.stage != .read && m.stage != .normalize

end Job

/-! ### Results -/

structure Result where
  file : SourceFile
  reader? : Option ReaderInfo
  output? : Option Points := none
  elapsed : Number.Seconds := .fraction 0.0
  ok : Bool := false
  stage? : Option String := none
  errorCode? : Option String := none
  error? : Option String := none
  errorLine? : Option Int := none

namespace Result

def ofWork (file : SourceFile) (reader : ReaderInfo) (elapsed : Float) :
    Except Mishap Points → Result
  | .ok output => { file, reader? := some reader, output? := some output, elapsed := .fraction elapsed, ok := true }
  | .error m =>
    { file, reader? := some reader, elapsed := .fraction elapsed, stage? := some m.stage.label
      errorCode? := some m.code, error? := some m.detail, errorLine? := m.line? }

def unserved (file : SourceFile) : Result :=
  { file, reader? := none, errorCode? := some "NO_DRIVER", error? := some "no-driver" }

def expired (file : SourceFile) (reader? : Option ReaderInfo) (limit : Number.Seconds) : Result :=
  { file, reader?, elapsed := limit, errorCode? := some "TIMEOUT", error? := some "timeout" }

end Result

end GroovySharp
