import GroovySharp.Batch
import GroovySharp.Cli.Command

/-!
# Carrying out commands

A command reads from a disk and leaves a disk, what it prints, and the code with which the program ends.
-/

namespace GroovySharp.Cli

open Unicode

structure Context where
  environment : Environment := []
  now : Moment := {}
  pace : Nat → Run.Pace := fun _ => {}
  encode : Rows → Bytes := fun _ => []

structure Ending where
  code : Nat
  printed : Points := []
  complaints : String := ""
  summary? : Option Batch.Summary := none
  disk : Disk

/-- What is printed in the end: the summary of a batch with the time it took, in thousandths of a
second, or what the command printed. -/
def Ending.output (wallMs : Int) (e : Ending) : Points :=
  match e.summary? with
  | some s => ofChars ((s.value wallMs).render ++ ['\n'])
  | none => e.printed

inductive Outcome
  /-- The arguments were not carried out. -/
  | stopped (s : Stop)
  | broken (b : Breakdown)
  | ended (e : Ending)

def unifyLineEnds : Chars → Chars
  | '\r' :: '\n' :: rest => '\n' :: unifyLineEnds rest
  | '\r' :: rest => '\n' :: unifyLineEnds rest
  | c :: rest => c :: unifyLineEnds rest
  | [] => []

def readText (d : Disk) (path : String) : Except Breakdown Chars :=
  match d.read (Path.ofText path) with
  | .error f => .error f.breakdown
  | .ok content =>
    match Encoding.Codec.decode content .utf8 with
    | .ok cs => .ok (unifyLineEnds cs)
    | .error f => .error ⟨"UnicodeDecodeError", f.decodingMessage⟩

def writeText (d : Disk) (path : String) (text : Points) : Except Breakdown Disk :=
  match d.write (Path.ofText path) [] with
  | .error f => .error f.breakdown
  | .ok d =>
    match Encoding.Utf8.encodePoints text with
    | .error f => .error ⟨"UnicodeEncodeError", f.encodingMessage⟩
    | .ok content =>
      match d.write (Path.ofText path) content with
      | .error f => .error f.breakdown
      | .ok d => .ok d

def complain (d : Disk) (input : String) (r : Report) : Outcome :=
  .ended { code := 1, complaints := input ++ ": " ++ r.describe ++ "\n", disk := d }

/-- Closes the statements of a file with semicolons and prints the text. -/
def normalize (d : Disk) (input : String) : Outcome :=
  match readText d input with
  | .error b => .broken b
  | .ok cs =>
    match Source.normalize cs with
    | .error f => complain d input f.report
    | .ok text => .ended { code := 0, printed := ofChars text, disk := d }

def translate (ctx : Context) (d : Disk) (input : String) (output? : Option String) : Outcome :=
  match readText d input with
  | .error b => .broken b
  | .ok cs =>
    match compile (Setting.options ctx.environment) cs with
    | .error f =>
      match f.complaint with
      | .reported r => complain d input r
      | .broken b => .broken b
    | .ok (text, _) =>
      match output? with
      | none => .ended { code := 0, printed := text, disk := d }
      | some output =>
        match writeText d output text with
        | .error b => .broken b
        | .ok d => .ended { code := 0, disk := d }

/-- Works through a directory; the summary is printed in the end. -/
def batch (ctx : Context) (d : Disk) (root out : String) (workers : Int) (limit : Number.Seconds) :
    Outcome :=
  let options := Setting.options ctx.environment
  match Batch.runOn {} { workers, limit, encode := ctx.encode } (fun d => Job.work d options) ctx.pace
      ctx.now root (Path.ofText out) none d with
  | .error f => .broken f.breakdown
  | .ok (o, _) =>
    .ended { code := if o.summary.failed = 0 then 0 else 2, summary? := some o.summary, disk := o.disk }

def perform (ctx : Context) (d : Disk) : Command → Outcome
  | .normalize input => normalize d input
  | .translate input output? => translate ctx d input output?
  | .batch root out workers limit => batch ctx d root out workers limit

def run (ctx : Context) (d : Disk) (args : List String) : Outcome :=
  match Command.parse args with
  | .error s => .stopped s
  | .ok command => perform ctx d command

end GroovySharp.Cli
