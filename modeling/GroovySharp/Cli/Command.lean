import GroovySharp.Cli.Arguments
import GroovySharp.Number.Decimal
import GroovySharp.Number.Seconds

/-!
# Commands

The commands of the program: closing statements with semicolons, converting one file, and working
through a directory.
-/

namespace GroovySharp.Cli

inductive Command
  | normalize (input : String)
  /-- The C# text goes to the output, or is printed if there is none. -/
  | translate (input : String) (output? : Option String)
  | batch (root out : String) (workers : Int) (limit : Number.Seconds)
  deriving Repr

def helpFlag : Flag := ⟨["-h", "--help"], .help⟩

def commonFlags : List Flag := [helpFlag, ⟨["-v", "--verbose"], .count⟩]

def anyValue : FlagKind := .value fun _ => true

def wholeNumber? (s : String) : Option Int :=
  match Text.readInteger s.toList with
  | .ok n => some n
  | .error _ => none

def commandFlags : List (String × List Flag) :=
  [("normalize", [helpFlag]),
    ("translate", [helpFlag, ⟨["-o", "--output"], anyValue⟩]),
    ("batch", [helpFlag, ⟨["--out"], anyValue⟩,
      ⟨["--workers"], .value fun s => (wholeNumber? s).isSome⟩,
      ⟨["--timeout"], .value fun s => (Number.read? s.toList).isSome⟩])]

namespace Command

def ofTaken? (name input : String) (t : Taken) : Option Command :=
  match name with
  | "normalize" => some (.normalize input)
  | "translate" =>
    some (.translate input ((t.value? "--output").bind fun s => if s.isEmpty then none else some s))
  | "batch" =>
    (t.value? "--out").map fun out =>
      .batch input out (((t.value? "--workers").bind wholeNumber?).getD 4)
        (.fraction (((t.value? "--timeout").bind fun s => Number.read? s.toList).getD 8.0))
  | _ => none

def parse (args : List String) : Except Stop Command := do
  let common ← take commonFlags true args
  match common.plain? with
  | some (name :: rest) =>
    match commandFlags.lookup name with
    | none => .error .usage
    | some flags =>
      let t ← take flags false rest
      match t.plain? with
      | some [input] =>
        match ofTaken? name input t with
        | some command => if common.surplus || t.surplus then .error .usage else .ok command
        | none => .error .usage
      | _ => .error .usage
  | _ => .error .usage

end Command

end GroovySharp.Cli
