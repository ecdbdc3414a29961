import GroovySharp.Conversion.Program
import GroovySharp.CSharp.Render
import GroovySharp.Program
import GroovySharp.Source.Normalize

/-!
# From Groovy text to C# text

A source text goes through four stages: its statements are closed with semicolons, it is read into a
tree, the tree is converted to a C# model, and the model is written as text. The first failing stage
ends the work.
-/

namespace GroovySharp

open Unicode

inductive Stage
  | read
  | normalize
  | parse
  | transform
  | render
  deriving Repr, DecidableEq

def Stage.label : Stage → String
  | read => "read"
  | normalize => "normalize"
  | parse => "parse"
  | transform => "transform"
  | render => "render"

inductive Failure
  | unbalanced (f : Source.StructuralFault)
  | unreadable (f : Program.Fault)
  | unconvertible (f : Conversion.Fault)
  | unwritable (m : CSharp.Misplaced)
  deriving Repr

namespace Failure

def stage : Failure → Stage
  | unbalanced _ => .normalize
  | unreadable _ => .parse
  | unconvertible _ => .transform
  | unwritable _ => .render

def complaint : Failure → Complaint
  | unbalanced f => .reported f.report
  | unreadable f => f.complaint
  | unconvertible f => f.complaint
  | unwritable m => .broken ⟨"TypeError", m.message⟩

end Failure

def model (options : Conversion.Options) (source : Chars) :
    Except Failure (CSharp.CompilationUnit × List Conversion.Warning) := do
  let settled ← (Source.normalize source).mapError Failure.unbalanced
  let tree ← (Program.read settled).mapError Failure.unreadable
  (Conversion.convert options tree).mapError Failure.unconvertible

def compile (options : Conversion.Options) (source : Chars) :
    Except Failure (Points × List Conversion.Warning) := do
  let (unit, warnings) ← model options source
  let text ← (CSharp.render CSharp.fourSpaces unit).mapError Failure.unwritable
  return (text, warnings)

end GroovySharp
