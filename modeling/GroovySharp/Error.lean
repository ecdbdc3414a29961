/-!
# Reports of failed work

Every stage of the work on a source reports a failure in the same shape: a code, a message, the lines
concerned and a detail.
-/

namespace GroovySharp

structure Report where
  code : String
  message : String
  /-- The first line concerned, if known. -/
  lineStart : Option Int
  /-- The last line concerned, if known. -/
  lineEnd : Option Int
  /-- Further text, empty if there is none. -/
  detail : String
  deriving Repr, DecidableEq

namespace Report

def make (code message : String) (lineStart lineEnd : Option Int) (detail : String) : Report :=
  { code, message, lineStart, lineEnd := lineEnd <|> lineStart, detail }

def describe (r : Report) : String :=
  let located := match r.lineStart with
    | some line => r.code ++ ": " ++ r.message ++ " (line " ++ toString line ++ ")"
    | none => r.code ++ ": " ++ r.message
  if r.detail.isEmpty then located else located ++ " | " ++ r.detail

end Report

/-- A failure that is not about the program in a source: a kind of error, and words. -/
structure Breakdown where
  label : String
  message : String
  deriving Repr, DecidableEq

def Breakdown.describe (b : Breakdown) : String := b.label ++ ": " ++ b.message

/-- What is said about a failure: a report of the stage, or that the work broke down. -/
inductive Complaint
  | reported (r : Report)
  | broken (b : Breakdown)
  deriving Repr, DecidableEq

end GroovySharp
