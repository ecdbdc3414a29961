import GroovySharp.Conversion.Build

/-!
# Settings

Settings are named switches. Each is read from an environment variable whose name follows from the
setting's; words such as `on` and `off` are understood, and anything else leaves the default.
-/

namespace GroovySharp

abbrev Environment := List (String × String)

namespace Setting

def environmentKey (name : String) : String :=
  "GROOVY2CS_" ++
    String.ofList ((Unicode.upperCase name.toList).map fun c => if c = '.' then '_' else c)

def valueOf? (word : String) : Option Bool :=
  let word := String.ofList (Unicode.lowerCase (Text.trim word.toList))
  if ["1", "true", "yes", "on"].contains word then some true
  else if ["0", "false", "no", "off"].contains word then some false
  else none

def enabled (env : Environment) (name : String) (default : Bool) : Bool :=
  ((env.lookup (environmentKey name)).bind valueOf?).getD default

/-- A question for a setting: its name, and a default if one is given. -/
structure Question where
  name : String
  default? : Option Bool
  deriving Repr, DecidableEq

def Question.answer (env : Environment) (q : Question) : Bool :=
  enabled env q.name (q.default?.getD false)

abbrev Memo := List (Question × Bool)

def Memo.ask (env : Environment) (memo : Memo) (q : Question) : Bool × Memo :=
  match memo.lookup q with
  | some b => (b, memo)
  | none => (q.answer env, (q, q.answer env) :: memo)

def preserveForCondition : String := "feature.transform.preserve_for_condition"

def implicitSystemUsing : String := "feature.transform.implicit_system_using"

def options (env : Environment) : Conversion.Options where
  preserveForCondition := enabled env preserveForCondition false
  implicitSystemUsing := enabled env implicitSystemUsing true

end Setting

end GroovySharp
