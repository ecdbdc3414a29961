import GroovySharp.Text.Record
import GroovySharp.Tree

/-!
# Languages and their readers

Which languages sources are written in, and what identifies the reader of one.
-/

namespace GroovySharp

inductive Language
  | groovy
  | unknown
  deriving Repr, DecidableEq, Inhabited

namespace Language

def label : Language → String
  | groovy => "groovy"
  | unknown => "unknown"

def choice : Language → String
  | groovy => "GROOVY"
  | unknown => "UNKNOWN"

def ofLabel? (s : String) : Option Language := [groovy, unknown].find? fun l => l.label == s

end Language

structure ReaderInfo where
  language : Language
  grammarName : String
  grammarDigest : String
  version : String
  deriving Repr, DecidableEq, Inhabited

namespace ReaderInfo

def groovy : ReaderInfo where
  language := .groovy
  grammarName := "groovy-subset"
  grammarDigest := "3d98fbb81d463c048286614dfd0bf05681dba0a8"
  version := "1.0.0"

def isComplete (i : ReaderInfo) : Bool :=
  !i.grammarName.isEmpty && !i.grammarDigest.isEmpty && !i.version.isEmpty

def record (i : ReaderInfo) : Chars :=
  Text.recordText "DriverInfo"
    [("language", Text.choiceText "Language" i.language.choice i.language.label),
      ("grammar_name", Text.stringText i.grammarName),
      ("grammar_sha", Text.stringText i.grammarDigest), ("version", Text.stringText i.version)]

end ReaderInfo

def Kind.labels : List String := (Kind.all.map Kind.label).mergeSort

end GroovySharp
