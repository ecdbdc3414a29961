import GroovySharp.Digest.Blake2b
import GroovySharp.Encoding.Utf8
import GroovySharp.Language

/-!
# Source files

What is known about a source file before it is read.
-/

namespace GroovySharp

structure SourceFile where
  path : String
  /-- The path under which the file can be read, empty for a text in memory. -/
  realPath : String
  digest : String
  size : Int
  language : Language
  encoding : Option String := some "utf-8"
  isText : Bool := true
  deriving Repr, DecidableEq, Inhabited

namespace SourceFile

def digestOf (content : Bytes) : String := Digest.Blake2b.hexDigest 32 content

def ofText (path : String) (text : Chars) : SourceFile where
  path := path
  realPath := ""
  digest := digestOf (Encoding.Utf8.encode text)
  size := (Encoding.Utf8.encode text).length
  language := .groovy

end SourceFile

end GroovySharp
