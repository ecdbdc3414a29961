import GroovySharp.Unicode.Classes

/-!
# Trimming and searching text

Texts are lists of characters. This module cuts runs of characters off their ends and looks for
words in them.
-/

namespace GroovySharp.Text

def dropTail (p : Char → Bool) (cs : Chars) : Chars := (cs.reverse.dropWhile p).reverse

def trimStart (cs : Chars) : Chars := cs.dropWhile Unicode.isSpace

def trimEnd (cs : Chars) : Chars := dropTail Unicode.isSpace cs

def trim (cs : Chars) : Chars := trimEnd (trimStart cs)

def isBlank (cs : Chars) : Bool := cs.all Unicode.isSpace

def endsWithAny (words : List Chars) (cs : Chars) : Bool :=
  words.any fun w => w.isSuffixOf cs

def hasWord (word : Chars) : Chars → Bool
  | [] => word.isEmpty
  | c :: cs => word.isPrefixOf (c :: cs) || hasWord word cs

def after? : Chars → Chars → Option Chars
  | [], cs => some cs
  | _ :: _, [] => none
  | w :: ws, c :: cs => if w = c then after? ws cs else none

def slice (cs : Chars) (start stop : Nat) : Chars := (cs.drop start).take (stop - start)

end GroovySharp.Text
