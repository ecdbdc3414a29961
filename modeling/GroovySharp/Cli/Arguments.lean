import GroovySharp.Unicode.Classes

/-!
# Arguments of a command line

Arguments are read from left to right. One that starts with a dash names a flag, in full, shortened, or
with others behind one dash; a flag may take a value, after an equals sign or as the next argument. All
after a double dash is plain.
-/

namespace GroovySharp.Cli

/-! ### Flags -/

/-- Why arguments are not carried out. -/
inductive Stop
  | help
  | usage
  deriving Repr, DecidableEq

def Stop.code : Stop → Nat
  | help => 0
  | usage => 2

inductive FlagKind
  | help
  | count
  | value (isRight : String → Bool)

structure Flag where
  names : List String
  kind : FlagKind

def Flag.takesValue (f : Flag) : Bool :=
  match f.kind with
  | .value _ => true
  | _ => false

def Flag.key (f : Flag) : String := f.names.getLast?.getD ""

def findFlag? (flags : List Flag) (name : Chars) : Option Flag :=
  flags.find? fun f => f.names.contains (String.ofList name)

/-! ### Understanding one argument -/

structure Reading where
  flag? : Option Flag
  long : Bool := false
  attached? : Option Chars := none
  joined : Bool := false

def splitEquals : Chars → Chars × Option Chars
  | [] => ([], none)
  | '=' :: rest => ([], some rest)
  | c :: rest => (c :: (splitEquals rest).1, (splitEquals rest).2)

def isNegativeNumber : Chars → Bool
  | '-' :: rest =>
    let isDigit (c : Char) : Bool := (Unicode.digitValue? c).isSome
    let tail := rest.dropWhile isDigit
    match tail with
    | [] => !rest.isEmpty
    | '.' :: fraction => !fraction.isEmpty && fraction.all isDigit
    | _ => false
  | _ => false

/-- The flags that a shortened name, or a name with text behind it, can mean. -/
def candidates (flags : List Flag) (arg : Chars) : List Reading :=
  flags.flatMap fun f => f.names.filterMap fun name =>
    match arg with
    | '-' :: '-' :: _ =>
      let (start, attached?) := splitEquals arg
      if start.isPrefixOf name.toList then
        some { flag? := some f, long := true, attached?, joined := attached?.isSome }
      else none
    | _ =>
      if name.toList = arg.take 2 then some { flag? := some f, attached? := some (arg.drop 2) }
      else none

/-- How an argument is meant; none for a plain one. -/
def understand (flags : List Flag) (arg : Chars) : Except Stop (Option Reading) :=
  match arg with
  | '-' :: second :: _ =>
    let long := second == '-'
    match findFlag? flags arg, splitEquals arg with
    | some f, _ => .ok (some { flag? := some f, long })
    | none, (name, attached?) =>
      match findFlag? flags name, attached? with
      | some f, some text =>
        .ok (some { flag? := some f, long, attached? := some text, joined := true })
      | _, _ =>
        match candidates flags arg with
        | _ :: _ :: _ => .error .usage
        | [r] => .ok (some r)
        | [] =>
          if isNegativeNumber arg || arg.contains ' ' then .ok none else .ok (some { flag? := none })
  | _ => .ok none

inductive Mark
  | plain
  | dashes
  | flag (r : Reading)

def mark (flags : List Flag) : List String → Except Stop (List (String × Mark))
  | [] => .ok []
  | arg :: rest =>
    if arg = "--" then .ok ((arg, .dashes) :: rest.map fun a => (a, .plain))
    else do
      let r ← understand flags arg.toList
      let marked ← mark flags rest
      match r with
      | some r => return (arg, .flag r) :: marked
      | none => return (arg, .plain) :: marked

/-! ### Taking arguments -/

structure Taken where
  plain? : Option (List String) := none
  values : List (String × String) := []
  surplus : Bool := false
  deriving Repr

def Taken.value? (t : Taken) (key : String) : Option String := t.values.reverse.lookup key

/-- The flags in one argument with text attached to the first, each with its value; and whether some of
the text is no flag. -/
def expand (flags : List Flag) (f : Flag) (long joined : Bool) :
    Chars → Except Stop (List (Flag × Option Chars) × Bool)
  | [] => if f.takesValue then .ok ([(f, some [])], false) else .error .usage
  | c :: rest =>
    if f.takesValue then .ok ([(f, some (c :: rest))], false)
    else if long || joined || c == '-' then .error .usage
    else
      match findFlag? flags ['-', c] with
      | none => .ok ([(f, none)], true)
      | some next =>
        match rest with
        | [] => .ok ([(f, none), (next, none)], false)
        | '=' :: value => do
          let (others, surplus) ← expand flags next false true value
          return ((f, none) :: others, surplus)
        | d :: rest => do
          let (others, surplus) ← expand flags next false false (d :: rest)
          return ((f, none) :: others, surplus)

/-- Gives flags their values; one without takes the next argument if it needs a value. -/
def supply : List (Flag × Option Chars) → List (String × Mark) →
    Except Stop (List (Flag × String) × List (String × Mark))
  | [], args => .ok ([], args)
  | (f, some value) :: others, args => do
    let (supplied, args) ← supply others args
    return ((f, String.ofList value) :: supplied, args)
  | (f, none) :: others, args =>
    if f.takesValue then
      match args with
      | (value, .plain) :: args => do
        let (supplied, args) ← supply others args
        return ((f, value) :: supplied, args)
      | _ => .error .usage
    else do
      let (supplied, args) ← supply others args
      return ((f, "") :: supplied, args)

def carryOut : List (Flag × String) → Taken → Except Stop Taken
  | [], t => .ok t
  | (f, value) :: rest, t =>
    match f.kind with
    | .help => .error .help
    | .count => carryOut rest t
    | .value isRight =>
      if isRight value then carryOut rest { t with values := t.values ++ [(f.key, value)] }
      else .error .usage

/-- Takes the plain argument that was asked for: one, or all from it on. -/
def takePlain (toEnd : Bool) (args : List (String × Mark)) :
    Option (List String × List (String × Mark)) :=
  match args with
  | [(_, .dashes)] => none
  | args =>
    if toEnd then some (args.map (·.1), [])
    else
      match args with
      | (a, .plain) :: (_, .dashes) :: rest => some ([a], rest)
      | (a, .plain) :: rest => some ([a], rest)
      | (_, .dashes) :: (a, .plain) :: rest => some ([a], rest)
      | _ => none

def Mark.isFlag : Mark → Bool
  | flag _ => true
  | _ => false

/-- Takes arguments in at most the given number of steps. -/
def takeFrom (flags : List Flag) (toEnd : Bool) :
    Nat → List (String × Mark) → Taken → Except Stop Taken
  | 0, _, t => .ok t
  | _, [], t => .ok t
  | n + 1, (_, .flag r) :: rest, t =>
    match r.flag? with
    | none => takeFrom flags toEnd n rest { t with surplus := true }
    | some f => do
      let (found, surplus) ← match r.attached? with
        | none => .ok ([(f, none)], false)
        | some text => expand flags f r.long r.joined text
      let (supplied, rest) ← supply found rest
      let t ← carryOut supplied t
      takeFrom flags toEnd n rest { t with surplus := t.surplus || surplus }
  | n + 1, args, t =>
    match t.plain? with
    | none =>
      match takePlain toEnd args with
      | some (values, rest) => takeFrom flags toEnd n rest { t with plain? := some values }
      | none => .ok { t with surplus := true }
    | some _ => takeFrom flags toEnd n (args.dropWhile fun a => !a.2.isFlag) { t with surplus := true }

def take (flags : List Flag) (toEnd : Bool) (args : List String) : Except Stop Taken := do
  let marked ← mark flags args
  takeFrom flags toEnd (marked.length + 1) marked {}

end GroovySharp.Cli
