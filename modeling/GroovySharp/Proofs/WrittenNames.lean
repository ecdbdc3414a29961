import GroovySharp.Proofs.ModelAtoms

/-!
# Names in the text of programs

The text of a model in pieces: the names of the program, each with its place, and the text between them.
-/

namespace GroovySharp.CSharp

open Unicode List

inductive NamePlace
  | value
  | member
  | variable
  | parameter
  | lambdaParameter
  | loopVariable
  | caught
  | method
  | argument
  deriving DecidableEq

inductive Piece
  | plain (text : Points)
  | name (place : NamePlace) (s : String)
  deriving DecidableEq

/-- A line of statements: one that returns a value, or another. -/
inductive Line
  | plain (pieces : List Piece)
  | returned (margin : Points) (value : List Piece)

def lit (s : String) : List Piece := [.plain (points s)]

def Line.pieces : Line → List Piece
  | plain pieces => pieces
  | returned margin value => .plain margin :: lit "return " ++ value ++ lit ";"

section

variable (spell : NamePlace → String → Points)

def Piece.text : Piece → Points
  | plain text => text
  | name place s => spell place s

def written (ps : List Piece) : Points := ps.flatMap (Piece.text spell)

end

def spelled (place : NamePlace) (s : String) : Points :=
  points (if place ≠ .member ∧ s ∈ keywords then "@" ++ s else s)

def Line.text (l : Line) : Points := written spelled l.pieces

/-! ### Pieces -/

def joinedPieces (separator : String) (pieces : List (List Piece)) : List Piece :=
  intercalate (lit separator) pieces

def parenthesizedPieces (b : Bool) (ps : List Piece) : List Piece :=
  if b then lit "(" ++ ps ++ lit ")" else ps

def wrappedPieces (e : Expr) (least : Nat) (ps : List Piece) : List Piece :=
  parenthesizedPieces (decide (e.precedence < least)) ps

def namePieces (place : NamePlace) (s : String) : List Piece := [.name place s]

def lambdaPieces : List String → List Piece
  | [p] => namePieces .lambdaParameter p
  | ps => lit "(" ++ joinedPieces ", " (ps.map (namePieces .lambdaParameter)) ++ lit ")"

section

variable (indent : Points)

def margin (level : Nat) : List Piece := [.plain (indentation indent level)]

def bracedLines (level : Nat) (lines : List Line) : List Line :=
  .plain (margin indent level ++ lit "\x7b") :: (lines ++ [.plain (margin indent level ++ lit "\x7d")])

mutual

def exprPieces (level : Nat) : Expr → List Piece
  | .identifier name => namePieces .value name
  | .literal value => [.plain value.text]
  | .interpolated contents => lit "$\"" ++ contentsPieces level contents ++ lit "\""
  | .binary op left right =>
    wrappedPieces left op.precedence (exprPieces level left) ++ lit " " ++ lit op.text ++ lit " " ++
      wrappedPieces right (if op.isAssociative && right.isBinary op then op.precedence else op.precedence + 1)
        (exprPieces level right)
  | .prefixed op operand =>
    lit op.text ++ parenthesizedPieces
      ((written spelled (wrappedPieces operand 12 (exprPieces level operand))).head? == (points op.text).head?)
      (wrappedPieces operand 12 (exprPieces level operand))
  | .postfixed op operand => wrappedPieces operand 13 (exprPieces level operand) ++ lit op.text
  | .assignment op target value =>
    wrappedPieces target 12 (exprPieces level target) ++ lit " " ++ lit op.text ++ lit " " ++
      exprPieces level value
  | .conditional condition whenTrue whenFalse =>
    wrappedPieces condition 3 (exprPieces level condition) ++ lit " ? " ++
      wrappedPieces whenTrue 2 (exprPieces level whenTrue) ++ lit " : " ++
      wrappedPieces whenFalse 2 (exprPieces level whenFalse)
  | .memberAccess target name nullable =>
    wrappedPieces target 13 (exprPieces level target) ++ lit (if nullable then "?." else ".") ++
      namePieces .member name
  | .invocation callee arguments =>
    wrappedPieces callee 13 (exprPieces level callee) ++ lit "(" ++
      joinedPieces ", " (argumentsPieces level arguments) ++ lit ")"
  | .elementAccess target index =>
    wrappedPieces target 13 (exprPieces level target) ++ lit "[" ++ exprPieces level index ++
      lit "]"
  | .objectCreation created arguments =>
    lit "new " ++ [.plain (createdText created)] ++ lit "(" ++
      joinedPieces ", " (argumentsPieces level arguments) ++ lit ")"
  | .arrayCreation elementType elements =>
    lit "new " ++ lit elementType ++ lit "[] \x7b " ++
      (if (exprsPieces level elements).isEmpty then []
        else joinedPieces ", " (exprsPieces level elements) ++ lit " ") ++ lit "\x7d"
  | .lambda parameters body => lambdaPieces parameters ++ lit " =>" ++ bodyPieces level body
  | .foreign _ => []

def exprsPieces (level : Nat) : List Expr → List (List Piece)
  | [] => []
  | e :: es => exprPieces level e :: exprsPieces level es

def contentsPieces (level : Nat) : List Content → List Piece
  | [] => []
  | c :: cs => contentPieces level c ++ contentsPieces level cs

def contentPieces (level : Nat) : Content → List Piece
  | .text value => [.plain (doubleBraces (escapeString value))]
  | .hole value =>
    lit "\x7b" ++ parenthesizedPieces (value.isFormatted ||
      (written spelled (exprPieces level value)).contains (.scalar ':'))
      (exprPieces level value) ++ lit "\x7d"

def argumentsPieces (level : Nat) : List Argument → List (List Piece)
  | [] => []
  | a :: rest => argumentPieces level a :: argumentsPieces level rest

def argumentPieces (level : Nat) : Argument → List Piece
  | .mk value name =>
    match given? name with
    | some n => namePieces .argument n ++ lit ": " ++ exprPieces level value
    | none => exprPieces level value

def bodyPieces (level : Nat) : LambdaBody → List Piece
  | .expression value => lit " " ++ exprPieces level value
  | .block statements =>
    lit "\n" ++ joinedPieces "\n"
      ((bracedLines indent level (stmtsPieces (level + 1) statements)).map Line.pieces)

def declarationPieces (level : Nat) : Declaration → List Piece
  | .mk typeName name none => lit typeName ++ lit " " ++ namePieces .variable name
  | .mk typeName name (some value) =>
    lit typeName ++ lit " " ++ namePieces .variable name ++ lit " = " ++ exprPieces level value

def optionPieces (level : Nat) : Option Expr → List Piece
  | none => []
  | some e => exprPieces level e

def declaredPieces (level : Nat) : Option Declaration → List Piece
  | none => []
  | some d => declarationPieces level d

def stmtPieces (level : Nat) : Stmt → List Line
  | .block statements => bracedLines indent level (stmtsPieces (level + 1) statements)
  | .declaration d => [.plain (margin indent level ++ declarationPieces level d ++ lit ";")]
  | .expression value => [.plain (margin indent level ++ exprPieces level value ++ lit ";")]
  | .ifElse condition consequence alternative =>
    .plain (margin indent level ++ lit "if (" ++ exprPieces level condition ++ lit ")") ::
      (stmtPieces (consequence.levelUnder level) consequence ++ elsePieces level alternative)
  | .whileLoop condition body =>
    .plain (margin indent level ++ lit "while (" ++ exprPieces level condition ++ lit ")") ::
      stmtPieces (body.levelUnder level) body
  | .forLoop declared initializers condition updates body =>
    .plain (margin indent level ++ lit "for (" ++ declaredPieces level declared ++
      joinedPieces ", " (if declared.isSome then [] else exprsPieces level initializers) ++
      lit "; " ++ optionPieces level condition ++ lit "; " ++
      joinedPieces ", " (exprsPieces level updates) ++ lit ")") ::
      stmtPieces (body.levelUnder level) body
  | .forEach typeName identifier source body =>
    .plain (margin indent level ++ lit "foreach (" ++ lit typeName ++ lit " " ++
      namePieces .loopVariable identifier ++ lit " in " ++ exprPieces level source ++ lit ")") ::
      stmtPieces (body.levelUnder level) body
  | .switch subject sections =>
    .plain (margin indent level ++ lit "switch (" ++ exprPieces level subject ++ lit ")") ::
      bracedLines indent level (sectionsPieces (level + 1) sections)
  | .tryCatch block catches finallyBlock =>
    .plain (margin indent level ++ lit "try") ::
      (bracedLines indent level (stmtsPieces (level + 1) block) ++
        catchesPieces level catches ++ finallyPieces level finallyBlock)
  | .returnValue none => [.plain (margin indent level ++ lit "return;")]
  | .returnValue (some value) => [.returned (indentation indent level) (exprPieces level value)]
  | .breakOut => [.plain (margin indent level ++ lit "break;")]
  | .continueOn => [.plain (margin indent level ++ lit "continue;")]
  | .throwValue value => [.plain (margin indent level ++ lit "throw " ++ exprPieces level value ++ lit ";")]
  | .foreign _ => []

def stmtsPieces (level : Nat) : List Stmt → List Line
  | [] => []
  | s :: rest => stmtPieces level s ++ stmtsPieces level rest

def elsePieces (level : Nat) : Option Stmt → List Line
  | none => []
  | some (.ifElse condition consequence alternative) =>
    .plain (margin indent level ++ lit "else if (" ++ exprPieces level condition ++ lit ")") ::
      (stmtPieces (consequence.levelUnder level) consequence ++ elsePieces level alternative)
  | some s => .plain (margin indent level ++ lit "else") :: stmtPieces (s.levelUnder level) s

def sectionsPieces (level : Nat) : List SwitchSection → List Line
  | [] => []
  | .mk labels statements :: rest =>
    labelsPieces level labels ++ stmtsPieces (level + 1) statements ++ sectionsPieces level rest

def labelsPieces (level : Nat) : List SwitchLabel → List Line
  | [] => []
  | .case value :: rest =>
    .plain (margin indent level ++ lit "case " ++ exprPieces level value ++ lit ":") ::
      labelsPieces level rest
  | .fallback :: rest => .plain (margin indent level ++ lit "default:") :: labelsPieces level rest

def catchesPieces (level : Nat) : List CatchClause → List Line
  | [] => []
  | .mk typeName identifier block :: rest =>
    .plain (margin indent level ++ lit "catch (" ++ (match given? identifier with
      | some name => lit typeName ++ lit " " ++ namePieces .caught name
      | none => lit typeName) ++ lit ")") ::
      (bracedLines indent level (stmtsPieces (level + 1) block) ++ catchesPieces level rest)

def finallyPieces (level : Nat) : Option (List Stmt) → List Line
  | none => []
  | some block =>
    .plain (margin indent level ++ lit "finally") ::
      bracedLines indent level (stmtsPieces (level + 1) block)

end

def Method.pieces (m : Method) : List Line :=
  .plain (joinedPieces " " (m.modifiers.map lit ++ [lit m.returnType, namePieces .method m.name]) ++
    lit "(" ++ joinedPieces ", " (m.parameters.map fun p =>
      lit p.typeName ++ lit " " ++ namePieces .parameter p.name) ++ lit ")") ::
    bracedLines indent 0 (stmtsPieces indent 1 m.body)

def Member.pieces : Member → List Line
  | method m => m.pieces indent
  | statement s => stmtPieces indent 0 s
  | foreign _ => []

def membersPieces (apart : Bool) (lines : List Line) : List Member → List Line
  | [] => lines
  | m :: rest =>
    membersPieces m.isMethod (lines ++ (if !lines.isEmpty && (apart || m.isMethod) then [.plain []]
      else []) ++ m.pieces indent) rest

def unitPieces (u : CompilationUnit) : List Piece :=
  let lines := membersPieces indent true (u.usings.map fun v => .plain [.plain v.text]) u.members
  if lines.isEmpty then [] else joinedPieces "\n" (lines.map Line.pieces) ++ lit "\n"

end

/-! ### Written pieces -/

section

variable (spell : NamePlace → String → Points)

@[simp] theorem written_nil : written spell [] = [] := rfl

@[simp] theorem written_append (a b : List Piece) : written spell (a ++ b) = written spell a ++ written spell b :=
  flatMap_append

@[simp] theorem written_plain (text : Points) (ps : List Piece) :
    written spell (.plain text :: ps) = text ++ written spell ps := flatMap_cons

@[simp] theorem written_lit (s : String) : written spell (lit s) = points s := append_nil _

@[simp] theorem written_parenthesized (b : Bool) (ps : List Piece) :
    written spell (parenthesizedPieces b ps) = parenthesized b (written spell ps) := by
  cases b <;> simp [parenthesizedPieces, parenthesized]

@[simp] theorem written_wrapped (e : Expr) (least : Nat) (ps : List Piece) :
    written spell (wrappedPieces e least ps) = wrapped e least (written spell ps) :=
  written_parenthesized ..

@[simp] theorem written_joinedPieces (separator : String) (pieces : List (List Piece)) :
    written spell (joinedPieces separator pieces) = joined separator (pieces.map (written spell)) := by
  unfold joinedPieces joined intercalate
  match pieces with
  | [] => rfl
  | [ps] => simp
  | ps :: qs :: rest =>
    have ih := written_joinedPieces separator (qs :: rest)
    unfold joinedPieces joined intercalate at ih
    simpa using ih

end

theorem written_name {place : NamePlace} (h : place ≠ .member) (s : String) :
    written spelled (namePieces place s) = identifierText s := by
  simp [namePieces, written, Piece.text, spelled, identifierText, escapeIdentifier, h]

theorem written_member (s : String) : written spelled (namePieces .member s) = points s := by
  simp [namePieces, written, Piece.text, spelled]

@[simp] theorem written_lambda (ps : List String) : written spelled (lambdaPieces ps) = lambdaParameters ps := by
  have hname : written spelled ∘ namePieces .lambdaParameter = identifierText :=
    funext (written_name (by decide))
  unfold lambdaPieces lambdaParameters
  split
  · exact written_name (by decide) _
  · simp [hname]

@[simp] theorem written_pieces (l : Line) : written spelled l.pieces = l.text := rfl

@[simp] theorem text_plain (ps : List Piece) : (Line.plain ps).text = written spelled ps := rfl

@[simp] theorem text_returned (lead : Points) (value : List Piece) :
    (Line.returned lead value).text = lead ++ points "return " ++ written spelled value ++ points ";" := by
  simp [Line.text, Line.pieces]

/-! ### Texts of models -/

/-- The step can only give the value, and it gives it if the condition holds. -/
inductive Writes {α : Type} (x : Except Misplaced α) (c : Prop) (a : α) : Prop
  | gives (h : x = .ok a)
  | fails {f : Misplaced} (hc : ¬ c) (h : x = .error f)

section

variable {α β : Type} {x : Except Misplaced α} {c c' d : Prop} {a : α} {f : α → Except Misplaced β} {b : β}

theorem writes_pure (h : a = a') : Writes (pure a) c a' := .gives (congrArg _ h)

theorem Writes.bind (hx : Writes x c a) (hf : Writes (f a) d b) : Writes (x >>= f) (c ∧ d) b := by
  rcases hx with rfl | ⟨hc, rfl⟩
  · rcases hf with h | ⟨hd, h⟩
    · exact .gives h
    · exact .fails (hd ·.2) h
  · exact .fails (hc ·.1) rfl

theorem Writes.map {g : α → β} (hx : Writes x c a) (hg : g a = b := by simp) :
    Writes (x >>= fun a => pure (g a)) c b := by
  rcases hx with rfl | ⟨hc, rfl⟩
  · exact .gives (congrArg _ hg)
  · exact .fails hc rfl

theorem Writes.mono (hx : Writes x c a) (hc : c' → c) : Writes x c' a := by
  rcases hx with h | ⟨hn, h⟩
  · exact .gives h
  · exact .fails (hn ∘ hc) h

end

section

variable (indent : Points)

@[simp] theorem text_margin (level : Nat) : written spelled (margin indent level) = indentation indent level :=
  append_nil _

@[simp] theorem map_text_braced (level : Nat) (lines : List Line) :
    (bracedLines indent level lines).map Line.text = braced indent level (lines.map Line.text) := by
  simp [bracedLines, braced]

mutual

theorem exprText_writes (level : Nat) :
    (e : Expr) → Writes (exprText indent level e) (Native e.atoms) (written spelled (exprPieces indent level e))
  | .identifier name => by
    rw [exprText, exprPieces]
    exact writes_pure (written_name (by decide) name).symm
  | .literal value => by
    rw [exprText, exprPieces]
    exact writes_pure (append_nil _).symm
  | .interpolated contents => by
    rw [exprText, exprPieces, Expr.atoms]
    exact (contentsText_writes level contents).map
  | .binary op left right => by
    rw [exprText, exprPieces, Expr.atoms, native_append]
    exact (exprText_writes level left).bind ((exprText_writes level right).map)
  | .prefixed op operand => by
    rw [exprText, exprPieces, Expr.atoms]
    exact (exprText_writes level operand).map
  | .postfixed op operand => by
    rw [exprText, exprPieces, Expr.atoms]
    exact (exprText_writes level operand).map
  | .assignment op target value => by
    rw [exprText, exprPieces, Expr.atoms, native_append]
    exact (exprText_writes level target).bind ((exprText_writes level value).map)
  | .conditional condition whenTrue whenFalse => by
    rw [exprText, exprPieces, Expr.atoms, native_append, native_append]
    exact (exprText_writes level condition).bind ((exprText_writes level whenTrue).bind
      ((exprText_writes level whenFalse).map))
  | .memberAccess target name nullable => by
    rw [exprText, exprPieces, Expr.atoms]
    exact (exprText_writes level target).map (by simp [written_member])
  | .invocation callee arguments => by
    rw [exprText, exprPieces, Expr.atoms, native_append]
    exact (exprText_writes level callee).bind ((argumentTexts_writes level arguments).map)
  | .elementAccess target index => by
    rw [exprText, exprPieces, Expr.atoms, native_append]
    exact (exprText_writes level target).bind ((exprText_writes level index).map)
  | .objectCreation created arguments => by
    rw [exprText, exprPieces, Expr.atoms, native_append]
    exact ((argumentTexts_writes level arguments).map).mono And.right
  | .arrayCreation elementType elements => by
    rw [exprText, exprPieces, Expr.atoms]
    refine (exprTexts_writes level elements).map ?_
    cases exprsPieces indent level elements <;> simp
  | .lambda parameters body => by
    rw [exprText, exprPieces, Expr.atoms]
    exact (lambdaText_writes level body).map
  | .foreign category => .fails (by rw [Expr.atoms]; exact not_native_foreign) rfl

theorem exprTexts_writes (level : Nat) : (es : List Expr) → Writes (exprTexts indent level es) (Native (exprsAtoms es))
      ((exprsPieces indent level es).map (written spelled))
  | [] => writes_pure rfl
  | e :: es => by
    rw [exprTexts, exprsPieces, exprsAtoms, native_append]
    exact (exprText_writes level e).bind ((exprTexts_writes level es).map rfl)

theorem contentsText_writes (level : Nat) :
    (cs : List Content) → Writes (contentsText indent level cs) (Native (contentsAtoms cs))
      (written spelled (contentsPieces indent level cs))
  | [] => writes_pure rfl
  | c :: cs => by
    rw [contentsText, contentsPieces, contentsAtoms, native_append]
    exact (contentText_writes level c).bind ((contentsText_writes level cs).map)

theorem contentText_writes (level : Nat) : (c : Content) → Writes (contentText indent level c) (Native c.atoms)
      (written spelled (contentPieces indent level c))
  | .text value => by
    rw [contentText, contentPieces]
    exact writes_pure (append_nil _).symm
  | .hole value => by
    rw [contentText, contentPieces, Content.atoms]
    exact (exprText_writes level value).map

theorem argumentTexts_writes (level : Nat) :
    (xs : List Argument) → Writes (argumentTexts indent level xs) (Native (argumentsAtoms xs))
      ((argumentsPieces indent level xs).map (written spelled))
  | [] => writes_pure rfl
  | a :: rest => by
    rw [argumentTexts, argumentsPieces, argumentsAtoms, native_append]
    exact (argumentText_writes level a).bind ((argumentTexts_writes level rest).map rfl)

theorem argumentText_writes (level : Nat) : (a : Argument) → Writes (argumentText indent level a) (Native a.atoms)
      (written spelled (argumentPieces indent level a))
  | .mk value name => by
    rw [argumentText, argumentPieces, Argument.atoms]
    refine (exprText_writes level value).map ?_
    cases given? name <;> simp [written_name]

theorem lambdaText_writes (level : Nat) :
    (body : LambdaBody) → Writes (lambdaText indent level body) (Native body.atoms)
      (written spelled (bodyPieces indent level body))
  | .expression value => by
    rw [lambdaText, bodyPieces, LambdaBody.atoms]
    exact (exprText_writes level value).map
  | .block statements => by
    rw [lambdaText, bodyPieces, LambdaBody.atoms]
    refine (stmtsLines_writes (level + 1) statements).map ?_
    simp [← map_text_braced, Function.comp_def]

theorem declarationText_writes (level : Nat) :
    (d : Declaration) → Writes (declarationText indent level d) (Native d.atoms)
      (written spelled (declarationPieces indent level d))
  | .mk typeName name none => by
    rw [declarationText, declarationPieces]
    exact writes_pure (by simp [written_name])
  | .mk typeName name (some value) => by
    rw [declarationText, declarationPieces, Declaration.atoms, optionAtoms]
    exact (exprText_writes level value).map (by simp [written_name])

theorem optionText_writes (level : Nat) :
    (value : Option Expr) → Writes (optionText indent level value) (Native (optionAtoms value))
      (written spelled (optionPieces indent level value))
  | none => writes_pure rfl
  | some e => by
    rw [optionText, optionPieces, optionAtoms]
    exact exprText_writes level e

theorem declaredText_writes (level : Nat) :
    (d : Option Declaration) → Writes (declaredText indent level d) (Native (declaredAtoms d))
      (written spelled (declaredPieces indent level d))
  | none => writes_pure rfl
  | some d => by
    rw [declaredText, declaredPieces, declaredAtoms]
    exact declarationText_writes level d

theorem stmtLines_writes (level : Nat) :
    (s : Stmt) → Writes (stmtLines indent level s) (Native s.atoms) ((stmtPieces indent level s).map Line.text)
  | .block statements => by
    rw [stmtLines, stmtPieces, Stmt.atoms]
    exact (stmtsLines_writes (level + 1) statements).map
  | .declaration d => by
    rw [stmtLines, stmtPieces, Stmt.atoms]
    exact (declarationText_writes level d).map
  | .expression value => by
    rw [stmtLines, stmtPieces, Stmt.atoms]
    exact (exprText_writes level value).map
  | .ifElse condition consequence alternative => by
    rw [stmtLines, stmtPieces, Stmt.atoms, native_append, native_append]
    exact (exprText_writes level condition).bind ((stmtLines_writes _ consequence).bind
      ((elseLines_writes level alternative).map))
  | .whileLoop condition body => by
    rw [stmtLines, stmtPieces, Stmt.atoms, native_append]
    exact (exprText_writes level condition).bind ((stmtLines_writes _ body).map)
  | .forLoop declared initializers condition updates body => by
    rw [stmtLines, stmtPieces, Stmt.atoms]
    simp only [native_append]
    refine (declaredText_writes level declared).bind ?_
    cases declared with
    | none =>
      exact (exprTexts_writes level initializers).bind ((optionText_writes level condition).bind
        ((exprTexts_writes level updates).bind ((stmtLines_writes _ body).map)))
    | some d =>
      simp only [Option.isSome_some, if_true, pure_bind]
      exact ((optionText_writes level condition).bind ((exprTexts_writes level updates).bind
        ((stmtLines_writes _ body).map))).mono And.right
  | .forEach typeName identifier source body => by
    rw [stmtLines, stmtPieces, Stmt.atoms, native_append]
    exact (exprText_writes level source).bind ((stmtLines_writes _ body).map (by simp [written_name]))
  | .switch subject sections => by
    rw [stmtLines, stmtPieces, Stmt.atoms, native_append]
    exact (exprText_writes level subject).bind ((sectionsLines_writes (level + 1) sections).map)
  | .tryCatch block catches finallyBlock => by
    rw [stmtLines, stmtPieces, Stmt.atoms, native_append, native_append]
    exact (stmtsLines_writes (level + 1) block).bind ((catchesLines_writes level catches).bind
      ((finallyLines_writes level finallyBlock).map))
  | .returnValue none => by
    rw [stmtLines, stmtPieces]
    exact writes_pure (by simp)
  | .returnValue (some value) => by
    rw [stmtLines, stmtPieces, Stmt.atoms, optionAtoms]
    exact (exprText_writes level value).map
  | .breakOut => by
    rw [stmtLines, stmtPieces]
    exact writes_pure (by simp)
  | .continueOn => by
    rw [stmtLines, stmtPieces]
    exact writes_pure (by simp)
  | .throwValue value => by
    rw [stmtLines, stmtPieces, Stmt.atoms]
    exact (exprText_writes level value).map
  | .foreign category => .fails (by rw [Stmt.atoms]; exact not_native_foreign) rfl

theorem stmtsLines_writes (level : Nat) :
    (ss : List Stmt) → Writes (stmtsLines indent level ss) (Native (stmtsAtoms ss))
      ((stmtsPieces indent level ss).map Line.text)
  | [] => writes_pure rfl
  | s :: rest => by
    rw [stmtsLines, stmtsPieces, stmtsAtoms, native_append]
    exact (stmtLines_writes level s).bind ((stmtsLines_writes level rest).map)

theorem elseLines_writes (level : Nat) :
    (s : Option Stmt) → Writes (elseLines indent level s) (Native (alternativeAtoms s))
      ((elsePieces indent level s).map Line.text)
  | none => writes_pure rfl
  | some s => by
    have hs := stmtLines_writes (s.levelUnder level) s
    rw [alternativeAtoms]
    cases s with
    | ifElse condition consequence alternative =>
      rw [elseLines, elsePieces, Stmt.atoms, native_append, native_append]
      exact (exprText_writes level condition).bind ((stmtLines_writes _ consequence).bind
        ((elseLines_writes level alternative).map))
    | _ => exact hs.map (by simp [elsePieces])

theorem sectionsLines_writes (level : Nat) :
    (ss : List SwitchSection) → Writes (sectionsLines indent level ss) (Native (sectionsAtoms ss))
      ((sectionsPieces indent level ss).map Line.text)
  | [] => writes_pure rfl
  | .mk labels statements :: rest => by
    rw [sectionsLines, sectionsPieces, sectionsAtoms, SwitchSection.atoms, native_append, native_append, and_assoc]
    exact (labelsLines_writes level labels).bind ((stmtsLines_writes (level + 1) statements).bind
      ((sectionsLines_writes level rest).map))

theorem labelsLines_writes (level : Nat) :
    (ls : List SwitchLabel) → Writes (labelsLines indent level ls) (Native (labelsAtoms ls))
      ((labelsPieces indent level ls).map Line.text)
  | [] => writes_pure rfl
  | .case value :: rest => by
    rw [labelsLines, labelsPieces, labelsAtoms, SwitchLabel.atoms, native_append]
    exact (exprText_writes level value).bind ((labelsLines_writes level rest).map)
  | .fallback :: rest => by
    rw [labelsLines, labelsPieces, labelsAtoms, SwitchLabel.atoms, nil_append]
    exact (labelsLines_writes level rest).map

theorem catchesLines_writes (level : Nat) :
    (cs : List CatchClause) → Writes (catchesLines indent level cs) (Native (catchesAtoms cs))
      ((catchesPieces indent level cs).map Line.text)
  | [] => writes_pure rfl
  | .mk typeName identifier block :: rest => by
    rw [catchesLines, catchesPieces, catchesAtoms, CatchClause.atoms, native_append]
    refine (stmtsLines_writes (level + 1) block).bind ((catchesLines_writes level rest).map ?_)
    cases given? identifier <;> simp [written_name]

theorem finallyLines_writes (level : Nat) :
    (block : Option (List Stmt)) → Writes (finallyLines indent level block) (Native (finallyAtoms block))
      ((finallyPieces indent level block).map Line.text)
  | none => writes_pure rfl
  | some block => by
    rw [finallyLines, finallyPieces, finallyAtoms]
    exact (stmtsLines_writes (level + 1) block).map

end

theorem Member.lines_writes (m : Member) :
    Writes (m.lines indent) (Native m.atoms) ((m.pieces indent).map Line.text) := by
  cases m with
  | method m =>
    refine (stmtsLines_writes indent 1 m.body).map ?_
    simp [Member.pieces, Method.pieces, written_name, Function.comp_def]
  | statement s => exact stmtLines_writes indent 0 s
  | foreign category => exact .fails not_native_foreign rfl

theorem membersLines_writes (ms : List Member) (apart : Bool) (lines : List Line) :
    Writes (membersLines indent apart (lines.map Line.text) ms) (Native (ms.flatMap Member.atoms))
      ((membersPieces indent apart lines ms).map Line.text) := by
  induction ms generalizing apart lines with
  | nil => exact writes_pure rfl
  | cons m ms ih =>
    rw [membersLines, membersPieces, flatMap_cons, native_append]
    refine (m.lines_writes indent).bind ?_
    have hlines (blank : Bool) : lines.map Line.text ++ (if blank then [[]] else []) ++
        (m.pieces indent).map Line.text =
          (lines ++ (if blank then [Line.plain []] else []) ++ m.pieces indent).map Line.text := by
      cases blank <;> simp
    rw [isEmpty_map, hlines]
    exact ih _ _

theorem render_writes (u : CompilationUnit) :
    Writes (render indent u) (Native u.atoms) (written spelled (unitPieces indent u)) := by
  have husings : u.usings.map Using.text = (u.usings.map fun v => Line.plain [.plain v.text]).map Line.text := by simp
  rw [render, husings]
  refine (membersLines_writes indent u.members true _).map ?_
  unfold unitPieces
  cases membersPieces indent true (u.usings.map fun v => Line.plain [.plain v.text]) u.members <;>
    simp [Function.comp_def]

theorem exists_render {u : CompilationUnit} (h : Native u.atoms) : ∃ text, render indent u = .ok text := by
  rcases render_writes indent u with htext | ⟨hn, -⟩
  · exact ⟨_, htext⟩
  · exact absurd h hn

/-- Where a model has a text, it is that of its pieces: the names of the program are written as they
are, except that a keyword gets an `@` where it is not the name of a member. -/
theorem names_of_render {u : CompilationUnit} {text : Points} (h : render indent u = .ok text) :
    text = written (fun place s => points (if place ≠ .member ∧ s ∈ keywords then "@" ++ s else s))
      (unitPieces indent u) := by
  rcases render_writes indent u with htext | ⟨-, hfails⟩
  · exact Except.ok.inj (h.symm.trans htext)
  · cases h.symm.trans hfails

end

/-- A call with a keyword as target, as member, as name of an argument and as argument. -/
def keywordCall : CompilationUnit where
  members := [.statement (.expression (.invocation (.memberAccess (.identifier "lock") "out" false)
    [.mk (.identifier "ref") (some "params")]))]

theorem names_of_render_keywords :
    render fourSpaces keywordCall = .ok (points "@lock.out(@params: @ref);\n") ∧
      points "@lock.out(@params: @ref);\n" = written
        (fun place s => points (if place ≠ .member ∧ s ∈ keywords then "@" ++ s else s))
        (unitPieces fourSpaces keywordCall) := by
  have h : render fourSpaces keywordCall = .ok (points "@lock.out(@params: @ref);\n") := by rfl
  exact ⟨h, names_of_render fourSpaces h⟩

/-- With an `@` before every keyword, the call would have another text. -/
theorem member_keyword_unescaped :
    "out" ∈ keywords ∧ .name .member "out" ∈ unitPieces fourSpaces keywordCall ∧
      render fourSpaces keywordCall = .ok (points "@lock.out(@params: @ref);\n") ∧
      written (fun _ s => identifierText s) (unitPieces fourSpaces keywordCall) =
        points "@lock.@out(@params: @ref);\n" := by
  refine ⟨by decide, by decide, rfl, by decide⟩

end GroovySharp.CSharp
