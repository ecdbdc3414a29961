import GroovySharp.Proofs.WrittenNames

/-!
# Which `if` an `else` goes to

The text of statements is read again by the rule that an `else` goes to the nearest `if` before it in the
same block that has none yet. Each goes to the `if` it comes from exactly where no branch before an
`else` leaves an `if` open, in the statements and in the blocks of the lambdas that stand in them.
-/

namespace GroovySharp.CSharp

open Unicode List

/-! ### Reading text -/

/-- What a line of a text tells about blocks and branches. -/
inductive Cue
  | opens
  | closes
  | branch
  | otherwise
  deriving DecidableEq

def isMargin (p : CodePoint) : Bool := p == .scalar ' ' || p == .scalar '\t'

/-- The cues of the line that a text begins with. -/
def lineCues (text : Points) : List Cue :=
  let line := text.dropWhile isMargin
  if (points "\x7b").isPrefixOf line then [.opens]
  else if (points "\x7d").isPrefixOf line then [.closes]
  else if (points "if (").isPrefixOf line then [.branch]
  else if (points "else if (").isPrefixOf line then [.otherwise, .branch]
  else if (points "else\n").isPrefixOf line then [.otherwise]
  else []

def newline : CodePoint := .scalar '\n'

/-- The cues of the lines behind the one that a text begins with. -/
def laterCues : Points → List Cue
  | [] => []
  | p :: text => if p = newline then lineCues text ++ laterCues text else laterCues text

def textCues (text : Points) : List Cue := lineCues text ++ laterCues text

/-- For each `else`, the number of the `if` that it goes to. The next `if` is number `n`; the lists hold
those that have no `else` yet, first of the innermost block and then of the blocks around it. -/
def attach (n : Nat) (opened : List Nat) (outer : List (List Nat)) : List Cue → List (Option Nat)
  | [] => []
  | .opens :: cs => attach n [] (opened :: outer) cs
  | .closes :: cs => attach n (outer.headD []) outer.tail cs
  | .branch :: cs => attach (n + 1) (n :: opened) outer cs
  | .otherwise :: cs => opened.head? :: attach n opened.tail outer cs

def readElses (text : Points) : List (Option Nat) := attach 0 [] [] (textCues text)

/-! ### Branches of statements -/

/-- What a part of a model has of blocks and branches, with the words between them and the lines that
expressions and declarations stand on. -/
inductive Sketch
  | nothing
  | word (text : Points)
  | line (text : Points → Nat → Points)
  | both (first second : Sketch)
  | enclosed (body : Sketch)
  | branch (body : Sketch)
  | choice (body alternative : Sketch)

namespace Sketch

def cues : Sketch → List Cue
  | nothing | word _ | line _ => []
  | both a b => a.cues ++ b.cues
  | enclosed a => .opens :: (a.cues ++ [.closes])
  | branch a => .branch :: a.cues
  | choice a b => .branch :: (a.cues ++ .otherwise :: b.cues)

def count : Sketch → Nat
  | nothing | word _ | line _ => 0
  | both a b => a.count + b.count
  | enclosed a => a.count
  | branch a => 1 + a.count
  | choice a b => 1 + a.count + b.count

/-- For each `else`, the number of the `if` that it belongs to; the first `if` is number `n`. -/
def owners (n : Nat) : Sketch → List (Option Nat)
  | nothing | word _ | line _ => []
  | both a b => a.owners n ++ b.owners (n + a.count)
  | enclosed a => a.owners n
  | branch a => a.owners (n + 1)
  | choice a b => a.owners (n + 1) ++ some n :: b.owners (n + 1 + a.count)

/-- The numbers of the `if`s that an `else` behind could go to, the nearest first. -/
def opened (n : Nat) : Sketch → List Nat
  | nothing | word _ | line _ | enclosed _ => []
  | both a b => b.opened (n + a.count) ++ a.opened n
  | branch a => a.opened (n + 1) ++ [n]
  | choice a b => b.opened (n + 1 + a.count)

def isClosed : Sketch → Bool
  | nothing | word _ | line _ | enclosed _ => true
  | both a b => a.isClosed && b.isClosed
  | branch _ => false
  | choice _ b => b.isClosed

/-- No branch before an `else` leaves an `if` open. -/
def isAttached : Sketch → Bool
  | nothing | word _ | line _ => true
  | both a b => a.isAttached && b.isAttached
  | enclosed a | branch a => a.isAttached
  | choice a b => a.isAttached && a.isClosed && b.isAttached

theorem isClosed_iff (s : Sketch) (n : Nat) : s.isClosed = true ↔ s.opened n = [] := by
  induction s generalizing n with
  | nothing | word | line | enclosed | branch => simp [isClosed, opened]
  | both a b iha ihb => simp [isClosed, opened, iha n, ihb (n + a.count), and_comm]
  | choice a b _ ihb => exact ihb _

theorem le_of_mem_opened {s : Sketch} {n m : Nat} (h : m ∈ s.opened n) : n ≤ m := by
  induction s generalizing n with
  | nothing | word | line | enclosed => cases h
  | both a b iha ihb =>
    rcases mem_append.mp h with h | h
    · exact Nat.le_trans (Nat.le_add_right ..) (ihb h)
    · exact iha h
  | branch a ih =>
    rcases mem_append.mp h with h | h
    · exact Nat.le_of_succ_le (ih h)
    · exact Nat.le_of_eq (mem_singleton.mp h).symm
  | choice a b _ ihb =>
    have := ihb h
    omega

theorem attach_cues {s : Sketch} (h : s.isAttached = true) (n : Nat) (top : List Nat)
    (outer : List (List Nat)) (cs : List Cue) : attach n top outer (s.cues ++ cs) =
      s.owners n ++ attach (n + s.count) (s.opened n ++ top) outer cs := by
  induction s generalizing n top outer cs with
  | nothing | word | line => rfl
  | both a b iha ihb =>
    obtain ⟨ha, hb⟩ := Bool.and_eq_true_iff.mp h
    simp [cues, owners, opened, count, iha ha, ihb hb, Nat.add_assoc]
  | enclosed a ih => simp [cues, owners, opened, count, attach, ih h]
  | branch a ih => simp [cues, owners, opened, count, attach, ih h, Nat.add_assoc]
  | choice a b iha ihb =>
    simp only [isAttached, Bool.and_eq_true] at h
    have hnone := (a.isClosed_iff (n + 1)).mp h.1.2
    simp [cues, owners, opened, count, attach, iha h.1.1, ihb h.2, hnone, Nat.add_assoc]

/-- Where the reading begins as the model has it, no `if` has been left open before an `else`. -/
theorem isAttached_of_owners {s : Sketch} {n : Nat} {top : List Nat} {outer : List (List Nat)}
    {cs : List Cue} (h : s.owners n <+: attach n top outer (s.cues ++ cs)) : s.isAttached = true := by
  induction s generalizing n top outer cs with
  | nothing | word | line => rfl
  | both a b iha ihb =>
    rw [cues, append_assoc] at h
    have ha := iha ((prefix_append _ _).trans h)
    rw [attach_cues ha, owners, prefix_append_right_inj] at h
    exact Bool.and_eq_true_iff.mpr ⟨ha, ihb h⟩
  | enclosed a ih =>
    rw [cues, cons_append, attach, append_assoc] at h
    exact ih h
  | branch a ih => exact ih h
  | choice a b iha ihb =>
    rw [cues, cons_append, attach, append_assoc] at h
    have ha := iha ((prefix_append _ _).trans h)
    rw [attach_cues ha, owners, prefix_append_right_inj, cons_append, attach, cons_prefix_cons] at h
    have hnone : a.opened (n + 1) = [] := by
      cases hopened : a.opened (n + 1) with
      | nil => rfl
      | cons m rest =>
        have hm := le_of_mem_opened (hopened ▸ mem_cons_self : m ∈ a.opened (n + 1))
        simp only [hopened, cons_append, head?_cons, Option.some.injEq] at h
        omega
    rw [hnone] at h
    simp only [isAttached, Bool.and_eq_true]
    exact ⟨⟨ha, (a.isClosed_iff (n + 1)).mpr hnone⟩, ihb h.2⟩

theorem attach_cues_iff (s : Sketch) : attach 0 [] [] s.cues = s.owners 0 ↔ s.isAttached = true := by
  constructor
  · intro h
    have hreads : s.owners 0 <+: attach 0 [] [] (s.cues ++ []) := by simp [h]
    exact isAttached_of_owners hreads
  · intro h
    have hall := attach_cues h 0 [] [] []
    rwa [append_nil, attach, append_nil] at hall

/-- No word has a line end, and no line begins like the head of a branch or a brace. -/
def IsLegible : Sketch → Prop
  | nothing => True
  | word text => newline ∉ text
  | line text => ∀ indent level, lineCues (text indent level) = []
  | both a b | choice a b => a.IsLegible ∧ b.IsLegible
  | enclosed a | branch a => a.IsLegible

end Sketch

/-! ### Branches of models -/

mutual

def Expr.sketch : Expr → Sketch
  | .identifier name => .word (identifierText name)
  | .literal value => .word value.text
  | .interpolated contents => contentsSketch contents
  | .binary _ left right => .both left.sketch right.sketch
  | .prefixed _ operand | .postfixed _ operand => operand.sketch
  | .assignment _ target value => .both target.sketch value.sketch
  | .conditional condition whenTrue whenFalse =>
    .both condition.sketch (.both whenTrue.sketch whenFalse.sketch)
  | .memberAccess target name _ => .both target.sketch (.word (points name))
  | .invocation callee arguments => .both callee.sketch (argumentsSketch arguments)
  | .elementAccess target index => .both target.sketch index.sketch
  | .objectCreation created arguments => .both (.word (createdText created)) (argumentsSketch arguments)
  | .arrayCreation elementType elements => .both (.word (points elementType)) (exprsSketch elements)
  | .lambda parameters body => .both (.word (lambdaParameters parameters)) body.sketch
  | .foreign _ => .nothing

def exprsSketch : List Expr → Sketch
  | [] => .nothing
  | e :: es => .both e.sketch (exprsSketch es)

def contentsSketch : List Content → Sketch
  | [] => .nothing
  | .text value :: cs => .both (.word (doubleBraces (escapeString value))) (contentsSketch cs)
  | .hole value :: cs => .both value.sketch (contentsSketch cs)

def argumentsSketch : List Argument → Sketch
  | [] => .nothing
  | .mk value name :: rest =>
    .both (.both (.word (identifierText (name.getD ""))) value.sketch) (argumentsSketch rest)

def LambdaBody.sketch : LambdaBody → Sketch
  | .expression value => value.sketch
  | .block statements => .enclosed (stmtsSketch statements)

def optionSketch : Option Expr → Sketch
  | none => .nothing
  | some e => e.sketch

def Declaration.sketch : Declaration → Sketch
  | .mk typeName name initializer =>
    .both (.word (points typeName)) (.both (.word (identifierText name)) (optionSketch initializer))

def declaredSketch : Option Declaration → Sketch
  | none => .nothing
  | some d => d.sketch

def Stmt.sketch : Stmt → Sketch
  | .block statements => .enclosed (stmtsSketch statements)
  | .declaration d =>
    .both (.line fun indent level => written spelled (declarationPieces indent level d) ++ points ";\n") d.sketch
  | .expression value =>
    .both (.line fun indent level => written spelled (exprPieces indent level value) ++ points ";\n") value.sketch
  | .throwValue value => value.sketch
  | .ifElse condition consequence none => .branch (.both condition.sketch consequence.sketch)
  | .ifElse condition consequence (some alternative) =>
    .choice (.both condition.sketch consequence.sketch) alternative.sketch
  | .whileLoop condition body => .both condition.sketch body.sketch
  | .forLoop declared initializers condition updates body =>
    .both (.both (.both (declaredSketch declared)
      (if declared.isSome then .nothing else exprsSketch initializers))
      (.both (optionSketch condition) (exprsSketch updates))) body.sketch
  | .forEach typeName identifier source body =>
    .both (.both (.word (points typeName)) (.both (.word (identifierText identifier)) source.sketch)) body.sketch
  | .switch subject sections => .both subject.sketch (.enclosed (sectionsSketch sections))
  | .tryCatch block catches finallyBlock =>
    .both (.enclosed (stmtsSketch block)) (.both (catchesSketch catches) (finallySketch finallyBlock))
  | .returnValue value => optionSketch value
  | .breakOut | .continueOn | .foreign _ => .nothing

def stmtsSketch : List Stmt → Sketch
  | [] => .nothing
  | s :: rest => .both s.sketch (stmtsSketch rest)

def labelsSketch : List SwitchLabel → Sketch
  | [] => .nothing
  | .case value :: rest => .both value.sketch (labelsSketch rest)
  | .fallback :: rest => labelsSketch rest

def sectionsSketch : List SwitchSection → Sketch
  | [] => .nothing
  | .mk labels statements :: rest =>
    .both (.both (labelsSketch labels) (stmtsSketch statements)) (sectionsSketch rest)

def catchesSketch : List CatchClause → Sketch
  | [] => .nothing
  | .mk typeName identifier block :: rest =>
    .both (.both (.both (.word (points typeName)) (.word (identifierText (identifier.getD ""))))
      (.enclosed (stmtsSketch block))) (catchesSketch rest)

def finallySketch : Option (List Stmt) → Sketch
  | none => .nothing
  | some block => .enclosed (stmtsSketch block)

end

/-! ### Lines of texts -/

theorem isPrefixOf_newline {p : Points} (hp : newline ∉ p.dropLast) (t x : Points) :
    p.isPrefixOf (t ++ newline :: x) = p.isPrefixOf (t ++ [newline]) := by
  induction t generalizing p with
  | nil =>
    rcases p with _ | ⟨a, _ | ⟨b, p⟩⟩
    · rfl
    · rfl
    · have ha : a ≠ newline := fun ha => hp (by simp [ha])
      simp [isPrefixOf, ha]
  | cons c t ih =>
    rcases p with _ | ⟨a, _ | ⟨b, p⟩⟩
    · rfl
    · rfl
    · have hrest : newline ∉ (b :: p).dropLast := fun h => hp (mem_cons_of_mem a h)
      rw [cons_append, cons_append, isPrefixOf, isPrefixOf, ih hrest]

/-- A line ends at its line end. -/
theorem lineCues_newline (t x : Points) : lineCues (t ++ newline :: x) = lineCues (t ++ [newline]) := by
  have hdrop (x : Points) : (t ++ newline :: x).dropWhile isMargin = t.dropWhile isMargin ++ newline :: x := by
    rw [dropWhile_append]
    split
    · next h => rw [isEmpty_iff.mp h]; rfl
    · rfl
  simp (disch := decide) only [lineCues, hdrop, isPrefixOf_newline _ _ x]

theorem laterCues_newline (t x : Points) :
    laterCues (t ++ newline :: x) = laterCues (t ++ [newline]) ++ textCues x := by
  induction t with
  | nil => rfl
  | cons p t ih =>
    rw [cons_append, cons_append, laterCues, laterCues, ih, lineCues_newline]
    split
    · exact (append_assoc ..).symm
    · rfl

theorem textCues_lines (ts : List Points) (x : Points) : textCues (ts.flatMap (· ++ points "\n") ++ x) =
    ts.flatMap (fun t => textCues (t ++ points "\n")) ++ textCues x := by
  induction ts with
  | nil => rfl
  | cons t ts ih =>
    rw [flatMap_cons, flatMap_cons, append_assoc, append_assoc, append_assoc, ← ih, textCues]
    exact (congr (congrArg _ (lineCues_newline ..)) (laterCues_newline ..)).trans (append_assoc ..).symm

theorem laterCues_skip {t : Points} (h : newline ∉ t) (x : Points) : laterCues (t ++ x) = laterCues x := by
  induction t with
  | nil => rfl
  | cons p t ih =>
    rw [cons_append, laterCues, if_neg (ne_of_not_mem_cons h).symm, ih (not_mem_of_not_mem_cons h)]

theorem laterCues_lit {s : String} (h : newline ∉ points s) (x : Points) : laterCues (points s ++ x) = laterCues x :=
  laterCues_skip h x

theorem textCues_heads (x : Points) : textCues (points "if (" ++ x) = .branch :: laterCues x ∧
    textCues (points "else if (" ++ x) = .otherwise :: .branch :: laterCues x ∧
    textCues (points "while (" ++ x) = laterCues x ∧
    textCues (points "for (" ++ x) = laterCues x ∧ textCues (points "foreach (" ++ x) = laterCues x ∧
    textCues (points "switch (" ++ x) = laterCues x ∧ textCues (points "case " ++ x) = laterCues x ∧
    textCues (points "default:" ++ x) = laterCues x ∧ textCues (points "try" ++ x) = laterCues x ∧
    textCues (points "catch (" ++ x) = laterCues x ∧ textCues (points "finally" ++ x) = laterCues x ∧
    textCues (points "return " ++ x) = laterCues x ∧ textCues (points "return;" ++ x) = laterCues x ∧
    textCues (points "throw " ++ x) = laterCues x ∧ textCues (points "break;" ++ x) = laterCues x ∧
    textCues (points "continue;" ++ x) = laterCues x ∧ textCues (points "\x7b" ++ x) = .opens :: laterCues x ∧
    textCues (points "\x7d" ++ x) = .closes :: laterCues x := by
  refine ⟨?_, ?_, ?_, ?_, ?_, ?_, ?_, ?_, ?_, ?_, ?_, ?_, ?_, ?_, ?_, ?_, ?_, ?_⟩ <;> rfl

theorem laterCues_end : laterCues (points "\n") = [] := rfl

/-! ### Lines of expressions -/

/-- The lines behind the first line of a text have the cues, whatever stands behind it. -/
abbrev Bears (t : Points) (cs : List Cue) : Prop := ∀ x, laterCues (t ++ x) = cs ++ laterCues x

namespace Bears

variable {t : Points} {cs : List Cue}

theorem parenthesized (h : Bears t cs) (b : Bool) : Bears (parenthesized b t) cs := by
  intro x
  cases b with
  | false => exact h x
  | true => simp +decide [CSharp.parenthesized, laterCues_lit, h _]

theorem wrapped (h : Bears t cs) (e : Expr) (least : Nat) : Bears (wrapped e least t) cs :=
  h.parenthesized _

theorem joined_cons (h : Bears t cs) {ts : List Points} {ds : List Cue} (hts : Bears (joined ", " ts) ds) :
    Bears (joined ", " (t :: ts)) (cs ++ ds) := by
  intro x
  cases ts with
  | nil =>
    have hds : laterCues x = ds ++ laterCues x := hts x
    rw [joined, intercalate_singleton, h, append_assoc, ← hds]
  | cons u ts =>
    rw [joined, intercalate_cons_cons, ← joined]
    simp +decide [laterCues_lit, h _, hts _]

end Bears

theorem BinaryOp.newline_notMem (op : BinaryOp) : newline ∉ points op.text := by cases op <;> decide

theorem AssignOp.newline_notMem (op : AssignOp) : newline ∉ points op.text := by cases op <;> decide

theorem UnaryOp.newline_notMem (op : UnaryOp) : newline ∉ points op.text := by cases op <;> decide

/-- A name that is given is the one of its text. -/
theorem newline_notMem_given {name : Option String} (h : newline ∉ identifierText (name.getD "")) {n : String}
    (hn : given? name = some n) : newline ∉ identifierText n := by
  obtain ⟨rfl, -⟩ := Option.filter_eq_some_iff.mp hn
  exact h

/-! ### Lines of statements -/

def cuesOf (lines : List Line) : List Cue := lines.flatMap fun l => textCues (l.text ++ points "\n")

theorem cuesOf_nil : cuesOf [] = [] := rfl

theorem cuesOf_append (a b : List Line) : cuesOf (a ++ b) = cuesOf a ++ cuesOf b :=
  flatMap_append

theorem joined_nil (separator : String) : joined separator [] = [] := rfl

theorem joined_append_singleton (ts : List Points) (t : Points) :
    joined "\n" (ts ++ [t]) = ts.flatMap (· ++ points "\n") ++ t := by
  induction ts with
  | nil => exact intercalate_singleton
  | cons a ts ih =>
    have hne : ts ++ [t] ≠ [] := by simp
    rw [joined] at ih
    rw [joined, cons_append, intercalate_cons_of_ne_nil hne, ih, flatMap_cons, ← append_assoc]

/-- A text that lines are indented by. -/
structure Indent where
  text : Points
  isMargin_of_mem : ∀ p ∈ text, isMargin p = true

section

variable {indent : Indent}

theorem textCues_margin (level : Nat) (t : Points) : textCues (indentation indent.text level ++ t) = textCues t := by
  have hmargin {p : CodePoint} (hp : p ∈ indentation indent.text level) : isMargin p = true := by
    obtain ⟨l, hl, hp⟩ := mem_flatten.mp hp
    exact indent.isMargin_of_mem p (eq_of_mem_replicate hl ▸ hp)
  have hline : lineCues (indentation indent.text level ++ t) = lineCues t := by
    rw [lineCues, dropWhile_append_of_pos fun _ => hmargin, lineCues]
  have hnewline : newline ∉ indentation indent.text level := fun hp => by cases hmargin hp
  rw [textCues, hline, laterCues_skip hnewline, textCues]

theorem cuesOf_cons (level : Nat) (ps : List Piece) (lines : List Line) :
    cuesOf (.plain (margin indent.text level ++ ps) :: lines) =
      textCues (written spelled ps ++ points "\n") ++ cuesOf lines := by
  rw [cuesOf, flatMap_cons, text_plain, written_append, text_margin, append_assoc, textCues_margin]
  rfl

theorem cuesOf_returned (level : Nat) (value : List Piece) :
    cuesOf [.returned (indentation indent.text level) value] =
      textCues (points "return " ++ (written spelled value ++ (points ";" ++ points "\n"))) := by
  simp [cuesOf, textCues_margin]

theorem textCues_leading {t : Points} {cs : List Cue} (h : lineCues (t ++ points ";\n") = []) (ht : Bears t cs) :
    textCues (t ++ (points ";" ++ points "\n")) = cs := by
  have hend : points ";" ++ points "\n" = points ";\n" := rfl
  rw [textCues, hend, h, ht]
  exact append_nil _

theorem cuesOf_braced (level : Nat) (lines : List Line) :
    cuesOf (bracedLines indent.text level lines) = .opens :: (cuesOf lines ++ [.closes]) := by
  rw [bracedLines, cuesOf_cons, cuesOf_append, cuesOf_cons]
  rfl

/-- The block of a lambda has its lines between the line end before it and the rest of its last line. -/
theorem bears_braced (level : Nat) (lines : List Line) :
    Bears (points "\n" ++ joined "\n" ((bracedLines indent.text level lines).map Line.text))
      (.opens :: (cuesOf lines ++ [.closes])) := by
  intro x
  have hend (y : Points) : laterCues (points "\n" ++ y) = textCues y := rfl
  rw [map_text_braced, braced, ← cons_append, joined_append_singleton, append_assoc, append_assoc, hend,
    textCues_lines, append_assoc, textCues_margin, flatMap_cons, append_assoc, append_assoc,
    textCues_margin, flatMap_map]
  simp [cuesOf, textCues_heads, laterCues_end]

/-- An alternative reads like its statement behind an `else`, also where its `if` stands on the line of
the `else`. -/
theorem cuesOf_else (level : Nat) (s : Stmt) {cs : List Cue}
    (hs : ∀ level, cuesOf (stmtPieces indent.text level s) = cs) :
    cuesOf (elsePieces indent.text level (some s)) = .otherwise :: cs := by
  cases s with
  | ifElse condition consequence alternative =>
    rw [← hs level]
    simp [elsePieces, stmtPieces, cuesOf_cons, textCues_heads]
  | _ =>
    rw [← hs _, elsePieces, cuesOf_cons]
    · rfl
    · simp

attribute [local simp] laterCues_lit laterCues_end textCues_heads written_member written_name cuesOf_nil cuesOf_cons
  cuesOf_append cuesOf_braced joined_nil Sketch.cues Expr.sketch exprPieces Stmt.sketch stmtPieces

mutual

theorem bears_expr (level : Nat) : (e : Expr) → e.sketch.IsLegible →
    Bears (written spelled (exprPieces indent.text level e)) e.sketch.cues
  | .identifier name, h | .literal _, h => fun x => by
    simp +decide [laterCues_skip h]
  | .interpolated contents, h => fun x => by
    simp +decide [bears_contents level contents h _]
  | .binary op left right, h => fun x => by
    simp +decide [laterCues_skip op.newline_notMem,
      (bears_expr level left h.1).wrapped _ _ _, (bears_expr level right h.2).wrapped _ _ _]
  | .prefixed op operand, h => fun x => by
    simp [laterCues_skip op.newline_notMem,
      ((bears_expr level operand h).wrapped _ _).parenthesized _ _]
  | .postfixed op operand, h => fun x => by
    simp [laterCues_skip op.newline_notMem, (bears_expr level operand h).wrapped _ _ _]
  | .assignment op target value, h => fun x => by
    simp +decide [laterCues_skip op.newline_notMem,
      (bears_expr level target h.1).wrapped _ _ _, bears_expr level value h.2 _]
  | .conditional condition whenTrue whenFalse, h => fun x => by
    simp +decide [(bears_expr level condition h.1).wrapped _ _ _,
      (bears_expr level whenTrue h.2.1).wrapped _ _ _, (bears_expr level whenFalse h.2.2).wrapped _ _ _]
  | .memberAccess target name nullable, h => fun x => by
    have hname := laterCues_skip h.2
    cases nullable <;>
      simp +decide [(bears_expr level target h.1).wrapped _ _ _, hname]
  | .invocation callee arguments, h => fun x => by
    simp +decide [(bears_expr level callee h.1).wrapped _ _ _,
      bears_arguments level arguments h.2 _]
  | .elementAccess target index, h => fun x => by
    simp +decide [(bears_expr level target h.1).wrapped _ _ _,
      bears_expr level index h.2 _]
  | .objectCreation created arguments, h => fun x => by
    simp +decide [laterCues_skip h.1, bears_arguments level arguments h.2 _]
  | .arrayCreation elementType elements, h => fun x => by
    have hitems := bears_exprs level elements h.2
    cases hp : exprsPieces indent.text level elements with
    | nil =>
      have hnone : laterCues x = (exprsSketch elements).cues ++ laterCues x := by
        rw [hp] at hitems
        exact hitems x
      simp +decide [hp, laterCues_skip h.1, ← hnone]
    | cons ps pss =>
      rw [hp] at hitems
      simp +decide [hp, laterCues_skip h.1, hitems _, -map_cons]
  | .lambda parameters body, h => fun x => by
    simp +decide [laterCues_skip h.1, bears_body level body h.2 _]
  | .foreign _, _ => fun _ => by simp

theorem bears_exprs (level : Nat) : (es : List Expr) → (exprsSketch es).IsLegible →
    Bears (joined ", " ((exprsPieces indent.text level es).map (written spelled))) (exprsSketch es).cues
  | [], _ => fun _ => rfl
  | e :: es, h => (bears_expr level e h.1).joined_cons (bears_exprs level es h.2)

theorem bears_contents (level : Nat) : (cs : List Content) → (contentsSketch cs).IsLegible →
    Bears (written spelled (contentsPieces indent.text level cs)) (contentsSketch cs).cues
  | [], _ => fun _ => rfl
  | .text value :: cs, h => fun x => by
    simp [contentsPieces, contentPieces, contentsSketch, laterCues_skip h.1, bears_contents level cs h.2 _]
  | .hole value :: cs, h => fun x => by
    simp +decide [contentsPieces, contentPieces, contentsSketch,
      (bears_expr level value h.1).parenthesized _ _, bears_contents level cs h.2 _]

theorem bears_arguments (level : Nat) : (arguments : List Argument) → (argumentsSketch arguments).IsLegible →
    Bears (joined ", " ((argumentsPieces indent.text level arguments).map (written spelled)))
      (argumentsSketch arguments).cues
  | [], _ => fun _ => rfl
  | .mk value name :: rest, h => by
    have hvalue : Bears (written spelled (argumentPieces indent.text level (.mk value name))) value.sketch.cues := by
      intro x
      rw [argumentPieces]
      split
      · next n hn =>
        simp +decide [laterCues_skip (newline_notMem_given h.1.1 hn), bears_expr level value h.1.2 _]
      · exact bears_expr level value h.1.2 x
    exact hvalue.joined_cons (bears_arguments level rest h.2)

theorem bears_body (level : Nat) : (body : LambdaBody) → body.sketch.IsLegible →
    Bears (written spelled (bodyPieces indent.text level body)) body.sketch.cues
  | .expression value, h => fun x => by
    simp +decide [bodyPieces, LambdaBody.sketch, bears_expr level value h _]
  | .block statements, h => by
    rw [bodyPieces, LambdaBody.sketch, Sketch.cues, ← cuesOf_stmts (level + 1) statements h, written_append,
      written_lit, written_joinedPieces, map_map]
    exact bears_braced level _

theorem bears_option (level : Nat) : (e : Option Expr) → (optionSketch e).IsLegible →
    Bears (written spelled (optionPieces indent.text level e)) (optionSketch e).cues
  | none, _ => fun _ => rfl
  | some e, h => bears_expr level e h

theorem bears_declaration (level : Nat) : (d : Declaration) → d.sketch.IsLegible →
    Bears (written spelled (declarationPieces indent.text level d)) d.sketch.cues
  | .mk typeName name none, h => fun x => by
    simp +decide [declarationPieces, Declaration.sketch, optionSketch, laterCues_skip h.1,
      laterCues_skip h.2.1]
  | .mk typeName name (some value), h => fun x => by
    simp +decide [declarationPieces, Declaration.sketch, optionSketch, laterCues_skip h.1,
      laterCues_skip h.2.1, bears_expr level value h.2.2 _]

theorem cuesOf_stmt (level : Nat) : (s : Stmt) → s.sketch.IsLegible →
    cuesOf (stmtPieces indent.text level s) = s.sketch.cues
  | .block statements, h => by
    simp [cuesOf_stmts _ statements h]
  | .declaration d, h => by
    simp [textCues_leading (h.1 _ level) (bears_declaration level d h.2)]
  | .expression value, h => by
    simp [textCues_leading (h.1 _ level) (bears_expr level value h.2)]
  | .ifElse condition consequence none, h => by
    simp +decide [elsePieces, bears_expr level condition h.1 _,
      cuesOf_stmt _ consequence h.2]
  | .ifElse condition consequence (some alternative), h => by
    simp +decide [bears_expr level condition h.1.1 _,
      cuesOf_stmt _ consequence h.1.2, cuesOf_else level alternative fun level => cuesOf_stmt level alternative h.2]
  | .whileLoop condition body, h => by
    simp +decide [bears_expr level condition h.1 _, cuesOf_stmt _ body h.2]
  | .forLoop none initializers condition updates body, h => by
    simp +decide [declaredPieces, declaredSketch,
      bears_exprs level initializers h.1.1.2 _, bears_option level condition h.1.2.1 _,
      bears_exprs level updates h.1.2.2 _, cuesOf_stmt _ body h.2]
  | .forLoop (some d) initializers condition updates body, h => by
    simp +decide [declaredPieces, declaredSketch,
      bears_declaration level d h.1.1.1 _, bears_option level condition h.1.2.1 _,
      bears_exprs level updates h.1.2.2 _, cuesOf_stmt _ body h.2]
  | .forEach typeName identifier source body, h => by
    simp +decide [laterCues_skip h.1.1, laterCues_skip h.1.2.1,
      bears_expr level source h.1.2.2 _, cuesOf_stmt _ body h.2]
  | .switch subject sections, h => by
    simp +decide [bears_expr level subject h.1 _, cuesOf_sections _ sections h.2]
  | .tryCatch block catches finallyBlock, h => by
    simp [cuesOf_stmts _ block h.1, cuesOf_catches level catches h.2.1,
      cuesOf_finally level finallyBlock h.2.2]
  | .returnValue none, _ | .breakOut, _ | .continueOn, _ => by
    simp +decide [optionSketch]
  | .returnValue (some value), h => by
    simp +decide [optionSketch, cuesOf_returned, bears_expr level value h _]
  | .throwValue value, h => by
    simp +decide [bears_expr level value h _]
  | .foreign _, _ => rfl

theorem cuesOf_stmts (level : Nat) : (ss : List Stmt) → (stmtsSketch ss).IsLegible →
    cuesOf (stmtsPieces indent.text level ss) = (stmtsSketch ss).cues
  | [], _ => rfl
  | s :: rest, h => by
    simp [stmtsPieces, stmtsSketch, cuesOf_stmt level s h.1, cuesOf_stmts level rest h.2]

theorem cuesOf_labels (level : Nat) : (labels : List SwitchLabel) → (labelsSketch labels).IsLegible →
    cuesOf (labelsPieces indent.text level labels) = (labelsSketch labels).cues
  | [], _ => rfl
  | .case value :: rest, h => by
    simp +decide [labelsPieces, labelsSketch, bears_expr level value h.1 _, cuesOf_labels level rest h.2]
  | .fallback :: rest, h => by
    simp [labelsPieces, labelsSketch, cuesOf_labels level rest h]

theorem cuesOf_sections (level : Nat) : (sections : List SwitchSection) → (sectionsSketch sections).IsLegible →
    cuesOf (sectionsPieces indent.text level sections) = (sectionsSketch sections).cues
  | [], _ => rfl
  | .mk labels statements :: rest, h => by
    simp [sectionsPieces, sectionsSketch, cuesOf_labels level labels h.1.1, cuesOf_stmts _ statements h.1.2,
      cuesOf_sections level rest h.2]

theorem cuesOf_catches (level : Nat) : (catches : List CatchClause) → (catchesSketch catches).IsLegible →
    cuesOf (catchesPieces indent.text level catches) = (catchesSketch catches).cues
  | [], _ => rfl
  | .mk typeName identifier block :: rest, h => by
    cases hn : given? identifier with
    | none =>
      simp +decide [catchesPieces, catchesSketch, hn, laterCues_skip h.1.1.1, cuesOf_stmts _ block h.1.2,
        cuesOf_catches level rest h.2]
    | some n =>
      simp +decide [catchesPieces, catchesSketch, hn, laterCues_skip h.1.1.1,
        laterCues_skip (newline_notMem_given h.1.1.2 hn), cuesOf_stmts _ block h.1.2, cuesOf_catches level rest h.2]

theorem cuesOf_finally (level : Nat) : (block : Option (List Stmt)) → (finallySketch block).IsLegible →
    cuesOf (finallyPieces indent.text level block) = (finallySketch block).cues
  | none, _ => rfl
  | some block, h => by
    simp [finallyPieces, finallySketch, cuesOf_stmts _ block h]

end

/-- The rendered text of statements, read again, gives every `else` to the `if` it comes from exactly if
no branch before an `else` leaves an `if` open outside of braces. -/
theorem readElses_iff {level : Nat} {ss : List Stmt} {lines : List Points} (hlegible : (stmtsSketch ss).IsLegible)
    (h : stmtsLines indent.text level ss = .ok lines) :
    readElses (lines.flatMap (· ++ points "\n")) = (stmtsSketch ss).owners 0 ↔
      (stmtsSketch ss).isAttached = true := by
  have hlines : lines = (stmtsPieces indent.text level ss).map Line.text := by
    rcases stmtsLines_writes indent.text level ss with hlines | ⟨-, hfails⟩
    · exact Except.ok.inj (h.symm.trans hlines)
    · cases h.symm.trans hfails
  have hcues : textCues (lines.flatMap (· ++ points "\n") ++ []) = (stmtsSketch ss).cues := by
    rw [textCues_lines, hlines, flatMap_map, ← cuesOf_stmts level ss hlegible]
    exact append_nil _
  rw [append_nil] at hcues
  rw [← Sketch.attach_cues_iff, readElses, hcues]

end

def fourBlanks : Indent := ⟨fourSpaces, by decide⟩

/-- A choice in the block of a lambda that stands before an `else`. -/
def lambdaChoice : List Stmt :=
  [.ifElse (.identifier "a") (.expression (.invocation (.identifier "f") [.mk (.lambda ["x"] (.block
    [.ifElse (.identifier "b") (.returnValue none) (some (.block []))])) none]))
    (some (.ifElse (.identifier "c") .breakOut none))]

theorem readElses_lambda : (stmtsSketch lambdaChoice).IsLegible ∧
    ∃ lines, stmtsLines fourBlanks.text 0 lambdaChoice = .ok lines ∧
      readElses (lines.flatMap (· ++ points "\n")) = [some 1, some 0] := by
  have hname : ∀ n ∈ ["a", "b", "c", "f", "x", ""], newline ∉ identifierText n := by decide
  have hlegible : (stmtsSketch lambdaChoice).IsLegible :=
    ⟨⟨⟨hname "a" (by decide), fun _ _ => rfl, hname "f" (by decide), ⟨hname "" (by decide), hname "x" (by decide),
      ⟨⟨hname "b" (by decide), trivial⟩, trivial⟩, trivial⟩, trivial⟩, hname "c" (by decide), trivial⟩, trivial⟩
  refine ⟨hlegible, _, rfl, ?_⟩
  exact (readElses_iff hlegible rfl).mpr rfl

/-- A branch that ends with an open `if` takes the `else` behind it. -/
def danglingElse : Stmt :=
  .ifElse (.identifier "a") (.ifElse (.identifier "b") .breakOut none) (some .continueOn)

theorem readElses_dangling : ∃ lines, stmtLines fourSpaces 0 danglingElse = .ok lines ∧
    readElses (lines.flatMap (· ++ points "\n")) = [some 1] ∧ danglingElse.sketch.owners 0 = [some 0] :=
  ⟨_, rfl, by decide +kernel, rfl⟩

end GroovySharp.CSharp
