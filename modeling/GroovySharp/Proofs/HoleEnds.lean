import GroovySharp.Proofs.StringPieces
import Mathlib.Computability.Primrec.List
import Mathlib.Data.List.Permutation

/-!
# Where holes end

A hole with a brace ends at the first closing brace of the literal, whatever stands in it.
-/

namespace GroovySharp

open Text Grammar Text.Interpolated List ProgramTable
open Source (bind_eq_ok)

/-! ### Trees without places -/

namespace Tree

mutual

def unplaced : Tree → Tree
  | .leaf l => .leaf { l with span := .empty }
  | .node k children _ text => .node k (allUnplaced children) .empty text

def allUnplaced : List Tree → List Tree
  | [] => []
  | t :: ts => unplaced t :: allUnplaced ts

end

mutual

theorem unplaced_within (origin : Position) : ∀ t : Tree, (t.within origin).unplaced = t.unplaced
  | .leaf l => rfl
  | .node k children span text => by rw [within, unplaced, unplaced, allUnplaced_within origin children]

theorem allUnplaced_within (origin : Position) : ∀ ts : List Tree, allUnplaced (allWithin origin ts) = allUnplaced ts
  | [] => rfl
  | t :: ts => by rw [allWithin, allUnplaced, allUnplaced, unplaced_within origin t, allUnplaced_within origin ts]

end

end Tree

/-! ### Tokens one by one -/

namespace Grammar

def word (t : Terminal) (text : Chars) (start : Position) : Token := ⟨t, text, start, start.advance text⟩

theorem reads_word {T : Table} {source : Chars} (text more : Chars) {stack stack' : List Frame}
    {position : Position} {last : Option Token} {t : Terminal} {piece : Piece}
    (hlex : lexeme? (T.accepts (topState stack)) (text ++ more) = some (t, text.length))
    (hi : t.isIgnored = false) (hf : Feeds T source (word t text position) stack stack')
    (h : Reads T source ⟨stack', position.advance text, more, some (word t text position)⟩ piece) :
    Reads T source ⟨stack, position, text ++ more, last⟩ piece := by
  have htoken : Config.token ⟨stack, position, text ++ more, last⟩ t text.length = word t text position := by
    simp only [Config.token, take_left, word]
  refine .take hlex hi (htoken ▸ hf) ?_
  simpa only [Config.taken, Config.skip, htoken, take_left, drop_left] using h

end Grammar

namespace Program

/-! ### A command with one argument -/

structure Command where
  name : Leaf
  call : Span × Chars
  statement : Span × Chars
  unit : Span × Chars

def Command.tree (c : Command) (argument : Tree) : Tree :=
  .node .compilationUnit [.node .expressionStatement [.node .commandCall [.leaf c.name, argument] c.call.1 c.call.2]
      c.statement.1 c.statement.2] c.unit.1 c.unit.2

theorem Command.expand_tree (c : Command) (argument : Tree) :
    expand (c.tree argument) = c.tree <$> expand argument := by
  simp only [Command.tree, expand, expandAll]
  cases expand argument <;> rfl

def printing (literal : Chars) : Chars := "println".toList ++ ' ' :: (literal ++ [';'])

theorem lexeme?_command (cs : Chars) :
    lexeme? (table.accepts 0) ("println".toList ++ ' ' :: '"' :: cs) =
      some (.commandName, 7) := rfl

theorem lexeme?_blank (cs : Chars) :
    lexeme? (table.accepts 24) (' ' :: '"' :: cs) = some (.blank, 1) := by
  refine lexeme?_of_only (by decide) (by decide) (by decide) rfl fun k hk => ?_
  cases k with
  | blank => exact absurd rfl hk
  | _ => decide

def literalRule : Production := ⟨.literal, [keep .doubleString], some .stringLiteral⟩

def commandRule : Production :=
  ⟨.commandCall, [keep .commandName, rule .commandArgument], some .commandCall⟩

def statementRule : Production :=
  ⟨.expressionStatement, [rule .commandCall, drop .semicolon], some .expressionStatement⟩

def unitRule : Production := ⟨.compilationUnit, [rule .unitItems], some .compilationUnit⟩

section

variable (source name literal : Chars) (p q r : Position)

def begun : List Frame :=
  [⟨58, .terminal .doubleString, (word .doubleString literal q).piece⟩,
    ⟨24, .terminal .commandName, (word .commandName name p).piece⟩]

def callPiece : Piece :=
  commandRule.assemble source [(word .commandName name p).piece,
    literalRule.assemble source [(word .doubleString literal q).piece]]

def ended : List Frame :=
  [⟨83, .terminal .semicolon, (word .semicolon [';'] r).piece⟩,
    ⟨26, .phrase .commandCall, callPiece source name literal p q⟩]

def commandPiece : Piece :=
  unitRule.assemble source
    [statementRule.assemble source [callPiece source name literal p q, (word .semicolon [';'] r).piece]]

-- A literal passes through all levels of operands before it is an argument.
set_option maxRecDepth 20000 in
theorem feed?_semicolon : feed? table source (word .semicolon [';'] r) 32 (begun name literal p q) =
    some (ended source name literal p q r) := by
  cbv

set_option maxRecDepth 20000 in
theorem feed?_end : feed? table source ⟨.endOfInput, [], r, r⟩ 32 (ended source name literal p q r) =
    some [⟨67, .terminal .endOfInput, Token.piece ⟨.endOfInput, [], r, r⟩⟩,
      ⟨1, .phrase .compilationUnit, commandPiece source name literal p q r⟩] := by
  cbv

theorem reads_begun (last : Option Token) :
    Reads table source ⟨begun name literal p q, r, [';'], last⟩ (commandPiece source name literal p q r) := by
  have hlex : lexeme? (table.accepts 58) [';'] = some (.semicolon, 1) := lexeme?_semicolon (by decide) []
  have hend := feeds_of_feed? (feed?_end source name literal p q r)
  refine reads_word [';'] [] hlex rfl (feeds_of_feed? (feed?_semicolon ..)) ?_
  exact .done (f := ⟨1, .phrase .compilationUnit, _⟩) rfl hend

end

theorem parse_printing {inside : Chars}
    (hlex : lexeme? (table.accepts 24) ('"' :: inside ++ [';']) =
      some (.doubleString, ('"' :: inside).length)) :
    ∃ piece command literal span text,
      parse table (printing ('"' :: inside)) = .ok piece ∧
      command.name.text = "println".toList ∧ literal.kind = .terminal .doubleString ∧
        literal.text = '"' :: inside ∧
          theTree piece = Command.tree command (.node .stringLiteral [.leaf literal] span text) := by
  let start : Position := (({} : Position).advance "println".toList).advance [' ']
  have hname : table.action? 0 .commandName = some (.shift 24) := rfl
  have hstring : table.action? 24 .doubleString = some (.shift 58) := rfl
  have hreads : Reads table (printing ('"' :: inside)) { rest := printing ('"' :: inside) }
      (commandPiece (printing ('"' :: inside)) "println".toList ('"' :: inside) {} start
        (start.advance ('"' :: inside))) := by
    refine reads_word "println".toList _ (lexeme?_command (inside ++ [';'])) rfl (.mk .refl hname) ?_
    refine .skip (lexeme?_blank (inside ++ [';'])) rfl ?_
    exact reads_word ('"' :: inside) [';'] hlex rfl (.mk .refl hstring) (reads_begun ..)
  refine ⟨_, ⟨⟨.terminal .commandName, "println".toList, _⟩, (_, _), (_, _), (_, _)⟩, _, _, _,
    (parse_eq_ok_iff takesAfterEmpty).mpr hreads, rfl, rfl, rfl, rfl⟩

/-! ### A literal that is one hole -/

def unquoted (cs : Chars) : Bool := cs.all fun c => c != '"' && c != '\\' && c != '\n'

def holeLiteral (e : Chars) : Chars := '"' :: '$' :: '\x7b' :: (e ++ ['\x7d', '"'])

theorem closeLength?_unquoted {cs : Chars} (h : unquoted cs = true) (rest : Chars) :
    closeLength? '"' (cs ++ '"' :: rest) = some (cs.length + 1) := by
  induction cs with
  | nil => exact closeLength?_quote '"' rest
  | cons c cs ih =>
    simp only [unquoted, all_cons, Bool.and_eq_true, bne_iff_ne] at h
    obtain ⟨⟨⟨hquote, hslash⟩, hline⟩, hcs⟩ := h
    unfold closeLength?
    simp [hquote, hslash, hline, ih hcs]

variable {e source : Chars}

theorem lexeme?_holeLiteral (h : unquoted e = true) : lexeme? (table.accepts 24) (holeLiteral e ++ [';']) =
      some (.doubleString, (holeLiteral e).length) := by
  have hinside : unquoted ('$' :: '\x7b' :: (e ++ ['\x7d'])) = true := by
    simp only [unquoted, all_cons, all_append] at h ⊢
    rw [h]
    decide
  have hclose := closeLength?_unquoted hinside [';']
  have hholed : holeLiteral e ++ [';'] = '"' :: ('$' :: '\x7b' :: (e ++ ['\x7d']) ++ '"' :: [';']) := by
    simp [holeLiteral]
  have hmatch : Terminal.doubleString.matchLength? (holeLiteral e ++ [';']) = some (holeLiteral e).length := by
    rw [hholed, Terminal.matchLength?, stringLength?, if_pos rfl, hclose]
    simp [holeLiteral]
  have horder : order (table.accepts 24) =
      [.callName, .tripleString, .commandName, .decimal, .name] ++ .doubleString :: _ := rfl
  have htriple : Terminal.tripleString.matchLength? (holeLiteral e ++ [';']) = none := by
    simp [Terminal.matchLength?, tripleStringLength?, holeLiteral]
  refine lexeme?_of_order horder rfl (by decide) hmatch ?_
  simp only [forall_mem_cons]
  exact ⟨matchLength?_eq_none rfl _, htriple, matchLength?_eq_none rfl _, matchLength?_eq_none rfl _,
    matchLength?_eq_none rfl _, by simp⟩

def firstPart (e : Chars) : Chars := e.takeWhile (· != '\x7d')

def behind (e : Chars) : Chars := (e ++ ['\x7d']).drop ((firstPart e).length + 1)

theorem takeWhile_closed (e : Chars) : (e ++ ['\x7d']).takeWhile (· != '\x7d') = firstPart e := by
  induction e with
  | nil => rfl
  | cons c e ih =>
    rw [firstPart] at ih ⊢
    simp only [cons_append, takeWhile_cons, ih]

theorem drop_firstPart (e : Chars) : (e ++ ['\x7d']).drop (firstPart e).length = '\x7d' :: behind e := by
  induction e with
  | nil => rfl
  | cons c e ih =>
    by_cases hc : c = '\x7d'
    · simp [firstPart, behind, hc]
    · simpa [firstPart, behind, hc] using ih

theorem split_holeLiteral (e : Chars) : ∃ holes tail,
      splitFrom (e.length + 4) (1 + (firstPart e).length + 3) [] (behind e) = (holes, tail) ∧
      split (holeLiteral e) = if (firstPart e).all Unicode.isSpace then ([], .emptyHole)
        else (⟨[], firstPart e, 3⟩ :: holes, tail) := by
  have hinside : (holeLiteral e).tail.dropLast = '$' :: '\x7b' :: (e ++ ['\x7d']) := by
    have hend : holeLiteral e = '"' :: ('$' :: '\x7b' :: (e ++ ['\x7d']) ++ ['"']) := by simp [holeLiteral]
    rw [hend, tail_cons, dropLast_concat]
  have hlen : (holeLiteral e).length = e.length + 5 := by simp [holeLiteral]
  refine ⟨_, _, rfl, ?_⟩
  rw [split, hinside, hlen, splitFrom]
  simp [takeWhile_closed, opensHole, drop_firstPart]

theorem length_behind (e : Chars) : (behind e).length ≤ e.length + 4 := by
  simp only [behind, length_drop, length_append, length_singleton]
  omega

theorem starts_of_isSpace {c : Char} (hc : Unicode.isSpace c = true) {t : Terminal}
    (ht : t.isIgnored = false) : t.starts c = false := by
  have hall : (spaceChars.all fun c =>
      Terminal.all.all fun t => t.isIgnored || !t.starts c) = true := by decide +kernel
  have h := all_eq_true.mp (all_eq_true.mp hall c (mem_spaceChars hc)) t t.mem_all
  simpa [ht] using h

theorem not_reads_spaces {c : Config} {piece : Piece}
    (h : Reads ExpressionTable.table source c piece) (hstack : c.stack = []) : c.rest.all Unicode.isSpace = false := by
  rw [← Bool.not_eq_true]
  intro hspace
  induction h with
  | done _ hf =>
    rw [hstack] at hf
    obtain ⟨hr, ha⟩ := hf
    have hnone : ExpressionTable.table.action? 0 .endOfInput = none := rfl
    cases hr with
    | step ha _ _ => exact absurd (hnone.symm.trans ha) (by simp)
  | skip _ _ _ ih =>
    refine ih hstack (all_eq_true.mpr fun x hx => ?_)
    exact all_eq_true.mp hspace x (mem_of_mem_drop hx)
  | @take c t n stack piece hlex hi _ _ _ =>
    cases hrest : c.rest with
    | nil =>
      have := lexeme?_bounds hlex
      simp [hrest] at this
      omega
    | cons x cs =>
      rw [hrest] at hlex hspace
      obtain ⟨k, -, hk, htag⟩ := exists_of_lexeme? hlex
      have hignored : k.isIgnored = false := by
        split at htag
        · next hname => rw [hname]; rfl
        · rwa [← htag]
      have hx := starts_of_isSpace (all_eq_true.mp hspace x (mem_cons_self ..)) hignored
      rw [Terminal.starts_of_matchLength? hk] at hx
      cases hx

def IsOneHole (hole t : Tree) : Prop :=
  ∃ start stop span text, start.kind = .gstringBegin ∧ stop.kind = .gstringEnd ∧
    t = .node .gstring [.leaf start, hole, .leaf stop] span text

theorem readHole_eq_ok {origin : Position} {t : Tree} : readHole origin source = .ok t ↔
      ∃ piece, parse ExpressionTable.table source = .ok piece ∧ t = (theTree piece).within origin := by
  unfold readHole
  cases parse ExpressionTable.table source <;> simp [eq_comm]

theorem hasHole_behind {holes : List Hole} {tail : Tail}
    (hwalk : splitFrom (e.length + 4) (1 + (firstPart e).length + 3) [] (behind e) = (holes, tail)) :
    hasHole (behind e ++ ['"']) = false ↔ holes = [] ∧ ∃ last, tail = .text last := by
  have hcomes : hasHole (behind e ++ ['"']) = true ↔ ComesToHole (holes, tail) := by
    rw [← hwalk]
    exact ⟨fun h => splitFrom_hole h (length_behind e) _ [], hasHole_of_splitFrom⟩
  rw [← Bool.not_eq_true, hcomes, ComesToHole]
  simp

theorem readInterpolated_holeLiteral {token span : Span} {hole : Tree} :
    (∃ t, readInterpolated (holeLiteral e) token span = .ok t ∧ IsOneHole hole t) ↔
      hasHole (behind e ++ ['"']) = false ∧
        readHole ⟨token.start.offset + 3, token.start.line, token.start.column + 3⟩ (firstPart e) = .ok hole := by
  obtain ⟨holes, tail, hwalk, hsplit⟩ := split_holeLiteral e
  rw [hasHole_behind hwalk]
  constructor
  · rintro ⟨t, h, start, stop, span', text', -, -, rfl⟩
    unfold readInterpolated at h
    rw [hsplit] at h
    by_cases hblank : (firstPart e).all Unicode.isSpace = true
    · rw [if_pos hblank] at h
      cases h
    rw [if_neg hblank] at h
    obtain ⟨children, hchildren, h⟩ := bind_eq_ok.mp h
    obtain ⟨tree, htree, hchildren⟩ := bind_eq_ok.mp hchildren
    obtain ⟨later, hlater, hchildren⟩ := bind_eq_ok.mp hchildren
    cases hchildren
    cases tail with
    | openHole | emptyHole | badName => cases h
    | text last =>
      obtain ⟨⟨-, rfl, hlast⟩, -⟩ := by simpa [pure, Except.pure] using h
      obtain rfl : later = [] := by
        cases later with
        | nil => rfl
        | cons => simp at hlast
      refine ⟨⟨?_, last, rfl⟩, htree⟩
      cases holes with
      | nil => rfl
      | cons hole holes =>
        obtain ⟨_, -, hlater⟩ := bind_eq_ok.mp hlater
        obtain ⟨_, -, hlater⟩ := bind_eq_ok.mp hlater
        cases hlater
  · rintro ⟨⟨rfl, last, rfl⟩, hread⟩
    have hblank : ¬ (firstPart e).all Unicode.isSpace = true := by
      obtain ⟨piece, hparse, -⟩ := readHole_eq_ok.mp hread
      rw [Bool.not_eq_true]
      exact not_reads_spaces (reads_of_run hparse) rfl
    unfold readInterpolated
    rw [hsplit, if_neg hblank]
    simp only [readHoles, hread]
    exact ⟨_, rfl, _, _, _, _, rfl, rfl, rfl⟩

/-! ### The program with the hole -/

theorem read_of_parse {piece : Piece} (h : parse table source = .ok piece) : read source = expand (theTree piece) := by
  rw [read, h]

theorem read_printing_hole (h : unquoted e = true) :
    ∃ command token span, command.name.text = "println".toList ∧
      read (printing (holeLiteral e)) = Command.tree command <$> readInterpolated (holeLiteral e) token span := by
  obtain ⟨piece, command, literal, span, text, hparse, hname, hkind, htext, htree⟩ :=
    parse_printing (lexeme?_holeLiteral h)
  refine ⟨command, literal.span, span, hname, ?_⟩
  have hseen : isInterpolated (holeLiteral e) = true := by simp [isInterpolated, holeLiteral, hasHole, opensHole]
  have hexpand : expand (.node .stringLiteral [.leaf literal] span text) =
      readInterpolated (holeLiteral e) literal.span span := by
    rw [expand, if_pos ⟨hkind, htext ▸ hseen⟩, htext]
    rfl
  rw [← hexpand, ← Command.expand_tree, ← htree]
  exact read_of_parse hparse

/-- The program that prints a hole with `e` is read as a string with one hole, which holds the tree up
to spans. -/
def Interpolates (e : Chars) (t : Tree) : Prop :=
  ∃ command string hole, read (printing (holeLiteral e)) = .ok (Command.tree command string) ∧
    command.name.text = "println".toList ∧ IsOneHole hole string ∧ hole.unplaced = t.unplaced

theorem interpolates_iff (h : unquoted e = true) (t : Tree) :
    Interpolates e t ↔ hasHole (behind e ++ ['"']) = false ∧
      ∃ part, parse ExpressionTable.table (firstPart e) = .ok part ∧ (theTree part).unplaced = t.unplaced := by
  obtain ⟨command, token, span, hname, hread⟩ := read_printing_hole h
  constructor
  · rintro ⟨command', string, hole, hok, -, hone, hsame⟩
    rw [hread] at hok
    obtain ⟨string', hstring, heq⟩ := Source.map_eq_ok.mp hok
    obtain rfl : string' = string := by
      simp only [Command.tree, Tree.node.injEq, cons.injEq] at heq
      exact heq.2.1.1.2.1.1.2.1.2.1
    obtain ⟨hbehind, hhole⟩ := readInterpolated_holeLiteral.mp ⟨string', hstring, hone⟩
    obtain ⟨part, hpart, rfl⟩ := readHole_eq_ok.mp hhole
    rw [Tree.unplaced_within] at hsame
    exact ⟨hbehind, part, hpart, hsame⟩
  · rintro ⟨hbehind, part, hpart, hsame⟩
    obtain ⟨string, hstring, hone⟩ :=
      readInterpolated_holeLiteral.mpr ⟨hbehind, readHole_eq_ok.mpr ⟨part, hpart, rfl⟩⟩
    refine ⟨command, string, _, ?_, hname, hone, ?_⟩
    · rw [hread, hstring]
      rfl
    · rw [Tree.unplaced_within, hsame]

/-- A hole holds the tree of its expression exactly when the expression up to its first closing brace is
read as that tree and no hole is seen behind the brace. So every expression without a closing brace can
stand in a hole. -/
theorem expression_interpolated_iff {e : Chars} (h : unquoted e = true) {piece : Piece}
    (hparse : parse ExpressionTable.table e = .ok piece) :
    (Interpolates e (theTree piece) ↔ hasHole (behind e ++ ['"']) = false ∧
      ∃ part, parse ExpressionTable.table (firstPart e) = .ok part ∧
        (theTree part).unplaced = (theTree piece).unplaced) ∧ ('\x7d' ∉ e → Interpolates e (theTree piece)) := by
  refine ⟨interpolates_iff h _, fun hbrace => (interpolates_iff h _).mpr ?_⟩
  have hfirst : firstPart e = e := by
    rw [firstPart, List.takeWhile_eq_self_iff]
    rintro c hc
    simpa using fun heq : c = '\x7d' => hbrace (heq ▸ hc)
  rw [hfirst, behind, hfirst, List.drop_eq_nil_of_le (by simp)]
  exact ⟨rfl, piece, hparse, rfl⟩

def elementCall : Chars := "xs[0].f('a') + 1".toList

theorem expression_interpolated_call :
    ∃ piece, unquoted elementCall = true ∧
      parse ExpressionTable.table elementCall = .ok piece ∧
        Interpolates elementCall (theTree piece) := by
  have hclean : unquoted elementCall = true := by decide
  obtain ⟨piece, hpiece, -⟩ := Source.exists_of_toOption_any
    (x := parse ExpressionTable.table elementCall) (p := fun _ => true)
    (by decide +kernel)
  exact ⟨piece, hclean, hpiece, (expression_interpolated_iff hclean hpiece).2 (by decide)⟩

def collectingClosure : Chars := "xs.collect \x7b it \x7d".toList

theorem closure_not_interpolated :
    ∃ piece, unquoted collectingClosure = true ∧
      parse ExpressionTable.table collectingClosure = .ok piece ∧
        ¬ Interpolates collectingClosure (theTree piece) := by
  have hclean : unquoted collectingClosure = true := by decide
  obtain ⟨piece, hpiece, -⟩ := Source.exists_of_toOption_any
    (x := parse ExpressionTable.table collectingClosure) (p := fun _ => true)
    (by decide +kernel)
  refine ⟨piece, hclean, hpiece, ?_⟩
  rintro ⟨command, string, hole, hread, -⟩
  have hnone : (read (printing (holeLiteral collectingClosure))).toOption.isSome =
      false := by decide +kernel
  rw [hread] at hnone
  cases hnone

end Program

end GroovySharp
