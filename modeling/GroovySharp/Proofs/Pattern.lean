import GroovySharp.Grammar.Production

/-!
# Patterns of children

Which children a node of each kind can have.
-/

namespace GroovySharp

open Grammar List

/-! ### Shapes and items -/

/-- What a tree in one place may be: a node of some kinds, or a token of some kinds. -/
structure Shape where
  kinds : List Kind := []
  tokens : List LeafKind := []

inductive Item
  | one (s : Shape)
  | optional (s : Shape)
  | many (s : Shape)

namespace Shape

def admits (s : Shape) : Tree → Bool
  | .leaf l => s.tokens.contains l.kind
  | .node k _ _ _ => s.kinds.contains k

def within (s s' : Shape) : Bool :=
  s.kinds.all (s'.kinds.contains ·) && s.tokens.all (s'.tokens.contains ·)

theorem admits_of_within {s s' : Shape} (h : s.within s' = true) {t : Tree} (ht : s.admits t = true) :
    s'.admits t = true := by
  obtain ⟨hkinds, htokens⟩ := Bool.and_eq_true_iff.mp h
  cases t with
  | leaf l =>
    have hl : l.kind ∈ s.tokens := contains_iff_mem.mp ht
    exact all_eq_true.mp htokens l.kind hl
  | node k children span text =>
    have hk : k ∈ s.kinds := contains_iff_mem.mp ht
    exact all_eq_true.mp hkinds k hk

end Shape

def Fits : List Item → List Tree → Prop
  | [], ts => ts = []
  | .one s :: items, ts => ∃ t rest, ts = t :: rest ∧ s.admits t = true ∧ Fits items rest
  | .optional s :: items, ts => Fits items ts ∨ ∃ t rest, ts = t :: rest ∧ s.admits t = true ∧ Fits items rest
  | .many s :: items, ts => ∃ front rest, ts = front ++ rest ∧ (∀ t ∈ front, s.admits t = true) ∧ Fits items rest

theorem fits_append {a b : List Item} {x y : List Tree} (ha : Fits a x) (hb : Fits b y) : Fits (a ++ b) (x ++ y) := by
  induction a generalizing x with
  | nil =>
    obtain rfl : x = [] := ha
    exact hb
  | cons item a ih =>
    cases item with
    | one s =>
      obtain ⟨t, rest, rfl, ht, hrest⟩ := ha
      exact ⟨t, rest ++ y, rfl, ht, ih hrest⟩
    | optional s =>
      rcases ha with ha | ⟨t, rest, rfl, ht, hrest⟩
      · exact .inl (ih ha)
      · exact .inr ⟨t, rest ++ y, rfl, ht, ih hrest⟩
    | many s =>
      obtain ⟨front, rest, rfl, hfront, hrest⟩ := ha
      exact ⟨front, rest ++ y, append_assoc .., hfront, ih hrest⟩

variable {ts : List Tree}

theorem Fits.split {a b : List Item} (h : Fits (a ++ b) ts) : ∃ x y, ts = x ++ y ∧ Fits a x ∧ Fits b y := by
  induction a generalizing ts with
  | nil => exact ⟨[], ts, rfl, rfl, h⟩
  | cons item a ih =>
    cases item with
    | one s =>
      obtain ⟨t, rest, rfl, ht, hrest⟩ := h
      obtain ⟨x, y, rfl, hx, hy⟩ := ih hrest
      exact ⟨t :: x, y, rfl, ⟨t, x, rfl, ht, hx⟩, hy⟩
    | optional s =>
      rcases h with h | ⟨t, rest, rfl, ht, hrest⟩
      · obtain ⟨x, y, rfl, hx, hy⟩ := ih h
        exact ⟨x, y, rfl, .inl hx, hy⟩
      · obtain ⟨x, y, rfl, hx, hy⟩ := ih hrest
        exact ⟨t :: x, y, rfl, .inr ⟨t, x, rfl, ht, hx⟩, hy⟩
    | many s =>
      obtain ⟨front, rest, rfl, hfront, hrest⟩ := h
      obtain ⟨x, y, rfl, hx, hy⟩ := ih hrest
      exact ⟨front ++ x, y, (append_assoc ..).symm, ⟨front, x, rfl, hfront, hx⟩, hy⟩

/-! ### One pattern covering another -/

def Item.within (s : Shape) : Item → Bool
  | one s' | optional s' | many s' => s'.within s

theorem admits_of_fits {s : Shape} {items : List Item} (hf : Fits items ts)
    (h : ∀ item ∈ items, item.within s = true) : ∀ t ∈ ts, s.admits t = true := by
  induction items generalizing ts with
  | nil =>
    obtain rfl : ts = [] := hf
    intro t ht
    cases ht
  | cons item items ih =>
    have hitem := h item (by simp)
    have hitems := fun rest (hrest : Fits items rest) =>
      ih hrest fun i hi => h i (mem_cons_of_mem _ hi)
    have hcons {t : Tree} {rest : List Tree} (ht : s.admits t = true) (hrest : Fits items rest) :
        ∀ x ∈ t :: rest, s.admits x = true := by
      intro x hx
      rcases mem_cons.mp hx with rfl | hx
      · exact ht
      · exact hitems rest hrest x hx
    cases item with
    | one s' =>
      obtain ⟨t, rest, rfl, ht, hrest⟩ := hf
      exact hcons (Shape.admits_of_within hitem ht) hrest
    | optional s' =>
      rcases hf with hf | ⟨t, rest, rfl, ht, hrest⟩
      · exact hitems ts hf
      · exact hcons (Shape.admits_of_within hitem ht) hrest
    | many s' =>
      obtain ⟨front, rest, rfl, hfront, hrest⟩ := hf
      intro x hx
      rcases mem_append.mp hx with hx | hx
      · exact Shape.admits_of_within hitem (hfront x hx)
      · exact hitems rest hrest x hx

/-- A check that what matches the second list of items matches the pattern. It goes from left to right,
and an item of the pattern takes whatever lies within it. -/
def covers : List Item → List Item → Bool
  | [], items => items.isEmpty
  | .one s :: pattern, .one s' :: items => s'.within s && covers pattern items
  | .one _ :: _, _ => false
  | .optional s :: pattern, .one s' :: items =>
    if s'.within s then covers pattern items else covers pattern (.one s' :: items)
  | .optional _ :: pattern, items => covers pattern items
  | .many s :: pattern, items => covers pattern (items.dropWhile fun item => item.within s)

theorem Fits.of_covers {pattern items : List Item} (h : covers pattern items = true)
    (hf : Fits items ts) : Fits pattern ts := by
  fun_induction covers pattern items generalizing ts with
  | case1 items =>
    obtain rfl := isEmpty_iff.mp h
    exact hf
  | case2 s pattern s' items ih =>
    obtain ⟨hwithin, hrest⟩ := Bool.and_eq_true_iff.mp h
    obtain ⟨t, rest, rfl, ht, hfits⟩ := hf
    exact ⟨t, rest, rfl, Shape.admits_of_within hwithin ht, ih hrest hfits⟩
  | case3 => cases h
  | case4 s pattern s' items hwithin ih =>
    obtain ⟨t, rest, rfl, ht, hfits⟩ := hf
    exact .inr ⟨t, rest, rfl, Shape.admits_of_within hwithin ht, ih h hfits⟩
  | case5 s pattern s' items _ ih => exact .inl (ih h hf)
  | case6 s pattern items _ ih => exact .inl (ih h hf)
  | case7 s pattern items ih =>
    rw [← takeWhile_append_dropWhile (p := fun item => Item.within s item) (l := items)] at hf
    obtain ⟨front, rest, rfl, hfront, hrest⟩ := hf.split
    refine ⟨front, rest, rfl, admits_of_fits hfront ?_, ih h hrest⟩
    intro item hitem
    exact all_eq_true.mp all_takeWhile item hitem

/-! ### Patterns of nodes -/

def kindsOf (ks : List Kind) : Shape := { kinds := ks }

def tokensOf (ts : List Terminal) : Shape := { tokens := ts.map LeafKind.terminal }

def expressionShape : Shape := kindsOf
  [.commandCall, .assignmentExpression, .ternaryExpression, .binaryExpression, .unaryExpression,
    .postfixExpression, .memberAccess, .methodCall, .indexExpression, .callExpression,
    .objectCreation, .closure, .identifier, .integerLiteral, .decimalLiteral, .stringLiteral,
    .gstring, .booleanLiteral, .nullLiteral, .listLiteral, .mapLiteral]

def statementKinds : List Kind :=
  [.localDeclaration, .expressionStatement, .block, .ifStatement, .whileStatement, .classicFor,
    .forIn, .forEach, .switchStatement, .tryStatement, .returnStatement, .breakStatement,
    .continueStatement, .throwStatement, .emptyStatement]

def statementShape : Shape := kindsOf statementKinds

def unitShape : Shape := kindsOf (.importDirective :: .methodDeclaration :: statementKinds)

def argumentShape : Shape := { expressionShape with kinds := .namedArgument :: expressionShape.kinds }

def operatorTokens : Shape := tokensOf
  [.logicalOr, .logicalAnd, .equal, .notEqual, .compare, .less, .greater, .lessEqual, .greaterEqual,
    .plus, .minus, .star, .slash, .percent, .power]

def pieceShape : Shape := { expressionShape with tokens := [.gstringPart] }

open Item in
def Kind.patterns : Kind → List (List Item)
  | .compilationUnit => [[many unitShape]]
  | .importDirective => [[one (kindsOf [.qualifiedName]), optional (tokensOf [.wildcard])]]
  | .qualifiedName => [[one (tokensOf [.name]), many (tokensOf [.name])]]
  | .methodDeclaration =>
    [[optional (tokensOf [.voidWord]), one (tokensOf [.callName]), optional (kindsOf [.parameters]),
      one (kindsOf [.block])]]
  | .parameters => [[many (kindsOf [.parameter])]]
  | .parameter => [[optional (tokensOf [.commandName]), one (tokensOf [.name])]]
  | .localDeclaration =>
    [[optional (tokensOf [.commandName]), one (tokensOf [.name]), one (tokensOf [.assign]),
      one expressionShape], [one (tokensOf [.name])]]
  | .expressionStatement => [[one expressionShape]]
  | .commandCall => [[one (tokensOf [.commandName]), one expressionShape, many expressionShape]]
  | .block => [[many statementShape]]
  | .ifStatement => [[one expressionShape, one statementShape, optional statementShape]]
  | .whileStatement => [[one expressionShape, one statementShape]]
  | .classicFor =>
    [[optional (kindsOf [.forInit]), optional (kindsOf [.forCondition]),
      optional (kindsOf [.forUpdate]), one statementShape]]
  | .forInit =>
    [[optional (tokensOf [.commandName]), one (tokensOf [.name]), one (tokensOf [.assign]),
      one expressionShape], [one expressionShape]]
  | .forCondition => [[one expressionShape]]
  | .forUpdate => [[many expressionShape]]
  | .forIn | .forEach =>
    [[optional (tokensOf [.commandName]), one (tokensOf [.name]), one expressionShape, one statementShape]]
  | .switchStatement =>
    [[one expressionShape, many (kindsOf [.switchCase]), one (tokensOf [.defaultWord]),
      many statementShape], [one expressionShape, many (kindsOf [.switchCase])]]
  | .switchCase => [[one expressionShape, many statementShape]]
  | .tryStatement => [[one (kindsOf [.block]), many (kindsOf [.catchClause]), optional (kindsOf [.finallyClause])]]
  | .catchClause => [[optional (tokensOf [.commandName]), one (tokensOf [.name]), one (kindsOf [.block])]]
  | .finallyClause => [[one (kindsOf [.block])]]
  | .returnStatement => [[optional expressionShape]]
  | .breakStatement | .continueStatement | .emptyStatement => [[]]
  | .throwStatement => [[one expressionShape]]
  | .assignmentExpression => [[one expressionShape, one (tokensOf [.assign]), one expressionShape]]
  | .ternaryExpression => [[one expressionShape, one expressionShape, one expressionShape]]
  | .binaryExpression => [[one expressionShape, one operatorTokens, one expressionShape]]
  | .unaryExpression => [[one (tokensOf [.minus, .bang]), one expressionShape]]
  | .postfixExpression => [[one expressionShape, one (tokensOf [.increment, .decrement])]]
  | .memberAccess => [[one expressionShape, optional (tokensOf [.safeDot]), one (tokensOf [.name])]]
  | .methodCall =>
    [[one expressionShape, optional (tokensOf [.safeDot]), one (tokensOf [.callName, .name]),
      optional (kindsOf [.arguments]), optional (kindsOf [.closure])]]
  | .indexExpression => [[one expressionShape, one expressionShape]]
  | .callExpression =>
    [[one (tokensOf [.callName, .name]), optional (kindsOf [.arguments]), optional (kindsOf [.closure])]]
  | .objectCreation => [[one (kindsOf [.creationType]), one (kindsOf [.arguments])]]
  | .creationType => [[many (tokensOf [.name]), one (tokensOf [.callName])]]
  | .arguments => [[many argumentShape]]
  | .namedArgument => [[one (tokensOf [.name]), one expressionShape]]
  | .closure => [[optional (kindsOf [.closureParameters]), optional (tokensOf [.arrow]), many statementShape]]
  | .closureParameters => [[many (tokensOf [.name])]]
  | .identifier => [[one (tokensOf [.name])]]
  | .integerLiteral => [[one (tokensOf [.integer])]]
  | .decimalLiteral => [[one (tokensOf [.decimal])]]
  | .stringLiteral => [[one (tokensOf [.singleString, .doubleString, .tripleString])]]
  | .gstring => [[one { tokens := [.gstringBegin] }, many pieceShape, one { tokens := [.gstringEnd] }]]
  | .booleanLiteral => [[one (tokensOf [.trueWord, .falseWord])]]
  | .nullLiteral => [[one (tokensOf [.nullWord])]]
  | .listLiteral => [[many expressionShape]]
  | .mapLiteral => [[many (kindsOf [.mapEntry])]]
  | .mapEntry => [[one (tokensOf [.name, .singleString, .doubleString]), one expressionShape]]

/-- The pattern that most constructs have alone. -/
def Kind.pattern (k : Kind) : List Item := k.patterns.headD []

/-! ### Items of phrases -/

namespace Grammar

open Item in
def Nonterminal.item : Nonterminal → Item
  | .compilationUnit => one (kindsOf [.compilationUnit])
  | .importDirective => one (kindsOf [.importDirective])
  | .qualifiedName => one (kindsOf [.qualifiedName])
  | .methodDeclaration => one (kindsOf [.methodDeclaration])
  | .parameters => one (kindsOf [.parameters])
  | .parameter => one (kindsOf [.parameter])
  | .statement => one statementShape
  | .localDeclaration => one (kindsOf [.localDeclaration])
  | .expressionStatement | .finalStatement => one (kindsOf [.expressionStatement])
  | .block => one (kindsOf [.block])
  | .blockItems | .statements => many statementShape
  | .ifStatement => one (kindsOf [.ifStatement])
  | .whileStatement => one (kindsOf [.whileStatement])
  | .classicFor => one (kindsOf [.classicFor])
  | .forInit => one (kindsOf [.forInit])
  | .forCondition => one (kindsOf [.forCondition])
  | .forUpdate => one (kindsOf [.forUpdate])
  | .forIn => one (kindsOf [.forIn])
  | .forEach => one (kindsOf [.forEach])
  | .switchStatement => one (kindsOf [.switchStatement])
  | .switchCase => one (kindsOf [.switchCase])
  | .tryStatement => one (kindsOf [.tryStatement])
  | .catchClause => one (kindsOf [.catchClause])
  | .finallyClause => one (kindsOf [.finallyClause])
  | .returnStatement => one (kindsOf [.returnStatement])
  | .breakStatement => one (kindsOf [.breakStatement])
  | .continueStatement => one (kindsOf [.continueStatement])
  | .throwStatement => one (kindsOf [.throwStatement])
  | .emptyStatement => one (kindsOf [.emptyStatement])
  | .commandCall | .commandArgument | .expression | .assignment | .conditional | .logicalOr
  | .logicalAnd | .equality | .relational | .additive | .multiplicative | .power | .prefixed
  | .postfixed | .primary | .listLiteral | .mapLiteral | .literal => one expressionShape
  | .creationType => one (kindsOf [.creationType])
  | .arguments => one (kindsOf [.arguments])
  | .argument => one argumentShape
  | .namedArgument => one (kindsOf [.namedArgument])
  | .closure => one (kindsOf [.closure])
  | .closureParameters => one (kindsOf [.closureParameters])
  | .mapEntry => one (kindsOf [.mapEntry])
  | .unitItems => many unitShape
  | .nameParts | .typeQualifiers | .moreClosureParameters => many (tokensOf [.name])
  | .moreParameters => many (kindsOf [.parameter])
  | .moreUpdates | .moreCommandArguments | .moreElements => many expressionShape
  | .switchCases => many (kindsOf [.switchCase])
  | .catchClauses => many (kindsOf [.catchClause])
  | .moreArguments => many argumentShape
  | .moreEntries => many (kindsOf [.mapEntry])

def Symbol.item : Symbol → Item
  | .terminal t => .one (tokensOf [t])
  | .phrase n => n.item

def Production.items (p : Production) : List Item :=
  (p.parts.filter (·.kept)).map (·.symbol.item)

/-- The production makes what its phrase is read as, and a node that it builds has children as its kind
can have. -/
def Production.fitting (p : Production) : Bool :=
  match p.builds with
  | none => covers [p.head.item] p.items
  | some k => covers [p.head.item] [.one (kindsOf [k])] && k.patterns.any fun q => covers q p.items

theorem fitting_of_mem {p : Production} (hp : p ∈ productions) : p.fitting = true := by
  have hall : productions.all Production.fitting = true := by decide +kernel
  exact all_eq_true.mp hall p hp

end Grammar

end GroovySharp
