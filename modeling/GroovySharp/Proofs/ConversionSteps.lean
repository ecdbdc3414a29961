import GroovySharp.Conversion.Program
import GroovySharp.Proofs.Formed
import GroovySharp.Proofs.ModelAtoms
import GroovySharp.Proofs.Numerals

/-!
# Steps of the conversion

Which trees can be converted, and what the conversion of a node has to give: a product of the right
category with the names and literals of the tree in their order, or a fault of an expected kind.
-/

namespace GroovySharp

open CSharp Grammar Text Conversion List GroovySharp.Tree

/-! ### Trees -/

namespace Tree

mutual

def subtrees : Tree → List Tree
  | leaf l => [leaf l]
  | node k children span text => node k children span text :: allSubtrees children

def allSubtrees : List Tree → List Tree
  | [] => []
  | t :: ts => subtrees t ++ allSubtrees ts

end

theorem allSubtrees_eq_flatMap (ts : List Tree) : allSubtrees ts = ts.flatMap subtrees := by
  induction ts with
  | nil => rfl
  | cons t ts ih => rw [allSubtrees, ih, flatMap_cons]

def leaf? : Tree → Option Leaf
  | leaf l => some l
  | node .. => none

@[simp] theorem leaf?_leaf (l : Leaf) : (leaf l).leaf? = some l := rfl

def kind? : Tree → Option Kind
  | leaf _ => none
  | node k _ _ _ => some k

def anyToken (p : Leaf → Bool) (children : List Tree) : Bool := (children.filterMap leaf?).any p

end Tree

/-- The node has no counterpart in C#, whatever its children are: a map, a power or a comparison with
three outcomes, a declaration without a value or with another operator than `=`, a number of more than
31 bits, a `try` alone, or a type and a name, which are read as a call. -/
def Tree.offends : Tree → Bool
  | .leaf _ => false
  | .node kind children _ _ =>
    match kind with
    | .mapLiteral => true
    | .binaryExpression => Tree.anyToken (fun l => l.text = ['*', '*'] || l.text = ['<', '=', '>']) children
    | .localDeclaration =>
      !Tree.anyToken (fun l => l.kind = .terminal .assign) children ||
        Tree.anyToken (fun l => l.kind = .terminal .assign && l.text ≠ ['=']) children
    | .forInit =>
      Tree.anyToken (fun l => l.kind = .terminal .name) children &&
        Tree.anyToken (fun l => l.kind = .terminal .assign && l.text ≠ ['=']) children
    | .integerLiteral => Tree.anyToken (fun l => 2147483647 < numeralValue l.text) children
    | .tryStatement => !children.any fun t => t.kind? = some .catchClause || t.kind? = some .finallyClause
    | .commandCall =>
      Tree.anyToken (fun l => isTypeName (String.ofList l.text)) children &&
        children.filterMap Tree.kind? = [.identifier]
    | _ => false

def Tree.overlong : Tree → Bool
  | .leaf l => l.kind = .terminal .integer && maxDigits < l.text.length
  | .node .. => false

/-- The node itself uses a name of the `System` namespace: it calls a printing function by its name,
declares a variable without a type whose value is a closure, or handles every exception. -/
def Tree.usesSystem : Tree → Bool
  | .leaf _ => false
  | .node kind children _ _ =>
    match kind with
    | .callExpression | .commandCall => Tree.anyToken (fun l => String.ofList l.text ∈ ["println", "print"]) children
    | .localDeclaration | .forInit =>
      Tree.anyToken (fun l => l.kind = .terminal .name) children &&
        !Tree.anyToken (fun l => l.kind = .terminal .commandName && String.ofList l.text ∉ ["def", "var"])
          children &&
        children.any fun t => t.kind? = some .closure
    | .catchClause =>
      !Tree.anyToken (fun l => l.kind = .terminal .commandName && String.ofList l.text ≠ "Exception") children
    | _ => false

def Tree.refused (silent : Bool) (t : Tree) : Bool := t.offends || t.usesSystem && silent

def Tree.Convertible (t : Tree) : Prop := ∀ n ∈ t.subtrees, n.offends = false ∧ n.overlong = false

def Tree.Passes (silent : Bool) (t : Tree) : Prop :=
  ∀ n ∈ t.subtrees, n.refused silent = false ∧ n.overlong = false

theorem passes_false {t : Tree} : t.Passes false ↔ t.Convertible := by simp [Tree.Passes, Tree.Convertible, refused]

theorem passes_leaf {silent : Bool} {l : Leaf} : (Tree.leaf l).Passes silent ↔ (Tree.leaf l).overlong = false := by
  simp [Tree.Passes, Tree.subtrees, refused, offends, usesSystem]

theorem passes_node {silent : Bool} {k : Kind} {children : List Tree} {span : Span} {text : Chars} :
    (Tree.node k children span text).Passes silent ↔
      (Tree.node k children span text).refused silent = false ∧ ∀ t ∈ children, t.Passes silent := by
  simp only [Tree.Passes, Tree.subtrees, Tree.allSubtrees_eq_flatMap, forall_mem_cons, mem_flatMap, overlong, and_true]
  refine and_congr_right' ⟨fun h t ht n hn => h n ⟨t, ht, hn⟩, ?_⟩
  rintro h n ⟨t, ht, hn⟩
  exact h t ht n hn

/-! ### Names and literals of trees -/

def calledName (name : String) : String :=
  if name = "println" ∨ name = "print" then "Console" else name

/-- What the first token of a node contributes to the names and literals. -/
def leadAtoms (kind : Kind) (l : Leaf) : List Atom :=
  match kind with
  | .identifier => [.name (String.ofList l.text)]
  | .callExpression | .commandCall => [.name (calledName (String.ofList l.text))]
  | .integerLiteral => [.literal (.integer (numeralValue l.text))]
  | .decimalLiteral => [.literal (.decimal (Unicode.ofChars l.text))]
  | .stringLiteral =>
    let width := if l.kind = .terminal .tripleString then 3 else 1
    [.literal (.string (unescape (between width width l.text)))]
  | .booleanLiteral => [.literal (if l.kind = .terminal .trueWord then .true else .false)]
  | .nullLiteral => [.literal .null]
  | _ => []

mutual

/-- The names and literals of a tree from left to right; a call has its name before its arguments. -/
def Tree.atoms : Tree → List Atom
  | .leaf _ => []
  | .node kind children _ _ =>
    (match children with
      | .leaf l :: _ => leadAtoms kind l
      | _ => []) ++ allAtoms children

def Tree.allAtoms : List Tree → List Atom
  | [] => []
  | t :: ts => t.atoms ++ allAtoms ts

end

namespace Conversion

/-! ### What a step gives -/

def Fault.Expected (long : Prop) : Fault → Prop
  | .missing .. => True
  | .unsupported .. => True
  | .numeral _ => long
  | _ => False

/-- The step gives a result with the property if the condition holds, and an expected fault if not. If it
has to be silent, it gives no note about `System` if the condition holds, and such a note or a fault if
not. -/
inductive Meets {α : Type} (long : Prop) (silent : Bool) (x : Build α) (c : Prop) (P : α → Prop) : Prop
  | gives {a : α} {n : Notes} (hc : c) (hx : x = .ok (a, n))
      (hn : silent = true → n.needsSystem = false) (hp : P a)
  | fails {f : Fault} (hc : ¬ c) (hx : x = .error f) (hf : f.Expected long)
  | noted (hc : ¬ c) (hs : silent = true) (hx : ∀ a n, x = .ok (a, n) → n.needsSystem = true)

section

variable {α β : Type} {long c c' d : Prop} {silent : Bool} {x : Build α} {P P' : α → Prop} {Q : β → Prop}

theorem Meets.congr (h : Meets long silent x c P) (hc : c' ↔ c) : Meets long silent x c' P :=
  (propext hc).symm ▸ h

theorem Meets.mono (h : Meets long silent x c P) (hp : ∀ a, P a → P' a) : Meets long silent x c P' := by
  cases h with
  | gives hc hx hn ha => exact .gives hc hx hn (hp _ ha)
  | fails hc hx hf => exact .fails hc hx hf
  | noted hc hs hx => exact .noted hc hs hx

theorem Meets.pure {a : α} (h : P a) : Meets long silent (pure a) True P :=
  .gives trivial rfl (fun _ => rfl) h

theorem Meets.fail {f : Fault} (h : f.Expected long) : Meets long silent (Build.fail f) False P :=
  .fails id rfl h

theorem Meets.missing {site : Site} {k : Kind} {role : Role} :
    Meets long silent (Build.fail (.missing site k role)) False P := .fail trivial

theorem Meets.unsupported {site : Site} {feature : Feature} :
    Meets long silent (Build.fail (.unsupported site feature)) False P := .fail trivial

theorem Meets.usesSystem (b : Bool) : Meets long silent (Build.usesSystem b) ((b && silent) = false) fun _ => True := by
  cases b with
  | false => exact .gives rfl rfl (fun _ => rfl) trivial
  | true =>
    cases silent with
    | false => exact .gives rfl rfl nofun trivial
    | true => exact .noted (by decide) rfl fun _ _ h => by cases h; rfl

theorem Meets.warn (w : Warning) : Meets long silent (Build.warn w) True fun _ => True :=
  .gives trivial rfl (fun _ => rfl) trivial

theorem Meets.also (h : Meets long silent x c P) (hq : ∀ a n, x = .ok (a, n) → P' a) :
    Meets long silent x c fun a => P a ∧ P' a := by
  cases h with
  | gives hc hx hn hp => exact .gives hc hx hn ⟨hp, hq _ _ hx⟩
  | fails hc hx hf => exact .fails hc hx hf
  | noted hc hs hx => exact .noted hc hs hx

variable {f : α → Build β}

theorem Build.bind_eq_ok {b : β} {n : Notes} (h : (x >>= f) = .ok (b, n)) :
    ∃ a m l, x = .ok (a, m) ∧ f a = .ok (b, l) ∧ n = m.append l := by
  change Build.bind x f = _ at h
  rcases x with e | ⟨a, m⟩
  · cases h
  · simp only [Build.bind] at h
    cases hf : f a with
    | error e =>
      rw [hf] at h
      cases h
    | ok r =>
      rw [hf] at h
      obtain ⟨rfl, rfl⟩ := Prod.mk.inj (Except.ok.inj h)
      exact ⟨a, m, _, rfl, hf, rfl⟩

theorem Meets.bind (hx : Meets long silent x c P)
    (hf : ∀ a, P a → Meets long silent (f a) d Q) : Meets long silent (x >>= f) (c ∧ d) Q := by
  cases hx with
  | @gives a n hc hx hn hp =>
    subst hx
    cases hf a hp with
    | @gives b m hd hb hm hq =>
      refine .gives (a := b) (n := n.append m) ⟨hc, hd⟩ ?_ (fun hs => ?_) hq
      · change Build.bind _ _ = _
        simp only [Build.bind, hb]
        rfl
      · rw [Notes.append, hn hs, hm hs, Bool.or_self]
    | @fails e hd hb he =>
      refine .fails (f := e) (fun h => hd h.2) ?_ he
      change Build.bind _ _ = _
      simp only [Build.bind, hb]
      rfl
    | noted hd hs hb =>
      refine .noted (fun h => hd h.2) hs fun b l h => ?_
      obtain ⟨_, m, k, hx, hb', rfl⟩ := Build.bind_eq_ok h
      cases hx
      rw [Notes.append, hb b k hb', Bool.or_true]
  | fails hc hx he =>
    subst hx
    exact .fails (fun h => hc h.1) rfl he
  | noted hc hs hx =>
    refine .noted (fun h => hc h.1) hs fun b l h => ?_
    obtain ⟨a, m, k, ha, -, rfl⟩ := Build.bind_eq_ok h
    rw [Notes.append, hx a m ha, Bool.true_or]

theorem Meets.next (hx : Meets long silent x c P)
    (hf : ∀ a, P a → Meets long silent (f a) True Q) : Meets long silent (x >>= f) c Q :=
  (hx.bind hf).congr (and_true _).to_iff.symm

theorem Meets.map {g : α → β} (hx : Meets long silent x c P) (hg : ∀ a, P a → Q (g a)) :
    Meets long silent (g <$> x) c Q :=
  hx.next fun a ha => .pure (hg a ha)

@[simp] theorem Build.pure_bind (a : α) (f : α → Build β) : (Pure.pure a >>= f) = f a := by
  change Build.bind (.ok (a, {})) f = f a
  cases h : f a with
  | error e | ok r =>
    simp only [Build.bind, h]
    rfl

@[simp] theorem Build.map_pure (a : α) (g : α → β) : g <$> (Pure.pure a : Build α) = Pure.pure (g a) :=
  Build.pure_bind a _

end

theorem Notes.append_assoc (a b c : Notes) : (a.append b).append c = a.append (b.append c) := by
  simp [Notes.append, Bool.or_assoc]

theorem Notes.append_nothing (a : Notes) : a.append {} = a := by simp [Notes.append]

theorem Build.bind_pure {α : Type} (x : Build α) : (x >>= fun a => pure a) = x := by
  cases x with
  | error e => rfl
  | ok r => exact congrArg (fun n => Except.ok (r.1, n)) (Notes.append_nothing r.2)

theorem Build.bind_assoc {α β γ : Type} (x : Build α) (f : α → Build β) (g : β → Build γ) :
    x >>= f >>= g = x >>= fun a => f a >>= g := by
  change Build.bind (Build.bind x f) g = Build.bind x fun a => Build.bind (f a) g
  rcases x with e | ⟨a, n⟩
  · rfl
  · simp only [Build.bind]
    rcases f a with e | ⟨b, m⟩
    · rfl
    · dsimp only
      rcases g b with e | ⟨c, l⟩
      · rfl
      · exact congrArg (fun l => Except.ok (c, l)) (Notes.append_assoc n m l)

instance : LawfulMonad Build := .mk' Build Build.bind_pure Build.pure_bind Build.bind_assoc

/-! ### Products -/

def Product.atoms : Product → List Atom
  | expression e => e.atoms
  | statement s => s.atoms
  | nothing => []
  | importing _ => []
  | method m => stmtsAtoms m.body
  | name _ => []
  | parameter _ => []
  | parameters _ => []
  | names _ => []
  | updates es => exprsAtoms es
  | switchCase value statements => value.atoms ++ stmtsAtoms statements
  | handler c => c.atoms
  | argument a => a.atoms
  | arguments xs => argumentsAtoms xs
  | program u => u.atoms

/-- The product is of the category that nodes of the kind are converted to. -/
def gives (k : Kind) (p : Product) : Prop :=
  match k with
  | .compilationUnit => ∃ u, p = .program u
  | .importDirective => ∃ u, p = .importing u
  | .qualifiedName | .creationType => ∃ s, p = .name s
  | .methodDeclaration => ∃ m, p = .method m
  | .parameters => ∃ ps, p = .parameters ps
  | .parameter => ∃ q, p = .parameter q
  | .block | .finallyClause => ∃ ss, p = .statement (.block ss)
  | .emptyStatement => p = .nothing
  | .localDeclaration | .expressionStatement | .ifStatement | .whileStatement | .classicFor | .forIn
  | .forEach | .switchStatement | .tryStatement | .returnStatement | .breakStatement
  | .continueStatement | .throwStatement => ∃ s, p = .statement s
  | .forInit => (∃ d, p = .statement (.declaration d)) ∨ ∃ e, p = .expression e
  | .forUpdate => ∃ es, p = .updates es
  | .switchCase => ∃ value statements, p = .switchCase value statements
  | .catchClause => ∃ c, p = .handler c
  | .arguments => ∃ xs, p = .arguments xs
  | .namedArgument => ∃ a, p = .argument a
  | .closureParameters => ∃ ns, p = .names ns
  | _ => ∃ e, p = .expression e

/-! ### Children -/

def partOf (options : Options) : Tree → Part
  | .leaf l => ⟨⟨.compilationUnit, l.span, l.text⟩, [], product options (.leaf l)⟩
  | .node k children span text => ⟨⟨k, span, text⟩, children, product options (.node k children span text)⟩

def childOf (options : Options) : Tree → Child
  | .leaf l => .leaf l
  | .node k children span text => .part (partOf options (.node k children span text))

theorem prepared_eq_map (options : Options) (ts : List Tree) : prepared options ts = ts.map (childOf options) := by
  induction ts with
  | nil => rfl
  | cons t ts ih =>
    cases t with
    | leaf l => rw [prepared, ih, map_cons, childOf]
    | node k children span text => rw [prepared, ih, map_cons, childOf, partOf]

variable {ks : List Kind} {t : Tree} {k : Terminal}

theorem exists_node_of_admits (h : (kindsOf ks).admits t = true) :
    ∃ k children span text, t = .node k children span text ∧ k ∈ ks := by
  cases t with
  | leaf l => cases h
  | node k children span text => exact ⟨k, children, span, text, rfl, contains_iff_mem.mp h⟩

theorem exists_token_of_admits {ts : List Terminal} (h : (tokensOf ts).admits t = true) :
    ∃ l k, t = .leaf l ∧ k ∈ ts ∧ l.kind = .terminal k := by
  cases t with
  | node k children span text => cases h
  | leaf l =>
    obtain ⟨k, hk, hl⟩ := mem_map.mp (contains_iff_mem.mp h)
    exact ⟨l, k, rfl, hk, hl.symm⟩

theorem kind_mem_of_fits {pattern : List Item} {ts : List Tree} (hf : Fits pattern ts) {k : Kind}
    (ht : t ∈ ts) (hk : t.kind? = some k) : k ∈ pattern.flatMap (·.shape.kinds) := by
  have hwithin : ∀ i ∈ pattern, i.within ⟨pattern.flatMap (·.shape.kinds),
      pattern.flatMap (·.shape.tokens)⟩ = true := by
    intro i hi
    have hshape (s : Shape) : i.within s = i.shape.within s := by cases i <;> rfl
    refine (hshape _).trans (Bool.and_eq_true_iff.mpr ⟨?_, ?_⟩)
    · exact all_eq_true.mpr fun _ h => contains_iff_mem.mpr (mem_flatMap.mpr ⟨i, hi, h⟩)
    · exact all_eq_true.mpr fun _ h => contains_iff_mem.mpr (mem_flatMap.mpr ⟨i, hi, h⟩)
  have hadmits := admits_of_fits hf hwithin t ht
  cases t with
  | leaf => cases hk
  | node =>
    cases hk
    exact contains_iff_mem.mp hadmits

@[simp] theorem childOf_leaf (options : Options) (l : Leaf) : childOf options (.leaf l) = .leaf l := rfl

theorem childOf_of_admits (h : (kindsOf ks).admits t = true) (options : Options) :
    childOf options t = .part (partOf options t) := by
  obtain ⟨k, children, span, text, rfl, -⟩ := exists_node_of_admits h
  rfl

@[simp] theorem partsOf_nil : partsOf [] = [] := rfl

@[simp] theorem leavesOf_nil : leavesOf [] = [] := rfl

@[simp] theorem partsOf_leaf (l : Leaf) (cs : List Child) : partsOf (.leaf l :: cs) = partsOf cs := rfl

@[simp] theorem partsOf_part (p : Part) (cs : List Child) : partsOf (.part p :: cs) = p :: partsOf cs :=
  rfl

@[simp] theorem leavesOf_leaf (l : Leaf) (cs : List Child) : leavesOf (.leaf l :: cs) = l :: leavesOf cs := rfl

@[simp] theorem leavesOf_part (p : Part) (cs : List Child) : leavesOf (.part p :: cs) = leavesOf cs :=
  rfl

theorem leavesOf_children (options : Options) (ts : List Tree) :
    leavesOf (ts.map (childOf options)) = ts.filterMap Tree.leaf? := by
  induction ts with
  | nil => rfl
  | cons t ts ih =>
    cases t with
    | leaf l => rw [map_cons, childOf_leaf, leavesOf_leaf, ih, filterMap_cons, Tree.leaf?_leaf]
    | node => rw [map_cons, childOf, leavesOf_part, ih, filterMap_cons, Tree.leaf?]

theorem partsOf_children (options : Options) (ts : List Tree) :
    partsOf (ts.map (childOf options)) = (ts.filter isNode).map (partOf options) := by
  induction ts with
  | nil => rfl
  | cons t ts ih =>
    cases t with
    | leaf l => rw [map_cons, childOf_leaf, partsOf_leaf, ih, filter_cons_of_neg (by nofun)]
    | node => rw [map_cons, childOf, partsOf_part, ih, filter_cons_of_pos rfl, map_cons]

theorem leaf?_of_admits (h : (kindsOf ks).admits t = true) : t.leaf? = none := by
  obtain ⟨k, children, span, text, rfl, -⟩ := exists_node_of_admits h
  rfl

theorem children_of_admits {ts : List Tree} (h : ∀ t ∈ ts, (kindsOf ks).admits t = true)
    (options : Options) : ts.map (childOf options) = (ts.map (partOf options)).map .part := by
  rw [map_map]
  exact map_congr_left fun t ht => childOf_of_admits (h t ht) options

@[simp] theorem partsOf_append (a b : List Child) : partsOf (a ++ b) = partsOf a ++ partsOf b :=
  filterMap_append

@[simp] theorem leavesOf_append (a b : List Child) : leavesOf (a ++ b) = leavesOf a ++ leavesOf b :=
  filterMap_append

@[simp] theorem partsOf_parts (ps : List Part) : partsOf (ps.map .part) = ps := by
  induction ps with
  | nil => rfl
  | cons p ps ih => rw [map_cons, partsOf_part, ih]

@[simp] theorem leavesOf_parts (ps : List Part) : leavesOf (ps.map .part) = [] := by
  induction ps with
  | nil => rfl
  | cons p ps ih => rw [map_cons, leavesOf_part, ih]

theorem allAtoms_append (a b : List Tree) : allAtoms (a ++ b) = allAtoms a ++ allAtoms b := by
  induction a with
  | nil => rfl
  | cons t a ih => rw [cons_append, allAtoms, ih, allAtoms, append_assoc]

theorem exists_token_of_single (h : (tokensOf [k]).admits t = true) : ∃ l, t = .leaf l ∧ l.kind = .terminal k := by
  obtain ⟨l, k', rfl, hk, hl⟩ := exists_token_of_admits h
  obtain rfl := mem_singleton.mp hk
  exact ⟨l, rfl, hl⟩

theorem passes_token {silent : Bool} {l : Leaf} (hl : l.kind = .terminal k) (hk : k ≠ .integer) :
    ((Tree.leaf l).Passes silent) := by
  rw [passes_leaf]
  simp [overlong, hl, hk]

theorem passes_token_of_mem {silent : Bool} {l : Leaf} {ts : List Terminal} (hk : k ∈ ts)
    (hl : l.kind = .terminal k) (hts : .integer ∉ ts) : (Tree.leaf l).Passes silent :=
  passes_token hl fun h => hts (h ▸ hk)

/-! ### Nodes -/

/-- The node is converted as it should be. Entries of maps are left out: no construct takes them. -/
def Converts (options : Options) (long : Prop) (silent : Bool) : Tree → Prop
  | .leaf _ => True
  | .node k children span text => k ≠ .mapEntry →
    Meets long silent (product options (.node k children span text)) ((Tree.node k children span text).Passes silent)
      fun p => gives k p ∧ p.atoms = (Tree.node k children span text).atoms

/-- The nodes of the kind whose parts fit its pattern are converted as they should be if their parts are. -/
def ConvertsNode (options : Options) (long : Prop) (silent : Bool) (k : Kind) : Prop :=
  ∀ ⦃children : List Tree⦄ ⦃span : Span⦄ ⦃text : Chars⦄, Fits k.pattern children →
    (∀ t ∈ children, Formed t) → (∀ t ∈ children, Converts options long silent t) →
    Converts options long silent (.node k children span text)

section

variable {options : Options} {long : Prop} {silent : Bool} {t : Tree} {ts : List Tree}

theorem Converts.bind {α : Type} {f : Product → Build α} {d : Prop} {P : α → Prop}
    (h : Converts options long silent t) (hs : (kindsOf ks).admits t = true) (hks : .mapEntry ∉ ks)
    (hf : ∀ k ∈ ks, ∀ p, gives k p → p.atoms = t.atoms → Meets long silent (f p) d P) :
    Meets long silent ((partOf options t).result >>= f) ((t.Passes silent) ∧ d) P := by
  obtain ⟨k, children, span, text, rfl, hk⟩ := exists_node_of_admits hs
  exact (h fun heq => hks (heq ▸ hk)).bind fun p hp => hf k hk p hp.1 hp.2

theorem Converts.take {α : Type} {f : Product → Build α} {P : α → Prop}
    (h : Converts options long silent t) (hs : (kindsOf ks).admits t = true) (hks : .mapEntry ∉ ks)
    (hf : ∀ k ∈ ks, ∀ p, gives k p → p.atoms = t.atoms → Meets long silent (f p) True P) :
    Meets long silent ((partOf options t).result >>= f) (t.Passes silent) P :=
  (h.bind hs hks hf).congr (and_true _).to_iff.symm

theorem Converts.takeOne {α : Type} {f : Product → Build α} {P : α → Prop} {k : Kind}
    (h : Converts options long silent t) (hs : (kindsOf [k]).admits t = true) (hk : .mapEntry ∉ [k])
    (hf : ∀ p, gives k p → p.atoms = t.atoms → Meets long silent (f p) True P) :
    Meets long silent ((partOf options t).result >>= f) (t.Passes silent) P :=
  h.take hs hk fun _ hmem => mem_singleton.mp hmem ▸ hf

theorem Converts.expr (h : Converts options long silent t) (hs : expressionShape.admits t = true) :
    Meets long silent (partOf options t).expr (t.Passes silent) fun e => e.atoms = t.atoms := by
  refine h.take hs (by decide) fun k hk p hp hatoms => ?_
  obtain ⟨e, rfl⟩ : ∃ e, p = .expression e := by
    cases k <;> first | exact hp | exact absurd hk (by decide)
  exact .pure hatoms

theorem Converts.stmt? (h : Converts options long silent t) (hs : statementShape.admits t = true) :
    Meets long silent (partOf options t).stmt? (t.Passes silent) fun s => alternativeAtoms s = t.atoms := by
  refine h.take hs (by decide) fun k hk p hp hatoms => ?_
  have hp : (∃ s, p = .statement s) ∨ p = .nothing := by
    cases k <;> first | exact .inl hp | exact .inr hp | exact absurd hk (by decide) | skip
    obtain ⟨ss, rfl⟩ := hp
    exact .inl ⟨_, rfl⟩
  rcases hp with ⟨s, rfl⟩ | rfl
  · exact .pure (by rw [alternativeAtoms]; exact hatoms)
  · exact .pure (by rw [alternativeAtoms]; exact hatoms)

theorem Converts.body (h : Converts options long silent t) (hs : statementShape.admits t = true) :
    Meets long silent (partOf options t).body (t.Passes silent) fun s => s.atoms = t.atoms := by
  refine (h.stmt? hs).next fun s hatoms => .pure ?_
  cases s with
  | none =>
    rw [alternativeAtoms] at hatoms
    rw [← hatoms, Option.getD_none, Stmt.atoms, stmtsAtoms]
  | some s =>
    rw [alternativeAtoms] at hatoms
    exact hatoms

theorem Converts.blockStmts (h : Converts options long silent t)
    (hs : (kindsOf [.block, .finallyClause]).admits t = true) :
    Meets long silent (partOf options t).blockStmts (t.Passes silent) fun ss => stmtsAtoms ss = t.atoms := by
  have hstmt : Meets long silent (partOf options t).stmt? (t.Passes silent)
      fun s => ∃ ss, s = some (.block ss) ∧ stmtsAtoms ss = t.atoms := by
    refine h.take hs (by decide) fun k hk p hp hatoms => ?_
    obtain ⟨ss, rfl⟩ : ∃ ss, p = .statement (.block ss) := by
      cases k <;> first | exact hp | exact absurd hk (by decide)
    refine .pure ⟨ss, rfl, ?_⟩
    rw [← hatoms, Product.atoms, Stmt.atoms]
  refine hstmt.next ?_
  rintro _ ⟨ss, rfl, hatoms⟩
  exact .pure hatoms

theorem eachPart_meets {α : Type} {f : Part → Build α} {P : Tree → α → Prop}
    (h : ∀ t ∈ ts, Meets long silent (f (partOf options t)) (t.Passes silent) (P t)) :
    Meets long silent (eachPart f (ts.map (partOf options))) (∀ t ∈ ts, t.Passes silent) (List.Forall₂ P ts) := by
  induction ts with
  | nil => exact (Meets.pure .nil).congr (by simp)
  | cons t ts ih =>
    have hrest := ih fun t ht => h t (mem_cons_of_mem _ ht)
    refine ((h t mem_cons_self).bind fun a ha => hrest.next fun as has =>
      .pure (.cons ha has)).congr ?_
    simp only [forall_mem_cons]

theorem exprsOf_meets (h : ∀ t ∈ ts, Converts options long silent t) (hs : ∀ t ∈ ts, expressionShape.admits t = true) :
    Meets long silent (exprsOf (ts.map (partOf options))) (∀ t ∈ ts, t.Passes silent)
      fun es => exprsAtoms es = allAtoms ts := by
  refine (eachPart_meets fun t ht => (h t ht).expr (hs t ht)).mono fun es hes => ?_
  clear h hs
  induction hes with
  | nil => rfl
  | cons he _ ih => rw [exprsAtoms, allAtoms, he, ih]

theorem stmtsOf_meets (h : ∀ t ∈ ts, Converts options long silent t) (hs : ∀ t ∈ ts, statementShape.admits t = true) :
    Meets long silent (stmtsOf (ts.map (partOf options))) (∀ t ∈ ts, t.Passes silent)
      fun ss => stmtsAtoms ss = allAtoms ts := by
  refine (eachPart_meets fun t ht => (h t ht).stmt? (hs t ht)).next fun ss hss => .pure ?_
  clear h hs
  induction hss with
  | nil => rfl
  | @cons t s _ _ hfirst _ ih =>
    cases s with
    | none =>
      rw [alternativeAtoms] at hfirst
      rw [allAtoms, ← hfirst, ← ih]
      rfl
    | some s =>
      rw [alternativeAtoms] at hfirst
      rw [allAtoms, ← hfirst, ← ih]
      exact stmtsAtoms.eq_2 _ _

end

end Conversion

end GroovySharp
