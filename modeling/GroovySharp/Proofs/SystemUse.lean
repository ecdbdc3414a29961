import GroovySharp.Proofs.ConversionOutcome

/-!
# Use of the `System` namespace

The imports of a converted program are those of its tree.
-/

namespace GroovySharp

open CSharp Grammar Text Conversion List

namespace Tree

def needsSystem (t : Tree) : Bool := t.subtrees.any usesSystem

/-- The import that a node stands for: of a namespace with a wildcard, else of a type under its last
name. -/
def import? : Tree → Option Using
  | node .importDirective (node .qualifiedName names _ _ :: rest) _ _ =>
    let name := dottedName (names.filterMap leaf?)
    some (if rest.isEmpty then { name, «alias» := some (lastSegment name) } else { name })
  | _ => none

def imports : Tree → List Using
  | leaf _ => []
  | node _ children _ _ => children.filterMap import?

theorem passes_true {t : Tree} : t.Passes true ↔ t.Convertible ∧ t.needsSystem = false := by
  simp only [Passes, Convertible, needsSystem, refused, Bool.and_true, Bool.or_eq_false_iff,
    any_eq_false, Bool.not_eq_true]
  exact ⟨fun h => ⟨fun n hn => ⟨(h n hn).1.1, (h n hn).2⟩, fun n hn => (h n hn).1.2⟩,
    fun h n hn => ⟨⟨(h.1 n hn).1, h.2 n hn⟩, (h.1 n hn).2⟩⟩

end Tree

namespace Conversion

variable {keep a b : Bool} {options : Options} {t : Tree} {ts : List Tree}

/-! ### Options that do not matter -/

theorem assemble_congr {site : Site} (hk : site.kind ≠ .compilationUnit) (cs : List Child) :
    assemble ⟨keep, a⟩ site cs = assemble ⟨keep, b⟩ site cs := by
  obtain ⟨k, span, text⟩ := site
  cases k <;> first | exact absurd rfl hk | rfl

theorem childOf_congr (hf : Formed t) (hk : t.kind? ≠ some .compilationUnit) :
    childOf ⟨keep, a⟩ t = childOf ⟨keep, b⟩ t := by
  induction hf with
  | leaf => rfl
  | @node k children span text pattern hp hfits hform ih =>
    have hinner : ∀ k : Kind, ∀ p ∈ k.patterns, .compilationUnit ∉ p.flatMap (·.shape.kinds) := by
      intro k
      cases k <;> decide
    have hchildren : children.map (childOf ⟨keep, a⟩) = children.map (childOf ⟨keep, b⟩) :=
      map_congr_left fun c hc => ih c hc fun hunit => hinner k _ hp (kind_mem_of_fits hfits hc hunit)
    rw [childOf, childOf, partOf, partOf, product_node, product_node, hchildren,
      assemble_congr (b := b) fun h => hk (congrArg some h)]

/-! ### Imports -/

theorem product_importDirective (options : Options) {children : List Tree} {span : Span} {text : Chars}
    (hf : Fits (Kind.pattern .importDirective) children) :
    ∃ u, product options (.node .importDirective children span text) = pure (.importing u) ∧
      Tree.import? (.node .importDirective children span text) = some u := by
  obtain ⟨q, _, rfl, hq, hf⟩ := hf
  obtain ⟨o, _, rfl, ho, rfl⟩ := exists_option_of_fits hf
  obtain ⟨k, names, span', text', rfl, hk⟩ := exists_node_of_admits hq
  obtain rfl := mem_singleton.mp hk
  have hname : product options (.node .qualifiedName names span' text') =
      pure (.name (dottedName (names.filterMap Tree.leaf?))) := by
    rw [product_node, ← leavesOf_children options]
    rfl
  refine ⟨_, ?_, rfl⟩
  rw [product_node]
  cases o with
  | none => simp [assemble, importDirective, childOf, partOf, nthPart, required, hname, hasLeaf, firstLeaf?]
  | some w =>
    obtain ⟨l, rfl, hl⟩ := exists_token_of_single (ho w rfl)
    simp [assemble, importDirective, childOf, partOf, nthPart, required, hname, hasLeaf, firstLeaf?, hl]

theorem programParts_usings (hf : ∀ t ∈ ts, Formed t) (hs : ∀ t ∈ ts, unitShape.admits t = true)
    {r : List Using × List Member} {n : Notes} (h : programParts (ts.map (partOf options)) = .ok (r, n)) :
    r.1 = ts.filterMap Tree.import? := by
  induction ts generalizing r n with
  | nil =>
    cases h
    rfl
  | cons t ts ih =>
    simp only [forall_mem_cons] at hf hs
    rw [map_cons, programParts] at h
    obtain ⟨p, m, l, hp, hrest, -⟩ := Build.bind_eq_ok h
    have hlater {g : List Using × List Member → List Using × List Member}
        (hr : (programParts (ts.map (partOf options)) >>= fun r' => pure (g r')) = .ok (r, l)) :
        ∃ r', r = g r' ∧ r'.1 = ts.filterMap Tree.import? := by
      obtain ⟨r', k, _, hr', hpure, -⟩ := Build.bind_eq_ok hr
      cases hpure
      exact ⟨r', rfl, ih hf.2 hs.2 hr'⟩
    obtain ⟨k, children, span, text, rfl, hk⟩ := exists_node_of_admits hs.1
    by_cases himport : k = .importDirective
    · subst himport
      cases hf.1 with
      | node hpattern hfits =>
        obtain rfl := mem_singleton.mp hpattern
        obtain ⟨u, hu, hnode⟩ := product_importDirective options hfits
        cases hu.symm.trans hp
        obtain ⟨r', rfl, hr'⟩ := hlater (g := fun r' => (u :: r'.1, r'.2)) hrest
        rw [filterMap_cons_some hnode, hr']
    · have hnode : (Tree.node k children span text).import? = none := by
        unfold Tree.import?
        split
        · next h => cases h; exact absurd rfl himport
        · rfl
      rw [filterMap_cons_none hnode]
      have hgives := (gives_of_product hf.1 (fun h => by subst h; exact absurd hk (by decide)) hp).1
      have hcategory : p = .nothing ∨ (∃ m, p = .method m) ∨ ∃ s, p = .statement s := by
        cases k <;> first
          | exact .inl hgives | exact .inr (.inl hgives) | exact .inr (.inr hgives)
          | exact absurd rfl himport | exact absurd hk (by decide) | skip
        obtain ⟨ss, rfl⟩ := hgives
        exact .inr (.inr ⟨_, rfl⟩)
      rcases hcategory with rfl | ⟨m, rfl⟩ | ⟨s, rfl⟩
      · exact ih hf.2 hs.2 hrest
      · obtain ⟨r', rfl, hr'⟩ := hlater (g := fun r' => (r'.1, .method m :: r'.2)) hrest
        exact hr'
      · obtain ⟨r', rfl, hr'⟩ := hlater (g := fun r' => (r'.1, .statement s :: r'.2)) hrest
        exact hr'

theorem any_isSystemUsing (us : List Using) : us.any isSystemUsing = true ↔ { name := "System" } ∈ us := by
  have hsystem : ∀ u : Using, isSystemUsing u = true ↔ u = { name := "System" } := by
    rintro ⟨name, renamed⟩
    simp [isSystemUsing]
  simp only [any_eq_true, hsystem, exists_eq_right]

/-! ### Programs -/

theorem programParts_of_read {source : Chars} {r : CompilationUnit × List Warning}
    (h : Program.read source = .ok t) (hc : convert ⟨keep, true⟩ t = .ok r) :
    ∃ children span text ms n, t = .node .compilationUnit children span text ∧ n.needsSystem = t.needsSystem ∧
      ∀ a, programParts (partsOf (prepared ⟨keep, a⟩ children)) = .ok ((t.imports, ms), n) := by
  obtain ⟨children, span, text, rfl, hf, hform, hmeets⟩ :=
    compilationUnit_of_read ⟨keep, true⟩ True true h fun _ _ _ _ => trivial
  have houtcome := convert_outcome ⟨keep, true⟩ True h fun _ _ _ _ => trivial
  obtain ⟨ts, _, rfl, hts, rfl⟩ := hf
  rw [append_nil] at hc hform hmeets houtcome ⊢
  have hprepared (a : Bool) : partsOf (prepared ⟨keep, a⟩ ts) = ts.map (partOf ⟨keep, true⟩) := by
    rw [prepared_eq_map, map_congr_left (g := childOf ⟨keep, true⟩), children_of_admits hts, partsOf_parts]
    refine fun t ht => childOf_congr (hform t ht) fun hunit => ?_
    obtain ⟨k, _, _, _, rfl, hk⟩ := exists_node_of_admits (hts t ht)
    cases hunit
    exact absurd hk (by decide)
  simp only [convert, if_true, compilationUnit, hprepared] at hc hmeets houtcome ⊢
  cases hparts : programParts (ts.map (partOf ⟨keep, true⟩)) with
  | error f =>
    rw [hparts] at hc
    cases hc
  | ok result =>
    obtain ⟨⟨us, ms⟩, n⟩ := result
    rw [hparts] at hmeets houtcome
    obtain rfl : us = _ := programParts_usings hform hts hparts
    refine ⟨ts, span, text, ms, n, rfl, ?_, fun a => by rw [hprepared, hparts]; rfl⟩
    obtain ⟨hgood, -⟩ := houtcome.resolve_right (by rintro ⟨-, f, hf, -⟩; cases hf)
    cases hmeets with
    | gives hp hx hn =>
      cases hx
      rw [hn rfl, (Tree.passes_true.mp hp).2]
    | fails _ hx => cases hx
    | noted hp _ hx =>
      rw [hx _ _ rfl]
      simpa [Tree.passes_true, hgood] using hp

/-- The imports of a program are its own, after `System` exactly if it is used, allowed and not among
them. Whether it is allowed has no other effect. -/
theorem usings_of_convert {source : Chars} {unit : CompilationUnit} {warnings : List Warning}
    (h : Program.read source = .ok t) (hc : convert ⟨keep, true⟩ t = .ok (unit, warnings)) : unit.usings =
        (if t.needsSystem = true ∧ { name := "System" } ∉ t.imports then { name := "System" } :: t.imports
          else t.imports) ∧
      convert ⟨keep, false⟩ t = .ok ({ usings := t.imports, members := unit.members }, warnings) := by
  obtain ⟨children, span, text, ms, n, rfl, hneeds, hparts⟩ := programParts_of_read h hc
  simp only [convert, if_true, compilationUnit, hparts, hneeds, withSystem] at hc ⊢
  obtain ⟨rfl, rfl⟩ := Prod.mk.inj (Except.ok.inj hc)
  refine ⟨?_, by simp⟩
  simp only [Bool.and_true, Bool.and_eq_true, Bool.not_eq_true', ← Bool.not_eq_true, any_isSystemUsing]

theorem usings_of_convert_hole : ∃ t unit warnings,
      Program.read "import a.*; import b.C; x = f \x7b \"$\x7bprint(1)\x7d\" \x7d;".toList = .ok t ∧
      convert ⟨false, true⟩ t = .ok (unit, warnings) ∧ t.needsSystem = true ∧
      unit.usings = [{ name := "System" }, { name := "a" }, { name := "b.C", «alias» := some "C" }] ∧
      convert ⟨false, false⟩ t =
        .ok (⟨[{ name := "a" }, { name := "b.C", «alias» := some "C" }], unit.members⟩, warnings) := by
  obtain ⟨t, ht, hp⟩ := Source.exists_of_toOption_any
    (x := Program.read "import a.*; import b.C; x = f \x7b \"$\x7bprint(1)\x7d\" \x7d;".toList)
    (p := fun t => (convert ⟨false, true⟩ t).toOption.isSome && t.needsSystem &&
      t.imports == [{ name := "a" }, { name := "b.C", «alias» := some "C" }])
    (by decide +kernel)
  simp only [Bool.and_eq_true, beq_iff_eq] at hp
  obtain ⟨⟨hsome, hneeds⟩, himports⟩ := hp
  cases hc : convert ⟨false, true⟩ t with
  | error f =>
    rw [hc] at hsome
    cases hsome
  | ok r =>
    obtain ⟨husings, hoff⟩ := usings_of_convert ht hc
    rw [himports, hneeds, if_pos (by decide)] at husings
    exact ⟨t, r.1, r.2, ht, hc, hneeds, husings, himports ▸ hoff⟩

end Conversion

end GroovySharp
