import GroovySharp.Proofs.Reread
import GroovySharp.Proofs.Rescan

/-!
# Normalizing twice

A normalized text is accepted again.
-/

namespace GroovySharp.Source

open Text List LineRule

namespace Line

variable {l : Line}

theorem edited_eq_self_iff (l : Line) (e : Edit) : l.edited e = l ↔ e.apply l = l.text := by
  constructor
  · intro h
    rw [← text_edited, h]
  · intro h
    refine (l.gains_edited e).eq_of_text ?_
    rw [text_edited, h]

variable {s s' : ScanState}

theorem getLast?_core_of_semicolon {n : Nat} (h : Scans n s l.text l.cells s')
    (hs : s'.inString = false) {c : Cell} (hc : l.codeCells.getLast? = some c) (hchar : c.char = ';') :
    l.core.getLast? = some ';' := by
  have hmark := mark_of_semicolon h hs hc hchar
  rw [getLast?_core h.wellMarked hc]
  simp [Cell.masked, hmark, hchar]

theorem endsOpen_of_terminated {n : Nat} (h : Scans n s l.text l.cells s')
    (hs : s'.inString = false) (hne : l.codeEnd ≠ 0) (htext : Edit.terminate.apply l = l.text) :
    endsOpen l.core = true := by
  have hended : l.ended = l := (l.edited_eq_self_iff .terminate).mpr htext
  obtain ⟨c, hc, hchar⟩ := getLast?_ended hne
  rw [hended] at hc
  obtain ⟨x, hx⟩ := getLast?_eq_some_iff.mp (getLast?_core_of_semicolon h hs hc hchar)
  have hsuppress : endsWithAny suppressingEnds l.core = true := by
    refine any_eq_true.mpr ⟨[';'], by decide, ?_⟩
    rw [hx, isSuffixOf_append_singleton]
    rfl
  rw [endsOpen, hsuppress, Bool.or_true]

theorem reended_edited {e : Edit} (hw : WellMarked l.cells)
    (h : (l.edited e).ScansFrom s s') (hs : s'.inString = false) (hne : e.apply l ≠ l.text) :
    LineRule.Reended l e (l.edited e) := by
  have hchanged : l.edited e ≠ l := fun heq => hne ((l.edited_eq_self_iff e).mp heq)
  obtain ⟨c, hc, hchar⟩ := getLast?_edited hchanged
  have hmark := mark_of_semicolon h.scans hs hc hchar
  refine ⟨?_, ?_, ?_, l.endsInString_edited e, not_blank_after_close hc hmark,
    (l.gains_edited e).punctuated hw, getLast?_core_of_semicolon h.scans hs hc hchar,
    apply_terminate_of_semicolon hc hchar, apply_shapeEdit_edited hw hchanged⟩
  · refine not_isBlank_of_mem (c := ';') ?_ (by decide)
    have hmem : c ∈ (l.edited e).cells := mem_of_mem_take (mem_of_getLast? hc)
    exact mem_map.mpr ⟨c, hmem, hchar⟩
  · rw [isStringBody_edited]
    exact id
  · rw [Ne, codeEnd_eq_zero_iff, hc]
    exact Option.some_ne_none c

end Line

/-! ### One line -/

variable {edits : Edits} {scan scan' : ScanState} {k : List Nat} {lines : List Line}

theorem rereads_line {s s' absorbed decided : Nesting} {l : Line}
    {rest rest' : List Line} {rule : LineRule} {edit : Edit} (h : Mirrors k s s')
    (hl : l.ScansFrom scan scan') (habsorb : s.absorb l = .ok absorbed)
    (hdecide : LineRule.decide (contextOf s absorbed l rest) LineRule.all absorbed = (rule, edit, decided))
    (hnext : startsChain (nextCore rest') = startsChain (nextCore rest)) :
    ∃ absorbed' rule' edit' decided', s'.absorb (l.edited edit) = .ok absorbed' ∧
      LineRule.decide (contextOf s' absorbed' (l.edited edit) rest') LineRule.all absorbed' = (rule', edit', decided') ∧
      LineRule.Rereads (contextOf s absorbed l rest) absorbed rule edit decided k (l.edited edit) edit' decided' := by
  obtain ⟨absorbed', habsorb', hmirrors⟩ := h.absorb habsorb
  have hcontext := h.contextOf_eq hmirrors l (l.edited edit) rest rest'
  rw [Line.absorb_edited]
  refine ⟨absorbed', ?_⟩
  rw [hcontext]
  by_cases htext : edit.apply l = l.text
  · have hsame : l.edited edit = l := (l.edited_eq_self_iff edit).mpr htext
    have hended : l.codeEnd ≠ 0 → l.endsInString = false → Edit.terminate.apply l = l.text →
        endsOpen l.core = true := by
      intro hne hstring hterm
      exact Line.endsOpen_of_terminated hl.scans (hl.ends ▸ hstring) hne hterm
    obtain ⟨rule', edit', decided', hdecide', hrereads⟩ :=
      rereads_unchanged (nextCore rest') hmirrors hnext rfl htext rfl hended hdecide
    rw [hsame]
    exact ⟨rule', edit', decided', habsorb', hdecide', hrereads⟩
  · have hkeep : edit ≠ .keep := by
      rintro rfl
      exact htext rfl
    obtain ⟨s₁, -, hends⟩ := endsLine_of_ne_keep hkeep hdecide
    have hstring : l.endsInString = false := hends.no_string
    have hscan : (l.edited edit).ScansFrom scan scan' :=
      hl.edited fun hin => absurd (hin.symm.trans hstring) (by decide)
    have hreended := Line.reended_edited hl.scans.wellMarked hscan (hl.ends ▸ hstring) htext
    obtain ⟨rule', edit', decided', hdecide', hrereads⟩ :=
      rereads_changed (nextCore rest') hmirrors hnext rfl rfl htext hreended hdecide
    exact ⟨rule', edit', decided', habsorb', hdecide', hrereads⟩

/-! ### Whole texts -/

/-- No line is disturbed by a second reading that remembers the given blocks in closures at the start. -/
def undisturbed (skips : List Nat) (s : Nesting) : List Line → Bool
  | [] => true
  | l :: rest =>
    match s.absorb l with
    | .error _ => false
    | .ok absorbed =>
      let ctx := contextOf s absorbed l rest
      let (rule, edit, decided) := LineRule.decide ctx LineRule.all absorbed
      !LineRule.disturbed ctx absorbed rule edit skips &&
        undisturbed (stillRemembered ctx absorbed rule edit skips) decided.settle rest

theorem undisturbed_cons {s absorbed decided : Nesting} {l : Line} {rest : List Line}
    {rule : LineRule} {edit : Edit} (habsorb : s.absorb l = .ok absorbed)
    (hdecide : LineRule.decide (contextOf s absorbed l rest) LineRule.all absorbed = (rule, edit, decided)) :
    undisturbed k s (l :: rest) = (!LineRule.disturbed (contextOf s absorbed l rest) absorbed rule edit k &&
        undisturbed (stillRemembered (contextOf s absorbed l rest) absorbed rule edit k) decided.settle rest) := by
  simp only [undisturbed, habsorb, hdecide]

theorem Settles.again {n : Nat} {s last : Nesting} (h : Settles s lines edits last)
    (hscan : Scanned n scan lines scan') {s' : Nesting} (hm : Mirrors k s s') :
    ∃ edits' last' k', Settles s' (editedLines lines edits) edits' last' ∧ Mirrors k' last last' ∧
      (editedLines (editedLines lines edits) edits' = editedLines lines edits ↔ undisturbed k s lines = true) := by
  induction h generalizing n scan k s' with
  | nil => exact ⟨[], s', k, .nil, hm, by simp [editedLines, undisturbed]⟩
  | @cons s absorbed decided last l rest rule edit edits habsorb hdecide hrest ih =>
    cases hscan with
    | @cons _ scan₁ _ _ _ hl hlines =>
      have hnext : startsChain (nextCore (editedLines rest edits)) = startsChain (nextCore rest) :=
        startsChain_nextCore_edited hrest.length_eq hlines.wellMarked
      obtain ⟨absorbed', rule', edit', decided', habsorb', hdecide', hrereads⟩ :=
        rereads_line hm hl habsorb hdecide hnext
      obtain ⟨edits', last', k', hsettles, hlast, hiff⟩ := ih hlines hrereads.state
      refine ⟨(rule', edit') :: edits', last', k', .cons habsorb' hdecide' hsettles, hlast, ?_⟩
      rw [undisturbed_cons habsorb hdecide, editedLines_cons, editedLines_cons, cons.injEq, hiff,
        Line.edited_eq_self_iff, hrereads.text]
      simp

theorem joinBodies_edited_eq_iff
    (hproper : ProperLines (lines.map Line.source)) (hlen : edits.length = lines.length) :
    joinBodies ((editedLines lines edits).map Line.source) = joinBodies (lines.map Line.source) ↔
      editedLines lines edits = lines := by
  constructor
  · intro hjoin
    have hsplit := congrArg splitLines hjoin
    rw [splitLines_joinBodies _ (properLines_edited hproper edits), splitLines_joinBodies _ hproper] at hsplit
    clear hjoin hproper
    induction lines generalizing edits with
    | nil => rfl
    | cons l lines ih =>
      cases edits with
      | nil => cases hlen
      | cons d edits =>
        rw [editedLines_cons, map_cons, map_cons, cons.injEq] at hsplit
        have htext : (l.edited d.2).text = l.text := (Prod.mk.inj hsplit.1).1
        rw [editedLines_cons, (l.gains_edited d.2).eq_of_text htext, ih (by simpa using hlen) hsplit.2]
  · intro h
    rw [h]

/-- A normalized text is accepted again, and normalizing it changes nothing exactly if no line of the
text it comes from is disturbed. -/
theorem normalize_idempotent_iff {t u : Chars} (h : normalize t = .ok u) : (∃ u', normalize u = .ok u') ∧
      (normalize u = .ok u ↔ ∃ lines scan, scanLines t = .ok (lines, scan) ∧ undisturbed [] {} lines = true) := by
  obtain ⟨lines, scan, edits, last, hscan, hsettles, hopen, rfl⟩ := normalize_eq_ok_iff.mp h
  have hscan' := scanLines_edited hscan hsettles
  have hstart : Mirrors [] {} {} := ⟨rfl, rfl, rfl, rfl, rfl, id⟩
  obtain ⟨edits', last', k', hagain, hlast, hiff⟩ :=
    hsettles.again (scanLines_eq_ok_iff.mp hscan).1 hstart
  have hopen' : openConstruct? scan last' = none := by
    have hsame : openConstruct? scan last' = openConstruct? scan last := by
      simp only [openConstruct?, Nesting.lines, hlast.opened, hlast.closures]
    rw [hsame, hopen]
  have hnormal := normalize_eq_ok_iff.mpr ⟨editedLines lines edits, scan, edits', last', hscan', hagain, hopen', rfl⟩
  have hproper : ProperLines ((editedLines lines edits).map Line.source) := by
    have hlines := (scanLines_eq_ok_iff.mp hscan).2
    exact properLines_edited (hlines ▸ properLines_splitLines t) edits
  refine ⟨⟨_, hnormal⟩, ?_⟩
  rw [hnormal, Except.ok.injEq, joinBodies_edited_eq_iff hproper hagain.length_eq, hiff]
  constructor
  · intro hrest
    exact ⟨lines, scan, hscan, hrest⟩
  · rintro ⟨lines', scan', hlines', hrest⟩
    rw [hscan] at hlines'
    cases hlines'
    exact hrest

def closureWithChain : Chars := "x.each \x7b y ->\ny \x7b z \x7d\na\n.b()\n\x7d\n".toList

def closureWithChainEnded : Chars := "x.each \x7b y ->\ny \x7b z; \x7d;\na\n.b();\n\x7d;\n".toList

theorem normalize_idempotent_closure :
    normalize closureWithChain = .ok closureWithChainEnded ∧
      (∃ lines scan, scanLines closureWithChain =
        .ok (lines, scan) ∧ undisturbed [] {} lines = true) ∧
      normalize closureWithChainEnded = .ok closureWithChainEnded := by
  have h : normalize closureWithChain = .ok closureWithChainEnded :=
    normalize_eq_ok_of_toOption (by decide +kernel)
  have hrest : ∃ lines scan, scanLines closureWithChain =
      .ok (lines, scan) ∧ undisturbed [] {} lines = true := by
    have hcheck : (scanLines closureWithChain).toOption.any
        (fun p => undisturbed [] {} p.1) = true := by decide +kernel
    obtain ⟨p, hp, hcheck⟩ := exists_of_toOption_any hcheck
    exact ⟨p.1, p.2, hp, hcheck⟩
  exact ⟨h, hrest, (normalize_idempotent_iff h).2.mpr hrest⟩

/-- A block as the last argument of a call is ended on the second reading only. -/
theorem normalize_block_argument_twice :
    normalize "foo(\x7b b \x7d)\n".toList = .ok "foo(\x7b b \x7d);\n".toList ∧
      normalize "foo(\x7b b \x7d);\n".toList = .ok "foo(\x7b b; \x7d);\n".toList :=
  ⟨normalize_eq_ok_of_toOption (by decide +kernel), normalize_eq_ok_of_toOption (by decide +kernel)⟩

end GroovySharp.Source
