import GroovySharp.Proofs.Lexeme
import GroovySharp.Proofs.Rescan

/-!
# Triple-quoted strings of a normalized text

The line scanner and the tokens find the end of a triple-quoted string in different ways: the scanner
steps over what a backslash escapes, the token stops at the first three quotes.
-/

namespace GroovySharp.Source

open Grammar List

/-! ### The marks of a whole text -/

def Line.marked (l : Line) : List Cell :=
  l.cells ++ l.ending.chars.map (⟨·, if l.endsInString then .content else .code⟩)

def markedText (lines : List Line) : List Cell := lines.flatMap Line.marked

/-- The cells are a triple-quoted string: three quotes that open it, content, three that close it. -/
structure TripleRegion (opening body closing : List Cell) : Prop where
  opens : opening.map (·.mark) = [.quote, .quote, .quote]
  content : ∀ c ∈ body, c.mark = .content
  closes : closing.map (·.mark) = [.close, .close, .close]

def Quote.three (q : Quote) (m : Mark) : List Cell := [⟨q.char, m⟩, ⟨q.char, m⟩, ⟨q.char, m⟩]

theorem Quote.mark_of_mem_three {q : Quote} {m : Mark} {c : Cell} (h : c ∈ q.three m) : c.mark = m := by
  simp only [Quote.three, mem_cons, not_mem_nil, or_false, or_self] at h
  rw [h]

def Mode.quote? : Mode → Option Quote
  | .triple q => some q
  | _ => none

/-- The scanner marks the rest of a text this way, inside the given triple-quoted string or outside of
all. -/
inductive Marked : Option Quote → List Cell → Prop
  | done {q? : Option Quote} : Marked q? []
  | outside {c : Cell} {cells : List Cell} (hc : c.mark ≠ .close) (h : Marked none cells) :
    Marked none (c :: cells)
  | opens {q : Quote} {cells : List Cell} (h : Marked (some q) cells) :
    Marked none (q.three .quote ++ cells)
  | escape {q : Quote} {d : Char} {cells : List Cell} (h : Marked (some q) cells) :
    Marked (some q) (⟨'\\', .content⟩ :: ⟨d, .content⟩ :: cells)
  | inside {q : Quote} {c : Char} {cells : List Cell} (hesc : c = '\\' → cells = [])
    (hend : ¬[q.char, q.char, q.char] <+: c :: cells.map (·.char)) (h : Marked (some q) cells) :
    Marked (some q) (⟨c, .content⟩ :: cells)
  | closes {q : Quote} {cells : List Cell} (h : Marked none cells) :
    Marked (some q) (q.three .close ++ cells)

variable {q c : Char} {n : Nat} {s : ScanState} {cells : List Cell}

theorem Scans.cells_eq_nil {s' : ScanState} (h : Scans n s [] cells s') : cells = [] := by
  have hchar := h.map_char
  exact map_eq_nil_iff.mp hchar

/-- What follows a line is marked when its cells are in front, unless its characters go on a close. -/
theorem Scans.marked {s' : ScanState} {cs : Chars} {tail : List Cell}
    (h : Scans n s cs cells s') (htail : Marked s'.mode.quote? tail)
    (hhead : ∀ c ∈ tail.head?, c.char ≠ '\\' ∧ c.mark ≠ .close ∧ ∀ q : Quote, c.char ≠ q.char) :
    Marked s.mode.quote? (cells ++ tail) := by
  induction h with
  | lineCommentDone hs =>
    rw [hs]
    exact htail
  | done => exact htail
  | @step s s₁ s' w rest m cells ht hr ih =>
    have hmore := ih htail
    cases ht with
    | inLineComment hs | inBlockComment hs _ | inOneLine hs _ _ | plain hs _ _ =>
      rw [hs] at hmore ⊢
      exact .outside (by simp) hmore
    | blockCommentEnd hs | lineCommentStart hs | blockCommentStart hs =>
      rw [hs]
      exact .outside (by simp) (.outside (by simp) hmore)
    | tripleEscape hs =>
      rw [hs] at hmore ⊢
      exact .escape hmore
    | tripleEnd hs =>
      rw [hs]
      exact .closes hmore
    | @inTriple q c _ hs hesc hend =>
      rw [hs] at hmore ⊢
      by_cases hc : c = '\\'
      · -- a backslash at the end of the line goes with the ending
        obtain rfl := hesc hc
        obtain rfl := hr.cells_eq_nil
        subst hc
        rw [nil_append] at hmore
        cases hmore with
        | done => exact .inside (fun _ => rfl) (by simp [cons_prefix_cons]) .done
        | escape _ => exact absurd rfl (hhead _ rfl).1
        | inside _ _ h => exact .escape h
        | closes _ => exact absurd rfl (hhead _ rfl).2.1
      · refine .inside (fun h => absurd h hc) ?_ hmore
        have hchars : (cells ++ tail).map (·.char) = rest ++ tail.map (·.char) := by rw [map_append, hr.map_char]
        change ¬_ <+: c :: (cells ++ tail).map (·.char)
        rw [hchars, ← cons_append]
        refine fun hclose => hend (Text.prefix_of_prefix_append ?_ hclose)
        cases tail with
        | nil => simp
        | cons d tail => simpa [replicate, eq_comm] using (hhead d rfl).2.2 q
    | oneLineEscape hs =>
      rw [hs] at hmore ⊢
      exact .outside (by simp) (.outside (by simp) hmore)
    | oneLineEnd hs | oneLineStart hs _ =>
      rw [hs]
      exact .outside (by simp) hmore
    | tripleStart hs =>
      rw [hs]
      exact .opens hmore

theorem Ending.plain {e : Ending} (hc : c ∈ e.chars) : c ≠ '\\' ∧ ∀ q : Quote, c ≠ q.char := by
  cases e with
  | none => cases hc
  | lf =>
    obtain rfl := mem_singleton.mp hc
    exact ⟨by decide, fun q => by cases q <;> decide⟩
  | crlf =>
    rcases mem_pair.mp hc with rfl | rfl <;> exact ⟨by decide, fun q => by cases q <;> decide⟩

theorem Marked.ending (h : Marked s.mode.quote? cells) {cs : Chars}
    (hcs : ∀ c ∈ cs, c ≠ '\\' ∧ ∀ q : Quote, c ≠ q.char) :
    Marked s.mode.quote? (cs.map (⟨·, if s.inString then .content else .code⟩) ++ cells) := by
  induction cs with
  | nil => exact h
  | cons c cs ih =>
    have hmore := ih fun d hd => hcs d (mem_cons_of_mem _ hd)
    obtain ⟨hesc, hquote⟩ := hcs c mem_cons_self
    rw [map_cons, cons_append]
    cases hs : s.mode with
    | triple q =>
      have hin : s.inString = true := by rw [ScanState.inString, hs]
      rw [hs, hin] at hmore
      rw [hin]
      refine .inside (fun hc => absurd hc hesc) ?_ hmore
      intro hclose
      exact hquote q (cons_prefix_cons.mp hclose).1.symm
    | _ =>
      rw [hs] at hmore
      exact .outside (by simp [ScanState.inString, hs]) hmore

theorem Scanned.marked {last : ScanState} {lines : List Line} (h : Scanned n s lines last)
    (hproper : ProperLines (lines.map Line.source)) : Marked s.mode.quote? (markedText lines) := by
  induction h with
  | nil => exact .done
  | @cons s s' last l lines hl _ ih =>
    obtain ⟨hstands, hrest⟩ := hproper
    have hmore := (ih hrest).ending fun c (hc : c ∈ l.ending.chars) => Ending.plain hc
    rw [← hl.ends] at hmore
    rw [markedText, flatMap_cons, Line.marked, append_assoc]
    refine hl.scans.marked hmore ?_
    intro c hc
    cases hchars : l.ending.chars with
    | nil =>
      -- only the last line has no ending, so nothing is left
      have hnone : l.ending = .none := by
        cases he : l.ending <;> simp [he, Ending.chars] at hchars ⊢
      have hlines : lines = [] := map_eq_nil_iff.mp (hstands.last hnone).1
      simp [hchars, hlines] at hc
    | cons d ds =>
      have hd : d ∈ l.ending.chars := by simp [hchars]
      simp only [hchars, map_cons, cons_append, head?_cons, Option.mem_def, Option.some.injEq] at hc
      subst hc
      refine ⟨(Ending.plain hd).1, ?_, (Ending.plain hd).2⟩
      cases l.endsInString <;> simp

theorem map_char_markedText (lines : List Line) :
    (markedText lines).map (·.char) = joinBodies (lines.map Line.source) := by
  induction lines with
  | nil => rfl
  | cons l lines ih =>
    have hline : l.marked.map (·.char) = l.text ++ l.ending.chars := by simp [Line.marked, Line.text, Function.comp_def]
    rw [markedText, flatMap_cons, map_append, hline, append_assoc]
    rw [map_cons, Line.source, joinBodies_cons, ← ih]
    rfl

/-! ### Bodies of triple-quoted strings -/

/-- The body of a string in three quotes `q`: an unescaped close does not start in it. -/
inductive TripleBody (q : Char) : Chars → Prop
  | nil : TripleBody q []
  | escape {d : Char} {body : Chars} (h : TripleBody q body) : TripleBody q ('\\' :: d :: body)
  | plain {c : Char} {body : Chars} (hc : c ≠ '\\') (hend : ¬[q, q, q] <+: c :: body ++ [q, q, q])
    (h : TripleBody q body) : TripleBody q (c :: body)

theorem Marked.not_close {body rest : List Cell} {a : Cell} (h : Marked none (body ++ a :: rest))
    (hbody : ∀ c ∈ body, c.mark = .content) : a.mark ≠ .close := by
  induction body with
  | nil =>
    generalize hall : [] ++ a :: rest = all at h
    cases h with
    | done => cases hall
    | outside hc _ =>
      obtain ⟨rfl, -⟩ := cons.inj hall
      exact hc
    | opens _ =>
      obtain ⟨rfl, -⟩ := cons.inj hall
      simp
  | cons x body ih =>
    have hx := hbody x mem_cons_self
    generalize hall : x :: body ++ a :: rest = all at h
    cases h with
    | done => cases hall
    | outside _ h =>
      obtain ⟨-, rfl⟩ := cons.inj hall
      exact ih h fun c hc => hbody c (mem_cons_of_mem _ hc)
    | opens _ =>
      obtain ⟨rfl, -⟩ := cons.inj hall
      cases hx

theorem append_cons_eq_append {before tail w more : List Cell} {o : Cell} (h : before ++ o :: tail = w ++ more) :
    (∃ rest, before = w ++ rest ∧ more = rest ++ o :: tail) ∨ ∃ x, w = before ++ o :: x ∧ tail = x ++ more := by
  rcases append_eq_append_iff.mp h with ⟨x, hw, hx⟩ | ⟨rest, hbefore, hmore⟩
  · cases x with
    | nil => exact .inl ⟨[], by simpa using hw.symm, by simpa using hx.symm⟩
    | cons y x =>
      obtain ⟨rfl, htail⟩ := cons.inj hx
      exact .inr ⟨x, hw, htail⟩
  · exact .inl ⟨rest, hbefore, hmore⟩

section

variable {a b c : Cell} {body after : List Cell} (hbody : ∀ x ∈ body, x.mark = .content) (hclose : a.mark = .close)

include hbody hclose

theorem Marked.isBody {q : Quote} (h : Marked (some q) (body ++ a :: b :: c :: after)) :
    [a, b, c] = q.three .close ∧ TripleBody q.char (body.map (·.char)) := by
  generalize hq : some q = q? at h
  generalize hall : body ++ a :: b :: c :: after = all at h
  induction h generalizing body with
  | done => simp at hall
  | outside | opens => cases hq
  | @escape q' d cells _ ih =>
    cases hq
    match body with
    | [] =>
      obtain ⟨rfl, -⟩ := cons.inj hall
      cases hclose
    | [x] =>
      obtain ⟨rfl, -⟩ := cons.inj (cons.inj hall).2
      cases hclose
    | x :: y :: body =>
      simp only [cons_append, cons.injEq] at hall
      obtain ⟨rfl, rfl, hall⟩ := hall
      obtain ⟨hthree, hmore⟩ := ih (fun z hz => hbody z (by simp [hz])) rfl hall
      exact ⟨hthree, .escape hmore⟩
  | @inside q' d cells hesc hend _ ih =>
    cases hq
    cases body with
    | nil =>
      obtain ⟨rfl, -⟩ := cons.inj hall
      cases hclose
    | cons x body =>
      simp only [cons_append, cons.injEq] at hall
      obtain ⟨rfl, hall⟩ := hall
      obtain ⟨hthree, hmore⟩ := ih (fun z hz => hbody z (by simp [hz])) rfl hall
      refine ⟨hthree, .plain ?_ ?_ hmore⟩
      · intro hd
        rw [hesc hd] at hall
        simp at hall
      · intro hquotes
        refine hend (hquotes.trans ⟨after.map (·.char), ?_⟩)
        have hchars := congrArg (List.map Cell.char) hthree
        simp only [Quote.three, map_cons, map_nil, cons.injEq, and_true] at hchars
        simp [← hall, hchars]
  | @closes q' cells _ _ =>
    cases hq
    cases body with
    | nil =>
      simp only [Quote.three, nil_append, cons_append, cons.injEq] at hall
      obtain ⟨rfl, rfl, rfl, -⟩ := hall
      exact ⟨rfl, .nil⟩
    | cons x body =>
      obtain ⟨rfl, -⟩ := cons.inj hall
      cases hbody _ mem_cons_self

def OpensBefore (before body closing : List Cell) : Prop :=
  ∃ q : Quote, closing = q.three .close ∧ TripleBody q.char (body.map (·.char)) ∧ q.three .quote <:+ before

/-- Behind a quote, the content up to a close is the body of a string that the quote opens, with two
more before it. -/
theorem Marked.region {q? : Option Quote} {before : List Cell} {o : Cell}
    (h : Marked q? (before ++ o :: (body ++ a :: b :: c :: after))) (ho : o.mark = .quote) :
    OpensBefore (before ++ [o]) body [a, b, c] := by
  have hfirst {x : Cell} {xs : List Cell} (hx : body ++ a :: b :: c :: after = x :: xs) : x.mark ≠ .quote := by
    cases body with
    | nil =>
      obtain ⟨rfl, -⟩ := cons.inj hx
      simp [hclose]
    | cons y body =>
      obtain ⟨rfl, -⟩ := cons.inj hx
      simp [hbody y mem_cons_self]
  have hpush (w : List Cell) {rest : List Cell} (h : OpensBefore (rest ++ [o]) body [a, b, c]) :
      OpensBefore (w ++ rest ++ [o]) body [a, b, c] := by
    obtain ⟨q, hthree, hbody, hsuffix⟩ := h
    exact ⟨q, hthree, hbody, append_assoc w rest [o] ▸ hsuffix.trans (suffix_append _ _)⟩
  generalize hall : before ++ o :: (body ++ a :: b :: c :: after) = all at h
  -- each step of the scan lies before the quote, or the quote belongs to it
  induction h generalizing before with
  | done => simp at hall
  | @outside x cells _ h ih =>
    rcases append_cons_eq_append (w := [x]) hall with ⟨rest, rfl, hmore⟩ | ⟨y, hw, htail⟩
    · exact hpush [x] (ih hmore.symm)
    · obtain ⟨-, -, rfl⟩ : before = [] ∧ o = x ∧ y = [] := by
        cases before <;> simp_all
      rw [nil_append] at htail
      exact absurd hclose (Marked.not_close (htail ▸ h) hbody)
  | @opens q cells h ih =>
    rcases append_cons_eq_append hall with ⟨rest, rfl, hmore⟩ | ⟨y, hw, htail⟩
    · exact hpush (q.three .quote) (ih hmore.symm)
    · cases y with
      | nil =>
        rw [nil_append] at htail
        obtain ⟨hthree, hbody⟩ := Marked.isBody hbody hclose (htail ▸ h)
        exact ⟨q, hthree, hbody, hw ▸ suffix_refl _⟩
      | cons x y =>
        have hx : x ∈ q.three .quote := by simp [hw]
        exact absurd (Quote.mark_of_mem_three hx) (hfirst htail)
  | @escape q d cells _ ih =>
    rcases append_cons_eq_append (w := [⟨'\\', .content⟩, ⟨d, .content⟩]) hall with
      ⟨rest, rfl, hmore⟩ | ⟨y, hw, -⟩
    · exact hpush _ (ih hmore.symm)
    · have hmem : o ∈ [(⟨'\\', .content⟩ : Cell), ⟨d, .content⟩] := by simp [hw]
      rcases mem_pair.mp hmem with rfl | rfl <;> cases ho
  | @inside q d cells _ _ _ ih =>
    rcases append_cons_eq_append (w := [⟨d, .content⟩]) hall with ⟨rest, rfl, hmore⟩ | ⟨y, hw, -⟩
    · exact hpush _ (ih hmore.symm)
    · have hmem : o ∈ [(⟨d, .content⟩ : Cell)] := by simp [hw]
      obtain rfl := mem_singleton.mp hmem
      cases ho
  | @closes q cells _ ih =>
    rcases append_cons_eq_append hall with ⟨rest, rfl, hmore⟩ | ⟨y, hw, -⟩
    · exact hpush (q.three .close) (ih hmore.symm)
    · have hmem : o ∈ q.three .close := by simp [hw]
      rw [Quote.mark_of_mem_three hmem] at ho
      cases ho

end

theorem TripleRegion.quote {before opening body closing after : List Cell}
    (h : TripleRegion opening body closing) (hmarked : Marked none cells)
    (hcells : cells = before ++ (opening ++ body ++ closing) ++ after) :
    ∃ q : Quote, opening = q.three .quote ∧ closing = q.three .close ∧ TripleBody q.char (body.map (·.char)) := by
  obtain ⟨x, y, o, rfl⟩ := length_eq_three.mp (by simpa using congrArg List.length h.opens)
  obtain ⟨a, b, c, rfl⟩ := length_eq_three.mp (by simpa using congrArg List.length h.closes)
  have ho : o.mark = .quote := by
    have hmarks := h.opens
    simp_all
  have ha : a.mark = .close := by
    have hmarks := h.closes
    simp_all
  have hsplit : cells = before ++ [x, y] ++ o :: (body ++ a :: b :: c :: after) := by
    rw [hcells]
    simp
  obtain ⟨q, hclosing, hbody, pre, hpre⟩ := (hsplit ▸ hmarked).region h.content ha ho
  have hopening : pre ++ q.three .quote = before ++ [x, y, o] := by
    rw [hpre]
    simp
  exact ⟨q, (append_inj' hopening rfl).2.symm, hclosing, hbody⟩

/-! ### Ends of strings -/

def hidesClose (q : Char) : Chars → Bool
  | '\\' :: d :: rest => [q, q, q].isPrefixOf (d :: rest) || hidesClose q rest
  | _ :: rest => hidesClose q rest
  | [] => false

theorem hidesClose_cons (hc : c ≠ '\\') (rest : Chars) : hidesClose q (c :: rest) = hidesClose q rest := by
  rw [hidesClose]
  rintro d rest' rfl
  exact absurd rfl hc

theorem tripleCloseLength?_cons {rest : Chars} (hlen : 2 ≤ rest.length) (h : ¬[q, q, q] <+: c :: rest) :
    tripleCloseLength? q (c :: rest) = (tripleCloseLength? q rest).map (· + 1) := by
  match rest, hlen with
  | d :: e :: rest, _ =>
    rw [tripleCloseLength?, if_neg]
    rintro ⟨rfl, rfl, rfl⟩
    exact h (prefix_append _ _)

theorem TripleBody.close {body : Chars} (h : TripleBody q body) (hq : q ≠ '\\') (after : Chars) :
    ∃ n, tripleCloseLength? q (body ++ [q, q, q] ++ after) = some n ∧ n ≤ body.length + 3 ∧
      (n = body.length + 3 ↔ hidesClose q (body ++ [q, q, q]) = false) := by
  induction h with
  | nil =>
    refine ⟨3, ?_, Nat.le_refl 3, ?_⟩
    · simp [tripleCloseLength?]
    · simp [hidesClose_cons hq, hidesClose]
  | @escape d body _ ih =>
    obtain ⟨n, hn, hle, hiff⟩ := ih
    have hslash : ¬[q, q, q] <+: '\\' :: (d :: body ++ [q, q, q] ++ after) := by simp [cons_prefix_cons, hq]
    have hlong : 2 ≤ (body ++ [q, q, q] ++ after).length := by
      simp only [length_append, length_cons]
      omega
    have hskip := tripleCloseLength?_cons (Nat.le_trans hlong (by simp)) hslash
    have hhides : hidesClose q ('\\' :: d :: body ++ [q, q, q]) =
        ([q, q, q].isPrefixOf (d :: body ++ [q, q, q]) || hidesClose q (body ++ [q, q, q])) := rfl
    by_cases hclose : [q, q, q] <+: d :: body ++ [q, q, q]
    · -- the token ends here, before the string does
      obtain ⟨x, hx⟩ := hclose
      have hhere : tripleCloseLength? q (d :: body ++ [q, q, q] ++ after) = some 3 := by
        rw [← hx]
        simp [tripleCloseLength?]
      refine ⟨4, ?_, by simp only [length_cons]; omega, ?_⟩
      · rw [cons_append, cons_append, hskip, hhere]
        rfl
      · rw [hhides, isPrefixOf_iff_prefix.mpr ⟨x, hx⟩]
        simp
    · have hfar : ¬[q, q, q] <+: d :: (body ++ [q, q, q] ++ after) := by
        intro hprefix
        refine hclose (prefix_of_prefix_length_le hprefix ⟨after, rfl⟩ ?_)
        simp
      have hnext := tripleCloseLength?_cons hlong hfar
      refine ⟨n + 2, ?_, by simp only [length_cons]; omega, ?_⟩
      · rw [cons_append, cons_append, hskip, cons_append, cons_append, hnext, hn]
        rfl
      · have hfalse : [q, q, q].isPrefixOf (d :: body ++ [q, q, q]) = false := by
          rw [Bool.eq_false_iff]
          exact fun htrue => hclose (List.isPrefixOf_iff_prefix.mp htrue)
        rw [hhides, hfalse, Bool.false_or, ← hiff]
        simp only [length_cons]
        omega
  | @plain c body hc hend _ ih =>
    obtain ⟨n, hn, hle, hiff⟩ := ih
    have hfar : ¬[q, q, q] <+: c :: (body ++ [q, q, q] ++ after) := by
      intro hprefix
      refine hend (prefix_of_prefix_length_le hprefix ⟨after, rfl⟩ ?_)
      simp
    have hlong : 2 ≤ (body ++ [q, q, q] ++ after).length := by
      simp only [length_append, length_cons]
      omega
    have hnext := tripleCloseLength?_cons hlong hfar
    refine ⟨n + 1, ?_, by simp only [length_cons]; omega, ?_⟩
    · rw [cons_append, cons_append, hnext, hn]
      rfl
    · rw [cons_append, hidesClose_cons hc, ← hiff]
      simp only [length_cons]
      omega

/-- The terminal of triple-quoted strings, tried where the scanner has found such a string in a
normalized text, takes nothing behind the string, and all of it exactly if no escaped quote in it has
two more of its kind behind it. -/
theorem tripleString_takes_region_iff {t u : Chars} (h : normalize t = .ok u) :
    ∃ lines scan, scanLines u = .ok (lines, scan) ∧ (markedText lines).map (·.char) = u ∧
      ∀ before opening body closing after : List Cell,
        markedText lines = before ++ (opening ++ body ++ closing) ++ after → TripleRegion opening body closing →
        ∃ (q : Quote) (n : Nat), opening = q.three .quote ∧ closing = q.three .close ∧
          Terminal.tripleString.matchLength? (u.drop before.length) = some n ∧
          n ≤ (opening ++ body ++ closing).length ∧ (n = (opening ++ body ++ closing).length ↔
            hidesClose q.char ((body ++ closing).map (·.char)) = false) := by
  obtain ⟨lines, scan, edits, last, hscan, hsettles, -, rfl⟩ := normalize_eq_ok_iff.mp h
  have hscan' := scanLines_edited hscan hsettles
  generalize joinBodies ((editedLines lines edits).map Line.source) = u at hscan'
  generalize editedLines lines edits = lines' at hscan'
  obtain ⟨hscanned, hsplit⟩ := scanLines_eq_ok_iff.mp hscan'
  have hchars : (markedText lines').map (·.char) = u := by rw [map_char_markedText, ← hsplit, joinBodies_splitLines]
  have hmarked := hscanned.marked (hsplit ▸ properLines_splitLines u)
  refine ⟨lines', scan, hscan', hchars, ?_⟩
  intro before opening body closing after hcells hregion
  obtain ⟨q, hopening, hclosing, hbody⟩ := hregion.quote hmarked hcells
  obtain ⟨n, hn, hle, hiff⟩ := hbody.close q.char_ne_backslash (after.map (·.char))
  have hdrop : u.drop before.length =
      q.char :: q.char :: q.char :: (body.map (·.char) ++ [q.char, q.char, q.char] ++ after.map (·.char)) := by
    rw [← hchars, hcells, append_assoc, map_append, List.drop_left' (by simp)]
    simp [hopening, hclosing, Quote.three]
  have hquote : q.char = '\'' ∨ q.char = '"' := by cases q <;> simp [Quote.char]
  have hlen : (opening ++ body ++ closing).length = body.length + 3 + 3 := by
    simp only [hopening, hclosing, Quote.three, length_append, List.length_cons, List.length_nil]
    omega
  refine ⟨q, n + 3, hopening, hclosing, ?_, ?_, ?_⟩
  · rw [hdrop]
    exact tripleStringLength?_eq_some_iff.mpr ⟨q.char, _, n, hquote, rfl, hn, rfl⟩
  · rw [hlen]
    simpa using hle
  · have htail : (body ++ closing).map (·.char) = body.map (·.char) ++ [q.char, q.char, q.char] := by
      simp [hclosing, Quote.three]
    rw [hlen, htail, ← hiff]
    simp

theorem tripleString_takes_region_two_lines :
    normalize "x = '''a\n\\'b''' + y\n".toList = .ok "x = '''a\n\\'b''' + y;\n".toList ∧
      Terminal.tripleString.matchLength? ("x = '''a\n\\'b''' + y;\n".toList.drop 4) = some 11 := by
  have h : normalize "x = '''a\n\\'b''' + y\n".toList =
      .ok "x = '''a\n\\'b''' + y;\n".toList :=
    normalize_eq_ok_of_toOption (by decide +kernel)
  obtain ⟨lines, scan, hscan, -, hregions⟩ := tripleString_takes_region_iff h
  have hcells : markedText lines = "x = ".toList.map (⟨·, .code⟩) ++
      (Quote.single.three .quote ++ "a\n\\'b".toList.map (⟨·, .content⟩) ++ Quote.single.three .close) ++
      " + y;\n".toList.map (⟨·, .code⟩) :=
    of_decide_eq_true (forall_of_toOption_all (p := fun r : List Line × ScanState =>
      decide (markedText r.1 = _)) (by decide +kernel) _ hscan)
  obtain ⟨q, n, hq, -, hn, -, hiff⟩ := hregions _ _ _ _ _ hcells ⟨by decide, by decide, by decide⟩
  obtain rfl : q = .single := by
    cases q with
    | single => rfl
    | double => cases hq
  have hall := hiff.mpr (by decide)
  exact ⟨h, hn.trans (congrArg some hall)⟩

def escapedQuote : Chars := "x = '''a\\'''';\n".toList

/-- The scanner steps over the escaped quote, the token ends with it and the two behind it. -/
theorem escaped_quote_ends_token :
    normalize "x = '''a\\''''\n".toList = .ok escapedQuote ∧
      ∃ lines scan before opening body closing after,
        scanLines escapedQuote = .ok (lines, scan) ∧
        markedText lines = before ++ (opening ++ body ++ closing) ++ after ∧ TripleRegion opening body closing ∧
        Terminal.tripleString.matchLength? (escapedQuote.drop before.length) ≠
          some (opening ++ body ++ closing).length := by
  refine ⟨normalize_eq_ok_of_toOption (by decide +kernel), ?_⟩
  obtain ⟨⟨lines, scan⟩, hscan, hcells⟩ := exists_of_toOption_any
    (x := scanLines escapedQuote)
    (p := fun r => decide (markedText r.1 = "x = ".toList.map (⟨·, .code⟩) ++
      (Quote.single.three .quote ++ "a\\'".toList.map (⟨·, .content⟩) ++ Quote.single.three .close) ++
      ";\n".toList.map (⟨·, .code⟩))) (by decide +kernel)
  exact ⟨lines, scan, _, _, _, _, _, hscan, of_decide_eq_true hcells, ⟨by decide, by decide, by decide⟩, by decide⟩

end GroovySharp.Source
