import GroovySharp.Proofs.BatchOutcome
import GroovySharp.Proofs.StoreKeeping

/-!
# Texts that share a place

The place of a C# text is that of its source with another suffix, so sources that differ in their suffix
only share a place, and the last text written there is the one that stays.
-/

namespace GroovySharp

open List

/-! ### The names in a text -/

namespace Path

def Plain (name : String) : Prop := name.toList ≠ [] ∧ name.toList ≠ ['.'] ∧ '/' ∉ name.toList

theorem splitSlashes_ne_nil (cs : Chars) : splitSlashes cs ≠ [] := by
  unfold splitSlashes
  split
  · nofun
  · nofun
  · split <;> nofun

theorem splitSlashes_cons {c : Char} (h : c ≠ '/') (rest : Chars) :
    ∃ word words, splitSlashes rest = word :: words ∧ splitSlashes (c :: rest) = (c :: word) :: words := by
  obtain ⟨word, words, heq⟩ := exists_cons_of_ne_nil (splitSlashes_ne_nil rest)
  refine ⟨word, words, heq, ?_⟩
  rw [splitSlashes, heq]
  exact h

theorem splitSlashes_append {word : Chars} (h : '/' ∉ word) (rest : Chars) :
    splitSlashes (word ++ '/' :: rest) = word :: splitSlashes rest := by
  induction word with
  | nil => rfl
  | cons c word ih =>
    rw [mem_cons, not_or] at h
    obtain ⟨first, words, heq, hcons⟩ := splitSlashes_cons (Ne.symm h.1) (word ++ '/' :: rest)
    rw [ih h.2, cons.injEq] at heq
    rw [cons_append, hcons, ← heq.1, ← heq.2]

theorem splitSlashes_of_notMem {word : Chars} (h : '/' ∉ word) : splitSlashes word = [word] := by
  induction word with
  | nil => rfl
  | cons c word ih =>
    rw [mem_cons, not_or] at h
    obtain ⟨first, words, heq, hcons⟩ := splitSlashes_cons (Ne.symm h.1) word
    rw [ih h.2, cons.injEq] at heq
    rw [hcons, ← heq.1, ← heq.2]

theorem splitSlashes_intercalate {words : List Chars} (hne : words ≠ [])
    (h : ∀ word ∈ words, '/' ∉ word) : splitSlashes (intercalate ['/'] words) = words := by
  induction words with
  | nil => exact absurd rfl hne
  | cons word words ih =>
    rw [forall_mem_cons] at h
    cases words with
    | nil =>
      rw [intercalate_singleton]
      exact splitSlashes_of_notMem h.1
    | cons next words =>
      rw [intercalate_cons_cons, append_assoc, singleton_append, splitSlashes_append h.1, ih (cons_ne_nil _ _) h.2]

theorem notMem_of_mem_splitSlashes {cs word : Chars} (h : word ∈ splitSlashes cs) : '/' ∉ word := by
  induction cs generalizing word with
  | nil =>
    rw [mem_singleton.mp h]
    exact not_mem_nil
  | cons c cs ih =>
    by_cases hc : c = '/'
    · subst hc
      rcases mem_cons.mp h with rfl | h
      · exact not_mem_nil
      · exact ih h
    · obtain ⟨first, words, heq, hcons⟩ := splitSlashes_cons hc cs
      rw [hcons] at h
      rw [heq] at ih
      rcases mem_cons.mp h with rfl | h
      · rw [mem_cons, not_or]
        exact ⟨Ne.symm hc, ih mem_cons_self⟩
      · exact ih (mem_cons_of_mem _ h)

theorem plain_of_mem_ofText {text name : String} (h : name ∈ (ofText text).names) : Plain name := by
  obtain ⟨word, hword, rfl⟩ := mem_map.mp h
  obtain ⟨hmem, hkept⟩ := mem_filter.mp hword
  rw [Plain, String.toList_ofList]
  simp only [Bool.and_eq_true, Bool.not_eq_true', isEmpty_eq_false_iff, bne_iff_ne] at hkept
  exact ⟨hkept.1, hkept.2, notMem_of_mem_splitSlashes hmem⟩

theorem ofText_intercalate {names : List String} (hne : names ≠ []) (h : ∀ name ∈ names, Plain name) :
    ofText ("/".intercalate names) = { names } := by
  have htext : ("/".intercalate names).toList = intercalate ['/'] (names.map String.toList) :=
    String.toList_intercalate
  have hsplit : splitSlashes (intercalate ['/'] (names.map String.toList)) = names.map String.toList := by
    refine splitSlashes_intercalate (by simpa using hne) fun word hword => ?_
    obtain ⟨name, hname, rfl⟩ := mem_map.mp hword
    exact (h name hname).2.2
  have hroot : rootOf (intercalate ['/'] (names.map String.toList)) = "" := by
    obtain ⟨first, rest, rfl⟩ := exists_cons_of_ne_nil hne
    obtain ⟨hfirst, -, hslash⟩ := h first mem_cons_self
    obtain ⟨c, cs, hcs⟩ := exists_cons_of_ne_nil hfirst
    rw [hcs, mem_cons, not_or] at hslash
    have hstart : ∃ more, intercalate ['/'] ((first :: rest).map String.toList) = c :: more := by
      rw [map_cons, hcs]
      cases rest with
      | nil => exact ⟨cs, by rw [map_nil, intercalate_singleton]⟩
      | cons next rest =>
        rw [map_cons, intercalate_cons_cons]
        exact ⟨_, rfl⟩
    obtain ⟨more, hmore⟩ := hstart
    rw [hmore, rootOf, takeWhile_cons, if_neg (by simpa using Ne.symm hslash.1)]
    rfl
  rw [ofText, htext, hsplit, hroot]
  congr 1
  rw [filter_eq_self.mpr, map_map]
  · exact (map_congr_left fun name _ => String.ofList_toList).trans (map_id names)
  · intro word hword
    obtain ⟨name, hname, rfl⟩ := mem_map.mp hword
    obtain ⟨hsome, hdot, -⟩ := h name hname
    simp [hsome, hdot]

end Path

namespace Store

open Unicode Disk

/-! ### Places -/

def SameStem (a b : String) : Prop :=
  (Path.ofText a).names.dropLast = (Path.ofText b).names.dropLast ∧
    (Path.ofText a).name?.map Path.stem = (Path.ofText b).name?.map Path.stem

instance : DecidableRel SameStem := fun a b =>
  inferInstanceAs (Decidable ((Path.ofText a).names.dropLast = (Path.ofText b).names.dropLast ∧
    (Path.ofText a).name?.map Path.stem = (Path.ofText b).name?.map Path.stem))

section

variable {a b : String}

theorem place_eq_iff (ha : (Path.ofText a).names ≠ []) (hb : (Path.ofText b).names ≠ []) :
    place a = place b ↔ SameStem a b := by
  rw [place_of_ne_nil ha, place_of_ne_nil hb, cons.injEq, SameStem, Path.name?, Path.name?,
    getLast?_eq_getLast_of_ne_nil ha, getLast?_eq_getLast_of_ne_nil hb, Option.map_some,
    Option.map_some, Option.some.injEq, append_singleton_inj, String.append_left_inj]
  exact and_iff_right rfl

theorem slash_notMem_stem {name : String} (h : '/' ∉ name.toList) : '/' ∉ (Path.stem name).toList := by
  unfold Path.stem
  dsimp only
  split
  · exact h
  · rw [String.toList_ofList]
    exact fun hmem => h (mem_of_mem_take hmem)

theorem plain_of_mem_place (h : (Path.ofText a).names ≠ []) : ∀ name ∈ place a, Path.Plain name := by
  intro name hname
  rw [place_of_ne_nil h] at hname
  rcases mem_cons.mp hname with rfl | hname
  · exact ⟨by decide, by decide, by decide⟩
  rcases mem_append.mp hname with hdir | hlast
  · exact Path.plain_of_mem_ofText (dropLast_subset _ hdir)
  · rw [mem_singleton.mp hlast, Path.Plain, String.toList_append]
    have hslash := slash_notMem_stem (Path.plain_of_mem_ofText (getLast_mem h)).2.2
    have hsuffix : (".cs" : String).toList = ['.', 'c', 's'] := rfl
    rw [hsuffix]
    refine ⟨by simp, fun hdot => ?_, by simp [hslash]⟩
    have hlength := congrArg List.length hdot
    simp at hlength

theorem ofText_outputPath (h : (Path.ofText a).names ≠ []) : Path.ofText (outputPath a) = { names := place a } :=
  Path.ofText_intercalate (cons_ne_nil _ _) (plain_of_mem_place h)

theorem outputPath_eq_iff (ha : (Path.ofText a).names ≠ []) (hb : (Path.ofText b).names ≠ []) :
    outputPath a = outputPath b ↔ SameStem a b := by
  rw [← place_eq_iff ha hb]
  constructor
  · intro heq
    have hpath := congrArg Path.ofText heq
    rw [ofText_outputPath ha, ofText_outputPath hb] at hpath
    exact congrArg Path.names hpath
  · exact congrArg ("/".intercalate ·)

end

theorem of_lastAt_eq_some {xs : List Delivery} {names : List String} {y : Delivery}
    (h : lastAt xs names = some y) : y ∈ xs ∧ place y.source = names :=
  ⟨mem_reverse.mp (mem_of_find?_eq_some h), by simpa using find?_some h⟩

/-! ### What is kept -/

def texts (cs : List Call) : List Delivery := cs.flatMap Call.deliveries

/-- What a store has of the texts of calls, and what is published of them. -/
structure TextsKept (d d₁ : Disk) (out : Path) (cs : List Call) (s : Store) : Prop where
  rows : s.results.rows = cs.flatMap Call.rows
  /-- The path of a text leads to the last text that was written there. -/
  last : ∀ x ∈ texts cs, ∃ y, lastAt (texts cs) (place x.source) = some y ∧
    s.disk.read (s.staging.append (Path.ofText (outputPath x.source))) = .ok (bytesOf y.text)
  /-- Paths are distinct if sources differ in more than their suffix, and only then. -/
  distinct : ((texts cs).map (outputPath ·.source)).Nodup ↔
    (texts cs).Pairwise fun x y => ¬ SameStem x.source y.source
  /-- Every path leads to its own text if sources that differ in their suffix at most have equal texts,
  and only then. -/
  own : (∀ x ∈ texts cs, s.disk.read (s.staging.append (Path.ofText (outputPath x.source))) = .ok (bytesOf x.text)) ↔
    ∀ x ∈ texts cs, ∀ y ∈ texts cs, SameStem x.source y.source → bytesOf x.text = bytesOf y.text
  /-- All rows are published, and their paths lead to what they led to before. -/
  published : ∀ names name, HasRoom d out names name → ∀ now more d₂ s₂,
    s.finalize now more d₁ = (.ok d₂, s₂) → s₂.results.parts.flatten = s.results.rows ∧
      ∀ x ∈ texts cs, d₂.read (out.append (Path.ofText (outputPath x.source))) =
        s.disk.read (s.staging.append (Path.ofText (outputPath x.source)))

section

variable {out : Path} {name : String} {xs : List Delivery} {x : Delivery} {s : Store}

theorem Keeping.read_staged (h : Keeping out name xs s) (hx : x ∈ xs) : ∃ y, lastAt xs (place x.source) = some y ∧
      s.disk.read (s.staging.append (Path.ofText (outputPath x.source))) = .ok (bytesOf y.text) := by
  obtain ⟨y, hy, hfile⟩ := h.texts x hx
  obtain ⟨hnamed, hfit⟩ := h.proper x hx
  rw [h.file?_eq (hfit.up ⟨_, rfl⟩), fileAt?_eq_some] at hfile
  rw [ofText_outputPath hnamed]
  exact ⟨y, hy, read_eq (h.namesOf?_staged (place x.source)) hfit hfile⟩

theorem Keeping.sameStem_iff {y : Delivery} (h : Keeping out name xs s) (hx : x ∈ xs) (hy : y ∈ xs) :
    SameStem x.source y.source ↔ place x.source = place y.source :=
  (place_eq_iff (h.proper x hx).1 (h.proper y hy).1).symm

theorem Keeping.own_iff (h : Keeping out name xs s) :
    (∀ x ∈ xs, s.disk.read (s.staging.append (Path.ofText (outputPath x.source))) = .ok (bytesOf x.text)) ↔
      ∀ x ∈ xs, ∀ y ∈ xs, SameStem x.source y.source → bytesOf x.text = bytesOf y.text := by
  constructor
  · intro hown x hx y hy hsame
    have hpath : outputPath x.source = outputPath y.source := by
      rw [outputPath, outputPath, (h.sameStem_iff hx hy).mp hsame]
    exact Except.ok.inj ((hown x hx).symm.trans (hpath ▸ hown y hy))
  · intro hequal x hx
    obtain ⟨y, hlast, hread⟩ := h.read_staged hx
    obtain ⟨hy, hplace⟩ := of_lastAt_eq_some hlast
    rw [hread, hequal x hx y hy ((h.sameStem_iff hx hy).mpr hplace.symm)]

theorem Keeping.nodup_iff (h : Keeping out name xs s) :
    (xs.map (outputPath ·.source)).Nodup ↔ xs.Pairwise fun x y => ¬ SameStem x.source y.source := by
  rw [List.Nodup, pairwise_map]
  refine List.Pairwise.iff_of_mem fun {x y} hx hy => ?_
  exact not_congr (outputPath_eq_iff (h.proper x hx).1 (h.proper y hy).1)

end

/-- Whatever calls a store has taken, the last text for each place is kept; so a text is lost exactly if
another source with its directories and its stem brought a different one later. -/
theorem textsKept_of_calls (config : StoreConfig) (out : Path) (d d₁ : Disk) (s₀ s : Store)
    (cs : List Call) (hstart : start config out d = .ok (s₀, d₁)) (hcalls : s₀.calls cs = some s) :
    TextsKept d d₁ out cs s := by
  obtain ⟨name, hnamed, rfl⟩ := eq_fresh_of_start hstart
  have hadds := adds_calls hcalls
  have hkeeping : Keeping out (name ++ ".staging") (texts cs) s :=
    hadds.keeping (keeping_fresh config out name)
  refine ⟨hadds.rows, fun x hx => hkeeping.read_staged hx, hkeeping.nodup_iff, hkeeping.own_iff, ?_⟩
  intro names name' hroom now more d₂ s₂ hfinal
  obtain rfl : name = name' := Option.some.inj (hnamed.symm.trans hroom.named)
  obtain ⟨d', hstart', hopened⟩ := hroom.start_eq_ok config
  obtain rfl : d' = d₁ := (Prod.mk.inj (Except.ok.inj (hstart'.symm.trans hstart))).2
  refine ⟨(parts_finalize hfinal).2.1, fun x hx => ?_⟩
  obtain ⟨y, hlast, hread⟩ := hkeeping.read_staged hx
  obtain ⟨y', hlast', hread'⟩ := hkeeping.read_finalize hopened hnamed hfinal hx
  obtain rfl : y = y' := Option.some.inj (hlast.symm.trans hlast')
  rw [hread, ofText_outputPath (hkeeping.proper x hx).1, hread']

def converted (name text : String) : Result :=
  .ofWork (Batch.sourceOf name) .groovy 0 (.ok (points text))

def threeTexts : List Call :=
  [.result (converted "a.groovy" "x = 1;\n"), .result (converted "b.gvy" "y = 22;\n"), .flush,
    .result (converted "a/a.groovy" "z = 333;\n")]

theorem textsKept_of_three_files :
    ∃ s₀ d₁ s, start {} { names := ["out"] } (Batch.diskOf []) = .ok (s₀, d₁) ∧
      s₀.calls threeTexts = some s ∧ TextsKept (Batch.diskOf []) d₁ { names := ["out"] } threeTexts s := by
  have hends :
      ((start {} { names := ["out"] } (Batch.diskOf [])).toOption.bind (·.1.calls threeTexts)).isSome = true := by
    decide +kernel
  obtain ⟨s, hs⟩ := Option.isSome_iff_exists.mp hends
  obtain ⟨⟨s₀, d₁⟩, hstart, hcalls⟩ := Option.bind_eq_some_iff.mp hs
  have hstart' : start {} { names := ["out"] } (Batch.diskOf []) = .ok (s₀, d₁) := by
    cases hok : start {} { names := ["out"] } (Batch.diskOf []) with
    | error f =>
      rw [hok] at hstart
      cases hstart
    | ok x =>
      rw [hok] at hstart
      exact congrArg Except.ok (Option.some.inj hstart)
  exact ⟨s₀, d₁, s, hstart', hcalls, textsKept_of_calls {} { names := ["out"] } (Batch.diskOf []) d₁ s₀ s _
    hstart' hcalls⟩

/-- Two files that differ in their suffix are given one path, where the second text replaces the first. -/
theorem second_suffix_replaces_first :
    ((start {} { names := ["out"] } (Batch.diskOf [])).toOption.bind fun x =>
      x.1.calls [.result (converted "a.groovy" "x = 1;\n"), .result (converted "a.gvy" "y = 22;\n")]).map
        (fun s => (s.results.rows.map fun row => (row.path, row.outputPath?, row.outputBytes),
          (s.disk.read (s.staging.append (Path.ofText "cs/a.cs"))).toOption)) =
      some ([("a.groovy", some "cs/a.cs", 7), ("a.gvy", some "cs/a.cs", 8)],
        some (Encoding.Utf8.encode "y = 22;\n".toList)) := by
  decide +kernel

end Store

end GroovySharp
