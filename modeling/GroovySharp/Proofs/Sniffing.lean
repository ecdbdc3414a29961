import GroovySharp.Proofs.DirectoryListing
import GroovySharp.Proofs.MarkedText

/-!
# The encoding that is guessed for a file

UTF-8 that is cut off anywhere is still taken for UTF-8. So is a whole file that ends inside a character,
and such a file cannot be read afterwards.
-/

namespace GroovySharp.Encoding.Utf8

open List

/-! ### Characters that are cut off -/

variable {lead : UInt8} {a more : Bytes} {n width : Nat}

theorem stepTwo_take (h : stepTwo lead (a ++ more) = .char n width) (hwidth : a.length + 1 < width) :
    stepTwo lead a = .truncated := by
  cases a with
  | nil => rfl
  | cons x a =>
    simp only [cons_append, stepTwo, brokenAfter] at h
    grind

theorem stepThree_take (h : stepThree lead (a ++ more) = .char n width) (hwidth : a.length + 1 < width) :
    stepThree lead a = .truncated := by
  rcases a with _ | ⟨x, _ | ⟨y, a⟩⟩
  · rfl
  · cases more <;> simp [stepThree, brokenAfter] at h ⊢ <;> grind
  · simp [stepThree, brokenAfter] at h
    grind

theorem stepFour_take (h : stepFour lead (a ++ more) = .char n width) (hwidth : a.length + 1 < width) :
    stepFour lead a = .truncated := by
  rcases a with _ | ⟨x, _ | ⟨y, _ | ⟨z, a⟩⟩⟩
  · rfl
  · rcases more with _ | ⟨y, _ | ⟨z, more⟩⟩ <;> simp [stepFour, brokenAfter] at h ⊢ <;> grind
  · rcases more with _ | ⟨z, more⟩ <;> simp [stepFour, brokenAfter] at h ⊢ <;> grind
  · simp [stepFour, brokenAfter] at h
    grind

/-- The bytes at the start of a character are a part of it. -/
theorem step_take (h : step lead (a ++ more) = .char n width) (hwidth : a.length + 1 < width) :
    step lead a = .truncated := by
  have htwo := @stepTwo_take lead a more n width
  have hthree := @stepThree_take lead a more n width
  have hfour := @stepFour_take lead a more n width
  simp only [step] at h ⊢
  grind

/-- The bytes are a text and perhaps, behind it, the start of a character. -/
def IsStart (bytes : Bytes) : Prop :=
  ∃ text first, ∃ c : Char, ∃ more, bytes = encode text ++ first ∧ encodeNat c.toNat = first ++ more ∧ more ≠ []

theorem isStart_take (text : Chars) (k : Nat) : IsStart ((encode text).take k) := by
  induction text generalizing k with
  | nil => exact ⟨[], [], 'x', _, by simp [encode], rfl, by decide⟩
  | cons c text ih =>
    have hcons (text : Chars) : encode (c :: text) = encodeNat c.toNat ++ encode text := by simp [encode]
    rw [hcons, take_append]
    rcases Nat.lt_or_ge k (encodeNat c.toNat).length with hk | hk
    · rw [Nat.sub_eq_zero_of_le (by omega), take_zero, append_nil]
      exact ⟨[], _, c, (encodeNat c.toNat).drop k, rfl, (take_append_drop _ _).symm, by simpa using hk⟩
    · obtain ⟨text', first, c', more, h, hc⟩ := ih (k - (encodeNat c.toNat).length)
      exact ⟨c :: text', first, c', more, by rw [take_of_length_le hk, h, hcons, append_assoc], hc⟩

/-- Such bytes can be read, or too few of them are there. -/
theorem decode_of_isStart {bytes : Bytes} (h : IsStart bytes) :
    (∃ text, decode bytes = .ok text) ∨ ∃ s, decode bytes = .error s ∧ s.reason = endReason := by
  obtain ⟨text, first, c, more, rfl, hc, hmore⟩ := h
  obtain ⟨offset, h⟩ := decodeFrom_encode 0 [] text first
  rw [decode, h]
  cases first with
  | nil => exact .inl ⟨_, rfl⟩
  | cons lead a =>
    obtain ⟨lead', tail, hbytes, hstep⟩ := step_encodeNat c.valid []
    obtain ⟨rfl, rfl⟩ := cons.inj (hbytes.symm.trans hc)
    rw [append_nil] at hstep
    have hpart : step lead' a = .truncated := by
      refine step_take hstep ?_
      have hpos := length_pos_iff.mpr hmore
      simp only [append_eq, length_append]
      omega
    rw [decodeFrom, hpart]
    exact .inr ⟨_, rfl, rfl⟩

end GroovySharp.Encoding.Utf8

namespace GroovySharp.Discovery

open Disk Encoding List

/-! ### Guesses -/

variable {head content : Bytes}

theorem markedEncoding?_cases (content : Bytes) :
    (Marking.utf8.mark <+: content ∧ markedEncoding? content = some "utf-8-sig") ∨
    (∃ order, (Marking.utf16 order).mark <+: content) ∨
    ¬ Marking.utf8.mark <+: content ∧ markedEncoding? content = none := by
  unfold markedEncoding?
  split
  · exact .inl ⟨⟨_, rfl⟩, rfl⟩
  · exact .inr (.inl ⟨.lowFirst, _, rfl⟩)
  · exact .inr (.inl ⟨.highFirst, _, rfl⟩)
  · next h _ _ => exact .inr (.inr ⟨fun ⟨_, hmark⟩ => h _ hmark.symm, rfl⟩)

/-- What is guessed from the start of a text in UTF-8. -/
theorem sniff_of_decode (hread : (∃ text, Utf8.decode head = .ok text) ∨
    ∃ s, Utf8.decode head = .error s ∧ s.reason = Utf8.endReason) :
    sniff head = if Marking.utf8.mark <+: head then some "utf-8-sig"
      else if isBinary head then none else some "utf-8" := by
  unfold sniff
  rcases markedEncoding?_cases head with ⟨hmark, hname⟩ | ⟨order, hmark⟩ | ⟨hmark, hname⟩
  · rw [hname, if_pos hmark]
  · -- No character begins with a byte of these marks.
    obtain ⟨more, rfl⟩ := hmark
    have hfirst : ∃ s, Utf8.decode ((Marking.utf16 order).mark ++ more) = .error s ∧ s.reason ≠ Utf8.endReason := by
      cases order <;> exact ⟨_, rfl, by decide⟩
    obtain ⟨s, hs, hreason⟩ := hfirst
    simp [hs, hreason] at hread
  · rw [hname, if_neg hmark]
    dsimp only
    split
    · rfl
    · rcases hread with ⟨text, hread⟩ | ⟨s, hread, hreason⟩ <;> simp [*]

/-- UTF-8 is never taken for Latin-1, wherever it is cut off and however it comes in pieces. -/
theorem sniff_headOf (text : Chars) (limit : Int) {ps : List Bytes} (hps : ps.flatten = Utf8.encode text) :
    headOf limit ps = (Utf8.encode text).take limit.toNat ∧
      sniff (headOf limit ps) ≠ some "latin-1" ∧
      sniff (headOf limit ps) = if Marking.utf8.mark <+: headOf limit ps then some "utf-8-sig"
        else if isBinary (headOf limit ps) then none else some "utf-8" := by
  rw [headOf_eq_take, hps]
  have hsniff := sniff_of_decode (Utf8.decode_of_isStart (Utf8.isStart_take text limit.toNat))
  refine ⟨rfl, ?_, hsniff⟩
  rw [hsniff]
  split
  · decide
  split <;> decide

theorem sniff_headOf_euro : headOf 3 [[0x78, 0xE2], [0x82, 0xAC]] = [0x78, 0xE2, 0x82] ∧
    sniff (headOf 3 [[0x78, 0xE2], [0x82, 0xAC]]) = some "utf-8" := by
  have h := @sniff_headOf ['x', '€'] 3 [[0x78, 0xE2], [0x82, 0xAC]] (by decide)
  exact ⟨h.1, h.2.2⟩

/-! ### Files that are found -/

/-- The content can be read in the encoding that is guessed from all of it: what stands behind a mark is
UTF-8, or without one it does not end inside a character. -/
def Legible (content : Bytes) : Prop :=
  if Marking.utf8.mark <+: content then ∃ text, Utf8.decode (content.drop 3) = .ok text
  else ∀ s, Utf8.decode content = .error s → s.reason ≠ Utf8.endReason

theorem decode_named {f : SourceFile} {name : String} {codec : Codec} (hf : f.encoding = some name)
    (hname : name.isEmpty = false ∧ Codec.ofName? name = some codec) :
    (∃ text, Job.decode f content = .ok text) ↔ ∃ text, codec.decode content = .ok text := by
  simp only [Job.decode, Job.encodingName, hf, hname, Bool.false_eq_true, if_false]
  cases codec.decode content <;> simp

theorem decode_sniffed {f : SourceFile} (hf : f.encoding = sniff content) (hsome : (sniff content).isSome)
    (hmark : ∀ order, ¬ (Marking.utf16 order).mark <+: content) :
    (∃ text, Job.decode f content = .ok text) ↔ Legible content := by
  have hmapped {x : Except Utf8.Stop Chars} (fault : Utf8.Stop → Encoding.Fault) :
      (∃ text, x.mapError fault = .ok text) ↔ ∃ text, x = .ok text := by cases x <;> simp [Except.mapError]
  unfold Legible
  rcases markedEncoding?_cases content with ⟨hutf8, hname⟩ | ⟨order, h⟩ | ⟨hutf8, hname⟩
  · have hsniff : sniff content = some "utf-8-sig" := by simp [sniff, hname]
    have hcodec : Codec.ofName? "utf-8-sig" = some .utf8Marked := by decide +kernel
    rw [decode_named (hf.trans hsniff) ⟨by decide, hcodec⟩, if_pos hutf8]
    obtain ⟨more, rfl⟩ := hutf8
    exact hmapped _
  · exact absurd h (hmark order)
  · have hbinary : ¬ isBinary content = true := fun h => by simp [sniff, hname, h] at hsome
    have hcodec : Codec.ofName? "utf-8" = some .utf8 := by decide +kernel
    have hlatin : Codec.ofName? "latin-1" = some .latin1 := by decide +kernel
    rw [if_neg hutf8]
    by_cases hlost : ∃ s, Utf8.decode content = .error s ∧ s.reason ≠ Utf8.endReason
    · obtain ⟨s, hs, hreason⟩ := hlost
      have hsniff : sniff content = some "latin-1" := by simp [sniff, hname, hbinary, hs, hreason]
      rw [decode_named (hf.trans hsniff) ⟨by decide, hlatin⟩]
      refine iff_of_true ⟨_, rfl⟩ fun s' hs' => ?_
      cases hs.symm.trans hs'
      exact hreason
    · have hsniff : sniff content = some "utf-8" := by
        simp only [sniff, hname, hbinary]
        cases hs : Utf8.decode content <;> simp_all
      rw [decode_named (hf.trans hsniff) ⟨by decide, hcodec⟩, Codec.decode, hmapped]
      cases hs : Utf8.decode content <;> simp_all

section

variable {d : Disk} {root : String} {spot : Spot} {es : Entries} {cfg : Config} {e : Entry}

theorem sources_eq (hroot : LeadsTo d root spot es) (he : view d.top cfg.followLinks spot (.directory es) = some e)
    (sink : Sink) : ∃ files sink', sources d root cfg sink = .ok (files, sink') ∧
      files = ((walk e).filter (found cfg)).map (fileOf cfg (d.fullPath spot)) := by
  obtain ⟨names, hnames, hspot, hentry⟩ := hroot
  refine ⟨_, (examineAll cfg (d.fullPath spot) (walk e) sink).2, ?_, (examineAll_eq cfg _ (walk e) sink).1⟩
  simp only [sources, hnames, hspot, hentry, he]

/-- A file that is found and was looked at as a whole can be read if and only if what stands behind its mark is
UTF-8, or it has no mark and does not end inside a character. -/
theorem sources_legible_iff (hroot : LeadsTo d root spot es)
    (he : view d.top cfg.followLinks spot (.directory es) = some e) (sink : Sink) :
    ∃ files sink', sources d root cfg sink = .ok (files, sink') ∧
      (∀ f ∈ files, ∃ s ∈ walk e, f = fileOf cfg (d.fullPath spot) s) ∧
      ∀ s ∈ walk e, fileOf cfg (d.fullPath spot) s ∈ files → (s.2.length : Int) ≤ cfg.sniffBytes →
        (∀ order, ¬ (Marking.utf16 order).mark <+: s.2) →
        ∀ d' : Disk, d'.read (Path.ofText (fileOf cfg (d.fullPath spot) s).realPath) = .ok s.2 →
          ((∃ text, Job.text d' { file := fileOf cfg (d.fullPath spot) s } = .ok text) ↔ Legible s.2) := by
  obtain ⟨files, sink', hsources, rfl⟩ := sources_eq hroot he sink
  refine ⟨_, sink', hsources, fun f hf => ?_, fun s _ hf hsize hmark d' hread => ?_⟩
  · obtain ⟨s, hs, rfl⟩ := mem_map.mp hf
    exact ⟨s, (mem_filter.mp hs).1, rfl⟩
  · obtain ⟨s', hs', hsame⟩ := mem_map.mp hf
    have hfound : found cfg s' = true := (mem_filter.mp hs').2
    have hencoding : sniffed cfg s' = sniffed cfg s := congrArg SourceFile.encoding hsame
    have hwhole : sniffed cfg s = sniff s.2 := by rw [sniffed, take_of_length_le (by omega)]
    simp only [found, hencoding, hwhole, Bool.and_eq_true] at hfound
    simp only [Job.text, hread]
    exact decode_sniffed hwhole hfound.2 hmark

end

/-- A disk with one file. -/
def lone (content : Bytes) : Disk where
  mount := { root := "/", names := ["work"] }
  top := .directory [("x.groovy", .file content)]

def loneFile (content : Bytes) : SourceFile := fileOf {} ((lone content).fullPath []) (["x.groovy"], content)

theorem leadsTo_lone (content : Bytes) : LeadsTo (lone content) "." [] [("x.groovy", .file content)] :=
  ⟨[], (by decide +kernel : (lone []).namesOf? (Path.ofText ".") = some []), rfl, rfl⟩

theorem walk_lone (content : Bytes) :
    ∃ e, view (lone content).top false [] (.directory [("x.groovy", .file content)]) = some e ∧
      walk e = [(["x.groovy"], content)] := by
  obtain ⟨e, he, hwalk⟩ := @walk_view [("x.groovy", .file content)] (lone content).top [] rfl
  exact ⟨e, he, by simp [hwalk, listing, listings, isTree, regular, byName]⟩

theorem sources_legible_iff_whole :
    ∃ files sink', sources (lone [0x78, 0xC3, 0xA9]) "." {} {} = .ok (files, sink') ∧
      loneFile [0x78, 0xC3, 0xA9] ∈ files ∧
      ∃ text, Job.text (lone [0x78, 0xC3, 0xA9]) { file := loneFile [0x78, 0xC3, 0xA9] } = .ok text := by
  obtain ⟨e, he, hwalk⟩ := walk_lone [0x78, 0xC3, 0xA9]
  obtain ⟨files, sink', hsources, -, hread⟩ := @sources_legible_iff _ _ _ _ {} e (leadsTo_lone _) he {}
  obtain ⟨files', _, hsources', hfiles⟩ := @sources_eq _ _ _ _ {} e (leadsTo_lone _) he {}
  obtain ⟨rfl, -⟩ := Prod.mk.inj (Except.ok.inj (hsources.symm.trans hsources'))
  have hfound : loneFile [0x78, 0xC3, 0xA9] ∈ files := by
    rw [hfiles, hwalk]
    exact mem_map_of_mem (mem_filter.mpr ⟨mem_singleton.mpr rfl, by decide +kernel⟩)
  refine ⟨files, sink', hsources, hfound, ?_⟩
  refine (hread _ (by simp [hwalk]) hfound (by decide) (fun order => by cases order <;> decide) _
    (by decide +kernel)).mpr ?_
  rw [Legible, if_neg (by decide)]
  intro s hs
  cases hs

theorem cut_file_unreadable :
    ∃ files sink', sources (lone [0x78, 0xC3]) "." {} {} = .ok (files, sink') ∧
      ∃ f ∈ files, f.encoding = some "utf-8" ∧
        (lone [0x78, 0xC3]).read (Path.ofText f.realPath) = .ok [0x78, 0xC3] ∧
        ¬ ∃ text, Job.text (lone [0x78, 0xC3]) { file := f } = .ok text := by
  obtain ⟨e, he, hwalk⟩ := walk_lone [0x78, 0xC3]
  obtain ⟨files, sink', hsources, hfiles⟩ := @sources_eq _ _ _ _ {} e (leadsTo_lone _) he {}
  refine ⟨_, sink', hsources, loneFile [0x78, 0xC3], ?_, by decide +kernel, by decide +kernel, ?_⟩
  · rw [hfiles, hwalk]
    exact mem_map_of_mem (mem_filter.mpr ⟨mem_singleton.mpr rfl, by decide +kernel⟩)
  · have hnone : (Job.text (lone [0x78, 0xC3]) { file := loneFile [0x78, 0xC3] }).toOption = none := by decide +kernel
    rintro ⟨text, h⟩
    rw [h] at hnone
    cases hnone

end GroovySharp.Discovery
