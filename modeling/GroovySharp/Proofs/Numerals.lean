import GroovySharp.Proofs.Lexeme
import GroovySharp.Text.Numeral

/-!
# Texts of digits as numbers

A text of digits of any script is read as its value in the decimal system, unless there are too many.
-/

namespace GroovySharp.Text

open Grammar List

def numeralValue (text : Chars) : Nat := digitsValue (text.map numeralChar)

theorem isDigit_numeralChar {c : Char} (h : Unicode.isDigit c = true) : (numeralChar c).isDigit = true := by
  have hspace : Unicode.isSpace c = false := by
    have hplain := isPlain_of_isDigit h
    simp only [isPlain, Bool.and_eq_true, Bool.not_eq_true'] at hplain
    exact hplain.1.1.1.1
  have hofNat : ∀ n : Fin 10, (Char.ofNat (0x30 + n.val)).isDigit = true := by decide
  unfold Unicode.isDigit at h
  unfold numeralChar
  split
  · next hascii =>
    rw [Unicode.digitValue?, if_pos (by omega)] at h
    split at h
    · assumption
    · cases h
  · obtain ⟨n, hn⟩ := Option.isSome_iff_exists.mp h
    have hlt : n < 10 := by
      unfold Unicode.digitValue? at hn
      split at hn
      · split at hn
        · next hd =>
          simp only [Char.isDigit, Bool.and_eq_true, decide_eq_true_eq, UInt32.le_iff_toNat_le] at hd
          have hle : c.toNat ≤ 57 := hd.2
          have hn := Option.some.inj hn
          omega
        · cases hn
      · obtain ⟨r, -, rfl⟩ := Option.map_eq_some_iff.mp hn
        exact Nat.mod_lt _ (by decide)
    rw [hspace, hn]
    exact hofNat ⟨n, hlt⟩

theorem forall_digits {P : Char → Prop} (h : ∀ n ∈ range' 48 10, P (Char.ofNat n)) {d : Char}
    (hd : d.isDigit = true) : P d := by
  simp only [Char.isDigit, Bool.and_eq_true, decide_eq_true_eq, UInt32.le_iff_toNat_le] at hd
  have hn := h d.toNat (mem_range'_1.mpr ⟨hd.1, Nat.lt_succ_of_le hd.2⟩)
  rwa [Char.ofNat_toNat] at hn

theorem ne_underscore_of_isDigit {d : Char} (h : d.isDigit = true) : d ≠ '_' := by
  rintro rfl
  cases h

theorem underscoresFit_digits {ds : Chars} (h : ∀ d ∈ ds, d.isDigit = true) : underscoresFit ds = true := by
  have hfits : ∀ ds : Chars, (∀ d ∈ ds, d.isDigit = true) → underscoresFit.fits ds = true := by
    intro ds
    induction ds with
    | nil => exact fun _ => rfl
    | cons d ds ih =>
      intro h
      have hd := ne_underscore_of_isDigit (h d mem_cons_self)
      rw [underscoresFit.fits]
      · exact ih fun d hd => h d (mem_cons_of_mem _ hd)
      · exact fun heq => absurd heq hd
      · exact fun _ heq _ => absurd heq hd
  cases ds with
  | nil => rfl
  | cons d ds =>
    rw [underscoresFit]
    · exact hfits _ h
    · intro _ heq
      exact absurd (cons.inj heq).1 (ne_underscore_of_isDigit (h d mem_cons_self))

theorem takeSign_digits {d : Char} (h : d.isDigit = true) (ds : Chars) :
    takeSign ((d :: ds).dropWhile isNumeralBlank) = (false, d :: ds) := by
  have hblank : isNumeralBlank d = false := forall_digits (P := fun d => isNumeralBlank d = false) (by decide) h
  rw [dropWhile_cons_of_neg (by simp [hblank]), takeSign]
  all_goals
    intro _ heq
    obtain rfl := (cons.inj heq).1
    cases h

theorem readInteger_digits {cs : Chars} (hne : cs ≠ []) (hall : cs.all Unicode.isDigit = true) : readInteger cs =
      if maxDigits < cs.length then .error (.tooLong cs.length) else .ok (numeralValue cs) := by
  have hdigits : ∀ d ∈ cs.map numeralChar, d.isDigit = true := by
    intro d hd
    obtain ⟨c, hc, rfl⟩ := mem_map.mp hd
    exact isDigit_numeralChar (all_eq_true.mp hall c hc)
  have hlength : (cs.map numeralChar).length = cs.length := length_map _
  have hsome : cs.map numeralChar ≠ [] := fun h => hne (map_eq_nil_iff.mp h)
  unfold readInteger numeralValue
  generalize cs.map numeralChar = ds at hdigits hlength hsome
  obtain ⟨d, ds, rfl⟩ := exists_cons_of_ne_nil hsome
  have hbody : ∀ c ∈ d :: ds, (c.isDigit || c == '_') = true := fun c hc => by rw [hdigits c hc, Bool.true_or]
  have htake : (d :: ds).takeWhile (fun c => c.isDigit || c == '_') = d :: ds := by
    have happend : ((d :: ds) ++ []).takeWhile _ = _ := takeWhile_append_of_pos hbody
    rwa [append_nil, takeWhile_nil, append_nil] at happend
  have hdrop : (d :: ds).dropWhile (fun c => c.isDigit || c == '_') = [] := by
    have happend := takeWhile_append_dropWhile (p := fun c => c.isDigit || c == '_') (l := d :: ds)
    rw [htake] at happend
    exact append_right_eq_self.mp happend
  have hcount : (d :: ds).countP Char.isDigit = cs.length := by rw [countP_eq_length.mpr hdigits, hlength]
  have hpos : cs.length ≠ 0 := by simp [← hlength]
  rw [takeSign_digits (hdigits d mem_cons_self)]
  simp only [htake, hdrop, hcount, underscoresFit_digits hdigits, hpos, Bool.not_true,
    Bool.false_eq_true, if_false, all_nil, or_self]

end GroovySharp.Text
