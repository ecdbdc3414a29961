import GroovySharp.Discovery
import GroovySharp.Registry.Basic

/-!
# Texts behind a byte order mark

What is read from a file that starts with a mark: the text for UTF-8, the mark and the text for UTF-16.
-/

namespace GroovySharp.Encoding

open List

theorem toNat_byte {n : Nat} (h : n < 0x100) : n.toUInt8.toNat = n := by
  simp [Nat.toUInt8, UInt8.toNat_ofNat', Nat.mod_eq_of_lt h]

/-! ### UTF-8 -/

namespace Utf8

theorem isTail_byte {n : Nat} (h : n < 0x40) : isTail (0x80 + n).toUInt8 = true := by
  rw [isTail, toNat_byte (by omega), beq_iff_eq]
  omega

theorem tailBits_byte {n : Nat} (h : n < 0x40) : tailBits (0x80 + n).toUInt8 = n := by
  rw [tailBits, toNat_byte (by omega)]
  omega

theorem canFollow_eq_true_iff {lead second : UInt8} : canFollow lead second = true ↔ isTail second = true ∧
      (lead.toNat = 0xE0 → 0xA0 ≤ second.toNat) ∧ (lead.toNat = 0xED → second.toNat < 0xA0) ∧
      (lead.toNat = 0xF0 → 0x90 ≤ second.toNat) ∧ (lead.toNat = 0xF4 → second.toNat < 0x90) := by
  rw [canFollow, Bool.and_eq_true]
  split <;> simp_all

/-- The bytes of a character are read as that character, whatever follows. -/
theorem step_encodeNat {n : Nat} (h : n.isValidChar) (rest : Bytes) :
    ∃ lead tail, encodeNat n = lead :: tail ∧ step lead (tail ++ rest) = .char n (tail.length + 1) := by
  have hvalid : n < 0xD800 ∨ 0xDFFF < n ∧ n < 0x110000 := h
  unfold encodeNat
  split
  · refine ⟨_, _, rfl, ?_⟩
    rw [step, toNat_byte (by omega), if_pos ‹_›]
    rfl
  split
  · refine ⟨_, _, rfl, ?_⟩
    have hlead := @toNat_byte (0xC0 + n / 0x40) (by omega)
    simp only [step, hlead, cons_append, stepTwo, isTail_byte (Nat.mod_lt n (by decide)),
      tailBits_byte (Nat.mod_lt n (by decide)), if_true]
    repeat rw [if_neg (by omega)]
    rw [if_pos (by omega)]
    congr 1
    omega
  split
  · refine ⟨_, _, rfl, ?_⟩
    have hlead := @toNat_byte (0xE0 + n / 0x1000) (by omega)
    have hfollow : canFollow (0xE0 + n / 0x1000).toUInt8 (0x80 + n / 0x40 % 0x40).toUInt8 = true := by
      rw [canFollow_eq_true_iff, isTail_byte (Nat.mod_lt _ (by decide)), hlead, toNat_byte (by omega)]
      refine ⟨rfl, ?_, ?_, ?_, ?_⟩ <;> omega
    simp only [step, hlead, cons_append, stepThree, hfollow, isTail_byte (Nat.mod_lt n (by decide)),
      tailBits_byte (Nat.mod_lt _ (by decide : 0 < 0x40)), Bool.not_true, Bool.false_eq_true, if_false]
    repeat rw [if_neg (by omega)]
    rw [if_pos (by omega)]
    congr 1
    omega
  · refine ⟨_, _, rfl, ?_⟩
    have hlead := @toNat_byte (0xF0 + n / 0x40000) (by omega)
    have hfollow : canFollow (0xF0 + n / 0x40000).toUInt8 (0x80 + n / 0x1000 % 0x40).toUInt8 = true := by
      rw [canFollow_eq_true_iff, isTail_byte (Nat.mod_lt _ (by decide)), hlead, toNat_byte (by omega)]
      refine ⟨rfl, ?_, ?_, ?_, ?_⟩ <;> omega
    simp only [step, hlead, cons_append, stepFour, hfollow, isTail_byte (Nat.mod_lt _ (by decide : 0 < 0x40)),
      tailBits_byte (Nat.mod_lt _ (by decide : 0 < 0x40)), Bool.not_true, Bool.false_eq_true, if_false]
    repeat rw [if_neg (by omega)]
    rw [if_pos (by omega)]
    congr 1
    omega

theorem decodeFrom_skip (offset : Nat) (seen : Chars) (tail rest : Bytes) :
    decodeFrom offset tail.length seen (tail ++ rest) = decodeFrom (offset + tail.length) 0 seen rest := by
  induction tail generalizing offset with
  | nil => rfl
  | cons b tail ih =>
    rw [cons_append, length_cons, decodeFrom, ih]
    congr 1
    omega

theorem decodeFrom_encode (offset : Nat) (seen cs : Chars) (rest : Bytes) :
    ∃ offset', decodeFrom offset 0 seen (encode cs ++ rest) = decodeFrom offset' 0 (cs.reverse ++ seen) rest := by
  induction cs generalizing offset seen with
  | nil => exact ⟨offset, rfl⟩
  | cons c cs ih =>
    obtain ⟨lead, tail, hbytes, hstep⟩ := step_encodeNat c.valid (encode cs ++ rest)
    obtain ⟨offset', h⟩ := ih (offset + 1 + tail.length) (c :: seen)
    refine ⟨offset', ?_⟩
    have hc : encode (c :: cs) = lead :: tail ++ encode cs := by rw [← hbytes]; rfl
    have hchar : Char.ofNat c.val.toNat = c := Char.ofNat_toNat c
    rw [hc, append_assoc, cons_append, decodeFrom]
    simp only [hstep, Nat.add_sub_cancel, hchar]
    rw [decodeFrom_skip, h]
    simp

theorem decode_encode (cs : Chars) : decode (encode cs) = .ok cs := by
  obtain ⟨offset, h⟩ := decodeFrom_encode 0 [] cs []
  rw [decode, ← append_nil (encode cs), h, decodeFrom]
  simp

end Utf8

/-! ### UTF-16 -/

namespace Utf16

def unitBytes (order : Order) (n : Nat) : Bytes :=
  match order with
  | .lowFirst => [(n % 0x100).toUInt8, (n / 0x100).toUInt8]
  | .highFirst => [(n / 0x100).toUInt8, (n % 0x100).toUInt8]

def charBytes (order : Order) (c : Char) : Bytes :=
  if c.toNat < 0x10000 then unitBytes order c.toNat
  else
    unitBytes order (0xD800 + (c.toNat - 0x10000) / 0x400) ++ unitBytes order (0xDC00 + (c.toNat - 0x10000) % 0x400)

def encode (order : Order) (cs : Chars) : Bytes := cs.flatMap (charBytes order)

theorem exists_unitBytes (order : Order) {n : Nat} (h : n < 0x10000) :
    ∃ a b, unitBytes order n = [a, b] ∧ unit order a b = n := by
  have hhigh := @toNat_byte (n / 0x100) (by omega)
  have hlow := @toNat_byte (n % 0x100) (by omega)
  cases order <;> refine ⟨_, _, rfl, ?_⟩ <;> simp only [unit, hhigh, hlow] <;> omega

theorem decodeFrom_unit {order : Order} {a b : UInt8} (hhigh : isHigh (unit order a b) = false)
    (hlow : isLow (unit order a b) = false) (offset : Nat) (seen : Chars) (rest : Bytes) :
    decodeFrom order offset seen (a :: b :: rest) =
      decodeFrom order (offset + 2) (Char.ofNat (unit order a b) :: seen) rest := by
  rcases rest with _ | ⟨c, _ | ⟨d, rest⟩⟩ <;> rw [decodeFrom] <;> simp [hhigh, hlow, decodeFrom]

theorem decodeFrom_charBytes (order : Order) (offset : Nat) (seen : Chars) (c : Char) (rest : Bytes) :
    ∃ offset', decodeFrom order offset seen (charBytes order c ++ rest) =
      decodeFrom order offset' (c :: seen) rest := by
  have hvalid : c.toNat < 0xD800 ∨ 0xDFFF < c.toNat ∧ c.toNat < 0x110000 := c.valid
  unfold charBytes
  split
  · next hn =>
    obtain ⟨a, b, hbytes, hunit⟩ := exists_unitBytes order hn
    refine ⟨offset + 2, ?_⟩
    rw [hbytes, cons_append, singleton_append, decodeFrom_unit, hunit, Char.ofNat_toNat]
    · simp only [isHigh, hunit, Bool.and_eq_false_iff, decide_eq_false_iff_not]
      omega
    · simp only [isLow, hunit, Bool.and_eq_false_iff, decide_eq_false_iff_not]
      omega
  · obtain ⟨a, b, hfirst, hhigh⟩ :=
      @exists_unitBytes order (0xD800 + (c.toNat - 0x10000) / 0x400) (by omega)
    obtain ⟨a', b', hsecond, hlow⟩ :=
      @exists_unitBytes order (0xDC00 + (c.toNat - 0x10000) % 0x400) (by omega)
    refine ⟨offset + 4, ?_⟩
    have hpair : pair (unit order a b) (unit order a' b') = c := by
      have hcode : 0x10000 + (0xD800 + (c.toNat - 0x10000) / 0x400 - 0xD800) * 0x400 +
          (0xDC00 + (c.toNat - 0x10000) % 0x400 - 0xDC00) = c.toNat := by omega
      rw [pair, hhigh, hlow, hcode, Char.ofNat_toNat]
    have hisHigh : isHigh (unit order a b) = true := by
      simp only [isHigh, hhigh, Bool.and_eq_true, decide_eq_true_eq]
      omega
    have hisLow : isLow (unit order a' b') = true := by
      simp only [isLow, hlow, Bool.and_eq_true, decide_eq_true_eq]
      omega
    simp [hfirst, hsecond, decodeFrom, hisHigh, hisLow, hpair]

theorem decodeFrom_encode (order : Order) (offset : Nat) (seen cs : Chars) :
    decodeFrom order offset seen (encode order cs) = .ok (seen.reverse ++ cs) := by
  induction cs generalizing offset seen with
  | nil => simp [encode, decodeFrom]
  | cons c cs ih =>
    obtain ⟨offset', h⟩ := decodeFrom_charBytes order offset seen c (encode order cs)
    rw [encode, flatMap_cons, ← encode, h, ih]
    simp

end Utf16

/-! ### Marks -/

/-- The encodings that a mark at the start of a file stands for. -/
inductive Marking
  | utf8
  | utf16 (order : Utf16.Order)

namespace Marking

def mark : Marking → Bytes
  | utf8 => [0xEF, 0xBB, 0xBF]
  | utf16 .lowFirst => [0xFF, 0xFE]
  | utf16 .highFirst => [0xFE, 0xFF]

def encode : Marking → Chars → Bytes
  | utf8 => Utf8.encode
  | utf16 order => Utf16.encode order

def content (m : Marking) (text : Chars) : Bytes := m.mark ++ m.encode text

/-- What is left of the mark in the text that is read. -/
def remains : Marking → Chars
  | utf8 => []
  | utf16 _ => ['\uFEFF']

def codec : Marking → Codec
  | utf8 => .utf8Marked
  | utf16 order => .utf16 order

theorem ofName?_sniff (m : Marking) (text : Chars) {k : Nat} (hk : m.mark.length ≤ k) :
    ∃ name, Discovery.sniff ((m.content text).take k) = some name ∧ name.isEmpty = false ∧
      Codec.ofName? name = some m.codec := by
  rw [content, take_append, take_of_length_le hk]
  rcases m with _ | _ | _ <;> refine ⟨_, rfl, ?_, ?_⟩ <;> decide +kernel

theorem mark_eq_encode (order : Utf16.Order) : (utf16 order).mark = Utf16.encode order ['\uFEFF'] := by
  cases order <;> decide

theorem decode_content (m : Marking) (text : Chars) :
    m.codec.decode (m.content text) = .ok (m.remains ++ text) := by
  cases m with
  | utf8 => exact congrArg (Except.mapError _) (Utf8.decode_encode text)
  | utf16 order =>
    have hcontent : (utf16 order).content text = Utf16.encode order ('\uFEFF' :: text) := by
      rw [content, mark_eq_encode, encode]
      simp [Utf16.encode]
    have hdecode := Utf16.decodeFrom_encode order 0 [] ('\uFEFF' :: text)
    rw [hcontent]
    cases order <;> exact congrArg (Except.mapError _) hdecode

end Marking

end GroovySharp.Encoding

namespace GroovySharp.Job

open Encoding

/-- A file with a byte order mark is read as its text if it is in UTF-8, and as the mark and its text if it
is in UTF-16. -/
theorem decode_marked (m : Marking) (text : Chars) {k : Nat} (hk : m.mark.length ≤ k) {f : SourceFile}
    (hf : f.encoding = Discovery.sniff ((m.content text).take k)) :
    decode f (m.content text) = .ok (m.remains ++ text) ∧ (decode f (m.content text) = .ok text ↔ m = .utf8) := by
  obtain ⟨name, hname, hsome, hcodec⟩ := m.ofName?_sniff text hk
  have hencoding : encodingName f = name := by simp [encodingName, hf, hname, hsome]
  have hdecode : decode f (m.content text) = .ok (m.remains ++ text) := by
    simp only [decode, hencoding, hcodec, m.decode_content text]
  refine ⟨hdecode, ?_⟩
  rw [hdecode]
  cases m <;> simp [Marking.remains]

theorem decode_marked_emoji :
    ∃ f : SourceFile, f.encoding = Discovery.sniff (((Marking.utf16 .highFirst).content ['x', '😀']).take 2) ∧
      decode f ((Marking.utf16 .highFirst).content ['x', '😀']) = .ok ['\uFEFF', 'x', '😀'] :=
  ⟨{ (default : SourceFile) with encoding := _ }, rfl,
    (@decode_marked (.utf16 .highFirst) ['x', '😀'] 2 (by decide) _ rfl).1⟩

theorem mark_kept_from_utf16 :
    ∃ f : SourceFile, f.encoding = Discovery.sniff ((Marking.utf16 .lowFirst).content "x = 1".toList) ∧
      decode f ((Marking.utf16 .lowFirst).content "x = 1".toList) ≠ .ok "x = 1".toList := by
  refine ⟨{ (default : SourceFile) with encoding := _ }, rfl, fun h => ?_⟩
  have hread := congrArg Except.toOption h
  revert hread
  decide +kernel

end GroovySharp.Job
