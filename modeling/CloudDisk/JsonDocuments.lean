import CloudDisk.JsonBodies
import CloudDisk.JsonGrammar
import CloudDisk.JsonTexts
import Mathlib.Data.Rat.Lemmas
import Mathlib.Tactic.FieldSimp
import Mathlib.Tactic.Linarith
import Mathlib.Tactic.Positivity

/-! # What the parser makes of a JSON text

Every text of the grammar is accepted, whatever its blanks, its escapes and the spelling of its
numbers, and gives the value it stands for: strings up to their first NUL, and of a number the
`int` of the double next to it. Numbers may have 63 bytes and levels are limited. -/
namespace JsonDocuments

open ByteStrings JsonBodies JsonTexts JsonGrammar

/-- `valueint` of a number: the double next to it without its fraction, inside the range. -/
def valueint (q : ℚ) : ℤ :=
  saturate (if q < 0 then -truncDouble q.num.natAbs q.den else truncDouble q.num.natAbs q.den)

def cJson : Reading Json where
  null := .null
  bool := .bool
  number q := .number (valueint q)
  string s := .string (untilNul s)
  array := .array
  object ms := .object (ms.map fun m => (untilNul m.1, m.2))

def numberBytes : ℕ := 63

/-! ## Blanks -/

theorem skip_blank {w : List UInt8} (hw : Blank w) {b : UInt8} (hb : 32 < b) (rest : List UInt8) :
    bufferSkipWhitespace (w ++ b :: rest) = b :: rest := by
  have hall : ∀ x ∈ w, decide (x ≤ (32 : UInt8)) = true := by
    intro x hx
    rcases hw x hx with rfl | rfl | rfl | rfl <;> decide
  have hstop : ¬ b ≤ 32 := UInt8.not_le.mpr hb
  simp [bufferSkipWhitespace, List.dropWhile_append_of_pos hall, hstop]

theorem skip_opens {w t : List UInt8} (hw : Blank w) (ht : Opens t) :
    bufferSkipWhitespace (w ++ t) = t := by
  obtain ⟨b, rest, rfl, hb, -⟩ := ht
  exact skip_blank hw hb rest

def Follows (rest : List UInt8) : Prop := ∀ b ∈ rest.head?, isNumberByte b = false

theorem follows_blank {w : List UInt8} (hw : Blank w) {b : UInt8} (hb : isNumberByte b = false)
    (rest : List UInt8) : Follows (w ++ b :: rest) := by
  intro x hx
  cases w with
  | nil =>
    obtain rfl : b = x := by simpa using hx
    exact hb
  | cons y w =>
    obtain rfl : y = x := by simpa using hx
    rcases hw y List.mem_cons_self with rfl | rfl | rfl | rfl <;> decide

/-! ## Strings -/

theorem hexDigit_of_hex {b : UInt8} {n : ℕ} (h : Hex b n) : hexDigit b = some n := by
  have hnat : b = UInt8.ofNat b.toNat := UInt8.ofNat_toNat.symm
  have hall : ∀ n < 16, hexDigit (UInt8.ofNat (if n < 10 then 48 + n else 55 + n)) = some n ∧
      hexDigit (UInt8.ofNat (if n < 10 then 48 + n else 87 + n)) = some n := by decide
  rcases h with ⟨hn, hb⟩ | ⟨hlow, hn, hb | hb⟩
  · have := (hall n (by omega)).1
    rwa [if_pos hn, ← hb, ← hnat] at this
  · have := (hall n hn).1
    rwa [if_neg (by omega), ← hb, ← hnat] at this
  · have := (hall n hn).2
    rwa [if_neg (by omega), ← hb, ← hnat] at this

theorem hex_plain {b : UInt8} {n : ℕ} (h : Hex b n) : b ≠ quote ∧ b ≠ backslash := by
  have hquote : hexDigit quote = none := by decide
  have hslash : hexDigit backslash = none := by decide
  constructor <;> rintro rfl
  · simp [hexDigit_of_hex h] at hquote
  · simp [hexDigit_of_hex h] at hslash

theorem parseHex4_of_hex {a b c d : UInt8} {i j k l : ℕ} (ha : Hex a i) (hb : Hex b j)
    (hc : Hex c k) (hd : Hex d l) :
    parseHex4 a b c d = 4096 * i + 256 * j + 16 * k + l := by
  simp only [parseHex4, hexDigit_of_hex ha, hexDigit_of_hex hb, hexDigit_of_hex hc,
    hexDigit_of_hex hd]

theorem encodeUtf8_eq (c : Char) : encodeUtf8 c.toNat = String.utf8EncodeChar c := by
  have hmax : c.toNat < 1114112 := by
    rcases c.valid with h | ⟨-, h⟩
    · exact Nat.lt_trans h (by decide)
    · exact h
  have hval : c.val.toNat = c.toNat := rfl
  simp only [encodeUtf8, String.utf8EncodeChar, hval, Nat.add_comm (_ % _)]
  by_cases h1 : c.toNat < 128
  · rw [if_pos h1, if_pos (show c.toNat ≤ 127 by omega)]
  rw [if_neg h1, if_neg (show ¬ c.toNat ≤ 127 by omega)]
  by_cases h2 : c.toNat < 2048
  · rw [if_pos h2, if_pos (show c.toNat ≤ 2047 by omega),
      Nat.mod_eq_of_lt (show c.toNat / 64 < 32 by omega)]
  rw [if_neg h2, if_neg (show ¬ c.toNat ≤ 2047 by omega)]
  by_cases h3 : c.toNat < 65536
  · rw [if_pos h3, if_pos (show c.toNat ≤ 65535 by omega),
      Nat.mod_eq_of_lt (show c.toNat / 4096 < 16 by omega)]
  · rw [if_neg h3, if_neg (show ¬ c.toNat ≤ 65535 by omega),
      Nat.mod_eq_of_lt (show c.toNat / 262144 < 8 by omega)]

theorem not_surrogate (c : Char) :
    isLowSurrogate c.toNat = false ∧ isHighSurrogate c.toNat = false := by
  have hvalid : c.toNat < 55296 ∨ 57343 < c.toNat := by
    rcases c.valid with h | ⟨h, -⟩
    · exact Or.inl h
    · exact Or.inr h
  simp only [isLowSurrogate, isHighSurrogate, decide_eq_false_iff_not]
  omega

theorem escaped_short {letter b : UInt8} (h : (letter, b) ∈ shortEscapes) :
    letter ≠ letterU ∧ escaped letter = some b := by
  simp only [shortEscapes, List.mem_cons, Prod.mk.injEq, List.not_mem_nil, or_false] at h
  rcases h with ⟨rfl, rfl⟩ | ⟨rfl, rfl⟩ | ⟨rfl, rfl⟩ | ⟨rfl, rfl⟩ | ⟨rfl, rfl⟩ | ⟨rfl, rfl⟩ |
    ⟨rfl, rfl⟩ | ⟨rfl, rfl⟩ <;> exact ⟨by decide, by decide⟩

theorem unescape_chars {t s : List UInt8} (h : Chars t s) : unescape t = some s := by
  induction h with
  | nil => rfl
  | plain hb hquote hslash h ih =>
    rw [unescape.eq_def]
    simp [show _ ≠ backslash from hslash, ih]
  | short hb h ih =>
    obtain ⟨hu, he⟩ := escaped_short hb
    rw [unescape.eq_def]
    simp [show (92 : UInt8) = backslash from rfl, hu, he, ih]
  | @code c digits t s hd h ih =>
    obtain ⟨hlow, hhigh⟩ := not_surrogate c
    generalize hn : c.toNat = n at hd
    obtain ⟨ha, hb, hc, hd⟩ := hd
    rw [unescape.eq_def]
    simp [show (92 : UInt8) = backslash from rfl, show (117 : UInt8) = letterU from rfl,
      parseHex4_of_hex ha hb hc hd, hlow, hhigh, ih, ← hn, encodeUtf8_eq]
  | @pair c high low t s hc hh hl h ih =>
    have hmax : c.toNat < 1114112 := by
      rcases c.valid with h | ⟨-, h⟩
      · exact Nat.lt_trans h (by decide)
      · exact h
    generalize hfirst : 55296 + (c.toNat - 65536) / 1024 = first at hh
    generalize hsecond : 56320 + (c.toNat - 65536) % 1024 = second at hl
    have hhigh : isLowSurrogate first = false ∧ isHighSurrogate first = true := by
      simp only [isLowSurrogate, isHighSurrogate, decide_eq_false_iff_not, decide_eq_true_eq]
      omega
    have hlow : isLowSurrogate second = true := by
      simp only [isLowSurrogate, decide_eq_true_eq]
      omega
    have hcode : 65536 + 1024 * (first % 1024) + second % 1024 = c.toNat := by omega
    obtain ⟨ha, hb, hc, hd⟩ := hh
    obtain ⟨ha', hb', hc', hd'⟩ := hl
    rw [unescape.eq_def]
    simp [show (92 : UInt8) = backslash from rfl, show (117 : UInt8) = letterU from rfl,
      parseHex4_of_hex ha hb hc hd, parseHex4_of_hex ha' hb' hc' hd', hhigh, hlow, ih, hcode,
      encodeUtf8_eq]

theorem literalBytes_pair (c : UInt8) (rest : List UInt8) :
    literalBytes (92 :: c :: rest) =
      (literalBytes rest).map fun q => (92 :: c :: q.1, q.2) := by
  rw [literalBytes.eq_def]
  simp [show ¬ backslash = quote by decide, show (92 : UInt8) = backslash from rfl]

theorem literalBytes_hex4 {digits : List UInt8} {n : ℕ} (h : Hex4 digits n) (rest : List UInt8) :
    literalBytes (digits ++ rest) = (literalBytes rest).map fun q => (digits ++ q.1, q.2) := by
  obtain ⟨ha, hb, hc, hd⟩ := h
  simp only [List.cons_append, List.nil_append,
    literalBytes_plain (hex_plain ha).1 (hex_plain ha).2,
    literalBytes_plain (hex_plain hb).1 (hex_plain hb).2,
    literalBytes_plain (hex_plain hc).1 (hex_plain hc).2,
    literalBytes_plain (hex_plain hd).1 (hex_plain hd).2, Option.map_map, Function.comp_def]

theorem literalBytes_chars {t s : List UInt8} (h : Chars t s) (rest : List UInt8) :
    literalBytes (t ++ quote :: rest) = some (t, rest) := by
  induction h with
  | nil =>
    rw [List.nil_append, literalBytes.eq_def]
    exact if_pos rfl
  | plain hb hquote hslash h ih =>
    rw [List.cons_append, literalBytes_plain hquote hslash, ih]
    rfl
  | short hb h ih =>
    rw [List.cons_append, List.cons_append, literalBytes_pair, ih]
    rfl
  | code hd h ih =>
    rw [List.cons_append, List.cons_append, List.append_assoc, literalBytes_pair,
      literalBytes_hex4 hd, ih]
    rfl
  | pair hc hh hl h ih =>
    simp only [List.cons_append, List.append_assoc, literalBytes_pair, literalBytes_hex4 hh,
      literalBytes_hex4 hl, ih, Option.map_some]

theorem parseString_quoted {s t : List UInt8} (h : Quoted s t) (rest : List UInt8) :
    parseString (t ++ rest) = some (untilNul s, rest) := by
  obtain ⟨h⟩ := h
  have htext : ∀ t : List UInt8, 34 :: (t ++ [34]) ++ rest = quote :: (t ++ quote :: rest) := by
    intro t
    simp [quote]
  rw [htext, parseString, if_pos rfl, literalBytes_chars h]
  simp [unescape_chars h]

/-! ## Numbers -/

theorem isDigit_of_digits {l : List UInt8} (h : Digits l) : ∀ b ∈ l, isDigit b = true := by
  intro b hb
  exact decide_eq_true (h b hb)

theorem takeWhile_digits {l rest : List UInt8} (h : Digits l)
    (hrest : ∀ b ∈ rest.head?, isDigit b = false) : (l ++ rest).takeWhile isDigit = l := by
  rw [List.takeWhile_append_of_pos (isDigit_of_digits h)]
  cases rest with
  | nil => simp
  | cons b rest => simp [hrest b rfl]

theorem decimal_eq (l : List UInt8) : JsonBodies.decimal l = JsonGrammar.decimal l := rfl

theorem head_digit {l rest : List UInt8} (h : Digits l) (hne : l ≠ []) :
    (l ++ rest).head? ≠ some minus ∧ (l ++ rest).head? ≠ some plus := by
  obtain ⟨b, l, rfl⟩ := List.exists_cons_of_ne_nil hne
  have hb := h b List.mem_cons_self
  constructor
  · intro heq
    obtain rfl : b = minus := by simpa using heq
    exact absurd hb.1 (by decide)
  · intro heq
    obtain rfl : b = plus := by simpa using heq
    exact absurd hb.1 (by decide)

theorem exponentPart_text (e : Exponent) : exponentPart e.text = (e.value, e.text.length) := by
  have hdigits : e.digits.takeWhile isDigit = e.digits :=
    List.takeWhile_eq_self_iff.mpr (isDigit_of_digits e.all_digits)
  have hhead := @head_digit e.digits [] e.all_digits e.some_digit
  rw [List.append_nil] at hhead
  have hne := e.some_digit
  have hletter : e.letter = 101 ∨ e.letter = 69 := e.letter_eq
  rw [Exponent.text, exponentPart, if_pos hletter]
  cases hsign : e.sign with
  | none =>
    simp [Exponent.signText, hsign, hhead, hdigits, hne, Exponent.value, decimal_eq]
    omega
  | some negative =>
    cases negative with
    | true =>
      simp [Exponent.signText, hsign, hdigits, hne, Exponent.value, decimal_eq,
        show (45 : UInt8) = minus from rfl]
      omega
    | false =>
      simp [Exponent.signText, hsign, hdigits, hne, Exponent.value, decimal_eq,
        show (43 : UInt8) = plus from rfl, show plus ≠ minus by decide]
      omega

section Literals
variable (l : Literal)

theorem head_text : l.text.head? = some minus ↔ l.negative = true := by
  have hwhole := (@head_digit l.whole (l.fractionText ++ l.exponentText) l.whole_digits
    l.some_digit).1
  cases hneg : l.negative with
  | true => simp [Literal.text, Literal.signText, hneg, minus]
  | false =>
    have htext : l.text = l.whole ++ (l.fractionText ++ l.exponentText) := by
      simp [Literal.text, Literal.signText, hneg]
    rw [htext]
    exact iff_of_false hwhole (by simp)

theorem body_text : (if l.text.head? = some minus then l.text.tail else l.text) =
    l.whole ++ (l.fractionText ++ l.exponentText) := by
  rw [if_congr (head_text l) rfl rfl]
  cases hneg : l.negative <;> simp [Literal.text, Literal.signText, hneg]

theorem head_exponent : ∀ b ∈ l.exponentText.head?, isDigit b = false ∧ b ≠ dot := by
  intro b hb
  rw [Literal.exponentText] at hb
  cases hexp : l.exponent with
  | none => simp [hexp] at hb
  | some e =>
    obtain rfl : e.letter = b := by simpa [hexp, Exponent.text] using hb
    rcases e.letter_eq with h | h <;> rw [h] <;> exact ⟨by decide, by decide⟩

theorem head_fraction : ∀ b ∈ (l.fractionText ++ l.exponentText).head?, isDigit b = false := by
  intro b hb
  rw [Literal.fractionText] at hb
  split at hb
  · exact (head_exponent l b hb).1
  · obtain rfl : dot = b := by simpa [dot] using hb
    decide

theorem exponentPart_exponentText :
    exponentPart l.exponentText = (l.exponent.elim 0 Exponent.value, l.exponentText.length) := by
  rw [Literal.exponentText]
  cases l.exponent with
  | none => rfl
  | some e => exact exponentPart_text e

theorem head_dot : (l.fractionText ++ l.exponentText).head? = some dot ↔ l.fraction ≠ [] := by
  by_cases h : l.fraction = []
  · rw [Literal.fractionText, if_pos h]
    refine iff_of_false (fun hdot => ?_) (not_not.mpr h)
    exact (head_exponent l dot hdot).2 rfl
  · rw [Literal.fractionText, if_neg h]
    exact iff_of_true rfl h

theorem fraction_taken : (if (l.fractionText ++ l.exponentText).head? = some dot then
    (l.fractionText ++ l.exponentText).tail.takeWhile isDigit else []) = l.fraction := by
  rw [if_congr (head_dot l) rfl rfl]
  by_cases h : l.fraction = []
  · rw [if_neg (not_not.mpr h), h]
  · rw [if_pos h, Literal.fractionText, if_neg h]
    exact takeWhile_digits l.fraction_digits fun b hb => (head_exponent l b hb).1

theorem fractionText_length : l.fractionText.length =
    (if (l.fractionText ++ l.exponentText).head? = some dot then 1 else 0) +
      l.fraction.length := by
  rw [if_congr (head_dot l) rfl rfl, Literal.fractionText]
  by_cases h : l.fraction = []
  · simp [h]
  · simp [h, Nat.add_comm]

theorem text_length : l.text.length = (if l.text.head? = some minus then 1 else 0) +
    (l.whole.length + l.fractionText.length) + l.exponentText.length := by
  rw [if_congr (head_text l) rfl rfl]
  simp only [Literal.text, Literal.signText, List.length_append]
  cases l.negative <;> simp only [if_true, Bool.false_eq_true, if_false, List.length_singleton,
    List.length_nil] <;> omega

theorem strtod_text : strtod l.text = some
    (saturate (if l.negative then -truncDecimal l.mantissa l.scale
      else truncDecimal l.mantissa l.scale), l.text.length) := by
  have hwhole : (l.whole ++ (l.fractionText ++ l.exponentText)).takeWhile isDigit = l.whole :=
    takeWhile_digits l.whole_digits (head_fraction l)
  have hrest : (l.whole ++ (l.fractionText ++ l.exponentText)).drop
      (l.whole.length + l.fractionText.length) = l.exponentText := by
    rw [← List.append_assoc, ← List.length_append, List.drop_left]
  rw [strtod]
  simp only [body_text, hwhole, List.drop_left, fraction_taken, Nat.add_assoc,
    ← fractionText_length, hrest, exponentPart_exponentText, l.some_digit, false_and, if_false]
  simp only [text_length, head_text, Nat.add_assoc]
  rfl

end Literals

/-! ### The double next to a number -/

theorem truncDouble_scale {a b k : ℕ} (hk : 0 < k) :
    truncDouble (k * a) (k * b) = truncDouble a b := by
  simp only [truncDouble, Nat.mul_div_mul_left _ _ hk, Nat.mul_assoc k, Nat.mul_mod_mul_left]
  have hlt : ∀ x, k * b < 2 * (k * x) ↔ b < 2 * x := by
    intro x
    rw [Nat.mul_left_comm, Nat.mul_lt_mul_left hk]
  have heq : ∀ x, k * b = 2 * (k * x) ↔ b = 2 * x := by
    intro x
    rw [Nat.mul_left_comm, Nat.mul_right_inj (Nat.pos_iff_ne_zero.mp hk)]
  simp only [hlt, heq]

theorem truncDouble_rat {a b : ℕ} (hb : 0 < b) :
    truncDouble a b = truncDouble ((a : ℚ) / b).num.natAbs ((a : ℚ) / b).den := by
  have hq : (a : ℚ) / b = Rat.divInt a b := by
    rw [Rat.divInt_eq_div]
    push_cast
    rfl
  generalize (a : ℚ) / b = q at hq
  obtain ⟨k, ha, hb'⟩ := Rat.num_den_mk (Int.natCast_ne_zero.mpr (Nat.pos_iff_ne_zero.mp hb)) hq
  have hden : b = k.natAbs * q.den := by
    have := congrArg Int.natAbs hb'
    rwa [Int.natAbs_natCast, Int.natAbs_mul, Int.natAbs_natCast] at this
  have hnum : a = k.natAbs * q.num.natAbs := by
    have := congrArg Int.natAbs ha
    rwa [Int.natAbs_natCast, Int.natAbs_mul] at this
  have hk : 0 < k.natAbs := by
    rcases Nat.eq_zero_or_pos k.natAbs with h | h
    · rw [h, Nat.zero_mul] at hden
      omega
    · exact h
  rw [hnum, hden, truncDouble_scale hk]

theorem truncDouble_small {a b : ℕ} (h : 2 * (a * 2 ^ 53) < b) : truncDouble a b = 0 := by
  have hle : a ≤ a * 2 ^ 53 := Nat.le_mul_of_pos_right a (Nat.two_pow_pos 53)
  generalize hscaled : a * 2 ^ 53 = scaled at h hle
  have hlt : scaled < b := by omega
  simp only [truncDouble, Nat.div_eq_of_lt (Nat.lt_of_le_of_lt hle hlt), if_true, hscaled,
    Nat.div_eq_of_lt hlt, Nat.mod_eq_of_lt hlt]
  rw [if_neg (by omega), if_neg (by omega), Nat.zero_div]

theorem truncDouble_large {a b : ℕ} (hb : 0 < b) (h : 2 ^ 31 * b ≤ a) :
    truncDouble a b = a / b ∧ 2 ^ 31 ≤ a / b := by
  have hle : 2 ^ 31 ≤ a / b := (Nat.le_div_iff_mul_le hb).mpr h
  exact ⟨by rw [truncDouble, if_pos hle], hle⟩

theorem saturate_large {n : ℕ} (h : 2 ^ 31 ≤ n) :
    saturate n = 2 ^ 31 - 1 ∧ saturate (-n) = -2 ^ 31 := by
  have hle : (2 ^ 31 : ℤ) ≤ n := by exact_mod_cast h
  constructor
  · rw [saturate, min_eq_right (by omega), max_eq_right (by omega)]
  · rw [saturate, min_eq_left (by omega), max_eq_left (by omega)]

theorem mul_zpow_eq (m : ℕ) (e : ℤ) :
    (m : ℚ) * 10 ^ e = ((m * 10 ^ e.toNat : ℕ) : ℚ) / ((10 ^ (-e).toNat : ℕ) : ℚ) := by
  obtain ⟨n, rfl | rfl⟩ := e.eq_nat_or_neg
  · rw [Int.toNat_natCast, Int.toNat_neg_natCast]
    simp
  · rw [Int.toNat_neg_natCast, neg_neg, Int.toNat_natCast]
    simp [div_eq_mul_inv]

/-- The shortcuts for far exponents agree with the double that is meant, as far as the range of
`int` tells. -/
theorem truncDecimal_cases {m : ℕ} (hm : m < 10 ^ 63) (e : ℤ) {q : ℚ}
    (hq : q = (m : ℚ) * 10 ^ e) :
    truncDecimal m e = truncDouble q.num.natAbs q.den ∨
      (2 ^ 31 ≤ truncDecimal m e ∧ 2 ^ 31 ≤ truncDouble q.num.natAbs q.den) := by
  rw [hq, mul_zpow_eq, ← truncDouble_rat (Nat.pow_pos (by decide)), truncDecimal]
  by_cases hzero : m = 0 ∨ e < -100
  · left
    rw [if_pos hzero]
    symm
    apply truncDouble_small
    rcases hzero with rfl | hfar
    · rw [Nat.zero_mul, Nat.zero_mul, Nat.mul_zero]
      exact Nat.pow_pos (by decide)
    · have hpow : 10 ^ 101 ≤ 10 ^ (-e).toNat := Nat.pow_le_pow_right (by decide) (by omega)
      rw [Int.toNat_of_nonpos (by omega), Nat.pow_zero, Nat.mul_one]
      omega
  rw [if_neg hzero]
  by_cases hfar : 20 < e
  · right
    rw [if_pos hfar]
    have hm0 : 0 < m := by omega
    have hpow : 10 ^ 21 ≤ 10 ^ e.toNat := Nat.pow_le_pow_right (by decide) (by omega)
    have hle := Nat.mul_le_mul hm0 hpow
    obtain ⟨heq, hlarge⟩ := @truncDouble_large (m * 10 ^ e.toNat) (10 ^ (-e).toNat)
      (Nat.pow_pos (by decide)) (by
        rw [Int.toNat_of_nonpos (show -e ≤ 0 by omega)]
        omega)
    exact ⟨Nat.le_refl _, by rwa [heq]⟩
  · left
    rw [if_neg hfar]

theorem saturate_truncDecimal {m : ℕ} (hm : m < 10 ^ 63) (e : ℤ) {q : ℚ}
    (hq : q = (m : ℚ) * 10 ^ e) :
    saturate (truncDecimal m e) = saturate (truncDouble q.num.natAbs q.den) ∧
      saturate (-truncDecimal m e) = saturate (-truncDouble q.num.natAbs q.den) := by
  rcases truncDecimal_cases hm e hq with h | ⟨h1, h2⟩
  · rw [h]
    exact ⟨rfl, rfl⟩
  · rw [(saturate_large h1).1, (saturate_large h1).2, (saturate_large h2).1, (saturate_large h2).2]
    exact ⟨rfl, rfl⟩

theorem decimal_lt {l : List UInt8} (h : Digits l) : JsonGrammar.decimal l < 10 ^ l.length := by
  induction l using List.reverseRecOn with
  | nil => decide
  | append_singleton l b ih =>
    have hlt := ih fun x hx => h x (List.mem_append_left _ hx)
    have hb : b.toNat ≤ 57 := UInt8.le_iff_toNat_le.mp (h b (by simp)).2
    have hstep : JsonGrammar.decimal (l ++ [b]) =
        10 * JsonGrammar.decimal l + (b.toNat - 48) := by
      rw [JsonGrammar.decimal, List.foldl_append]
      rfl
    rw [hstep, List.length_append, List.length_singleton, Nat.pow_succ]
    omega

theorem mantissa_lt (l : Literal) (h : l.text.length ≤ numberBytes) : l.mantissa < 10 ^ 63 := by
  have hdigits : Digits (l.whole ++ l.fraction) := by
    intro b hb
    rcases List.mem_append.mp hb with hb | hb
    · exact l.whole_digits b hb
    · exact l.fraction_digits b hb
  have hlength : (l.whole ++ l.fraction).length ≤ 63 := by
    have htext := text_length l
    have hfraction := fractionText_length l
    rw [numberBytes] at h
    rw [List.length_append]
    omega
  exact Nat.lt_of_lt_of_le (decimal_lt hdigits) (Nat.pow_le_pow_right (by decide) hlength)

theorem valueint_value (l : Literal) (h : l.text.length ≤ numberBytes) :
    saturate (if l.negative then -truncDecimal l.mantissa l.scale
      else truncDecimal l.mantissa l.scale) = valueint l.value := by
  obtain ⟨hplus, hminus⟩ := saturate_truncDecimal (mantissa_lt l h) l.scale rfl
  rw [valueint]
  have hnonneg : 0 ≤ (l.mantissa : ℚ) * 10 ^ l.scale :=
    mul_nonneg (Nat.cast_nonneg _) (zpow_nonneg (by decide) _)
  cases hneg : l.negative with
  | false =>
    have hvalue : l.value = (l.mantissa : ℚ) * 10 ^ l.scale := by simp [Literal.value, hneg]
    rw [hvalue, if_neg (not_lt.mpr hnonneg), if_neg (by decide), hplus]
  | true =>
    have hvalue : l.value = -((l.mantissa : ℚ) * 10 ^ l.scale) := by simp [Literal.value, hneg]
    rw [if_pos rfl, hminus]
    rcases hnonneg.eq_or_lt with hzero | hpos
    · rw [hvalue, ← hzero]
      decide
    · rw [hvalue, if_pos (neg_lt_zero.mpr hpos), Rat.num_neg_eq_neg_num, Int.natAbs_neg,
        Rat.den_neg_eq_den]

theorem isNumberByte_text (l : Literal) : ∀ b ∈ l.text, isNumberByte b = true := by
  have hdigit : ∀ b, isDigit b = true → isNumberByte b = true := by
    intro b hb
    simp [isNumberByte, hb]
  have hexponent : ∀ e : Exponent, ∀ b ∈ e.text, isNumberByte b = true := by
    intro e b hb
    rw [Exponent.text, List.mem_cons, List.mem_append] at hb
    rcases hb with rfl | hb | hb
    · rcases e.letter_eq with h | h <;> rw [h] <;> decide
    · rw [Exponent.signText] at hb
      cases hsign : e.sign with
      | none => simp [hsign] at hb
      | some negative =>
        rw [hsign, Option.elim_some, List.mem_singleton] at hb
        rw [hb]
        cases negative <;> decide
    · exact hdigit b (isDigit_of_digits e.all_digits b hb)
  intro b hb
  rw [Literal.text, List.mem_append, List.mem_append, List.mem_append] at hb
  rcases hb with ((hb | hb) | hb) | hb
  · rw [Literal.signText] at hb
    split at hb
    · rw [List.mem_singleton.mp hb]
      decide
    · exact absurd hb List.not_mem_nil
  · exact hdigit b (isDigit_of_digits l.whole_digits b hb)
  · rw [Literal.fractionText] at hb
    split at hb
    · exact absurd hb List.not_mem_nil
    · rcases List.mem_cons.mp hb with rfl | hb
      · decide
      · exact hdigit b (isDigit_of_digits l.fraction_digits b hb)
  · rw [Literal.exponentText] at hb
    cases hexp : l.exponent with
    | none => simp [hexp] at hb
    | some e =>
      rw [hexp] at hb
      exact hexponent e b hb

theorem parseNumber_text (l : Literal) (h : l.text.length ≤ numberBytes) {rest : List UInt8}
    (hrest : Follows rest) :
    parseNumber (l.text ++ rest) = some (.number (valueint l.value), rest) := by
  have htaken : ((l.text ++ rest).take 63).takeWhile isNumberByte = l.text := by
    rw [List.take_append, List.take_of_length_le (show l.text.length ≤ 63 from h),
      List.takeWhile_append_of_pos (isNumberByte_text l)]
    cases hcut : rest.take (63 - l.text.length) with
    | nil => simp
    | cons b cut =>
      have hb : rest.head? = some b := by
        have := congrArg List.head? hcut
        rw [List.head?_take] at this
        split at this <;> simp_all
      simp [hrest b hb]
  rw [parseNumber, htaken, strtod_text, Option.map_some, valueint_value l h, List.drop_left]

/-! ## Values -/

theorem parseValue_scalar {l : List UInt8} {r : Option (Json × List UInt8)}
    (h : parseScalar l = some r) (levels : ℕ) : parseValue levels l = r := by
  cases levels with
  | zero => simp only [parseValue, h, Option.getD_some]
  | succ levels => simp only [parseValue, h]

theorem parseScalar_quoted {s t : List UInt8} (h : Quoted s t) (rest : List UInt8) :
    parseScalar (t ++ rest) = some (some (.string (untilNul s), rest)) := by
  have hstring := parseString_quoted h rest
  obtain ⟨-⟩ := h
  rw [List.cons_append] at hstring ⊢
  rw [parseScalar_visible (by decide) (by decide) (by decide), if_pos (by decide), hstring]
  rfl

theorem parseScalar_number (l : Literal) (h : l.text.length ≤ numberBytes) {rest : List UInt8}
    (hrest : Follows rest) :
    parseScalar (l.text ++ rest) = some (some (.number (valueint l.value), rest)) := by
  have hnumber := parseNumber_text l h hrest
  obtain ⟨b, t, htext, hb⟩ : ∃ b t, l.text = b :: t ∧ (b = minus ∨ isDigit b = true) := by
    cases hneg : l.negative with
    | true =>
      refine ⟨minus, l.whole ++ l.fractionText ++ l.exponentText, ?_, Or.inl rfl⟩
      simp [Literal.text, Literal.signText, hneg, minus]
    | false =>
      obtain ⟨b, whole, hwhole⟩ := List.exists_cons_of_ne_nil l.some_digit
      refine ⟨b, whole ++ l.fractionText ++ l.exponentText, ?_, Or.inr ?_⟩
      · simp [Literal.text, Literal.signText, hneg, hwhole]
      · exact isDigit_of_digits l.whole_digits b (by rw [hwhole]; exact List.mem_cons_self)
  have hne : ∀ x : UInt8, x ≠ minus → isDigit x = false → b ≠ x := by
    rintro x hx hd rfl
    rcases hb with hb | hb
    · exact hx hb
    · simp [hd] at hb
  rw [htext, List.cons_append] at hnumber ⊢
  rw [parseScalar_visible (hne _ (by decide) (by decide)) (hne _ (by decide) (by decide))
    (hne _ (by decide) (by decide)), if_neg (hne _ (by decide) (by decide)), if_pos hb, hnumber]

theorem parseScalar_complete {v : Json} {t rest : List UInt8} (h : Scalar cJson numberBytes v t)
    (hrest : Follows rest) : parseScalar (t ++ rest) = some (some (v, rest)) := by
  have hnull : cstr "null" = [110, 117, 108, 108] := by decide
  have hfalse : cstr "false" = [102, 97, 108, 115, 101] := by decide
  have htrue : cstr "true" = [116, 114, 117, 101] := by decide
  cases h with
  | null => simp [parseScalar, hnull, cJson]
  | false => simp [parseScalar, hnull, hfalse, cJson]
  | true => simp [parseScalar, hnull, hfalse, htrue, cJson]
  | number h => exact parseScalar_number _ h hrest
  | string h => exact parseScalar_quoted h rest

section Entries
variable {α β : Type} {text : α → List UInt8 → Prop} {entry : Parser β} {f : α → β} {close : UInt8}

/-- A parser that takes the texts of an entry, whatever may follow, and answers its image. -/
def Takes (text : α → List UInt8 → Prop) (entry : Parser β) (f : α → β) : Prop :=
  ∀ a t rest, text a t → Follows rest → entry (t ++ rest) = some (f a, rest)

theorem parseEntries_complete (htakes : Takes text entry f) (hopens : ∀ a t, text a t → Opens t)
    (hclose : 32 < close ∧ close ≠ comma ∧ isNumberByte close = false) {as : List α}
    {ts : List UInt8} (h : Entries text as ts) {n : ℕ} (hn : as.length ≤ n) (rest : List UInt8) :
    parseEntries entry close n (ts ++ close :: rest) = some (as.map f, rest) := by
  induction h generalizing n with
  | @last a before t after hb ht ha =>
    rw [List.length_singleton] at hn
    obtain ⟨n, rfl⟩ : ∃ k, n = k + 1 := ⟨n - 1, by omega⟩
    have htext : before ++ (t ++ after) ++ close :: rest =
        before ++ (t ++ (after ++ close :: rest)) := by simp
    rw [htext, parseEntries, skip_opens hb ((hopens a t ht).append _),
      htakes a t _ ht (follows_blank ha hclose.2.2 rest)]
    simp only [skip_blank ha hclose.1, hclose.2.1, if_false, if_true, List.map_cons, List.map_nil]
  | @more a as before t after ts hb ht ha h ih =>
    rw [List.length_cons] at hn
    obtain ⟨n, rfl⟩ : ∃ k, n = k + 1 := ⟨n - 1, by omega⟩
    have htext : before ++ (t ++ (after ++ 44 :: ts)) ++ close :: rest =
        before ++ (t ++ (after ++ comma :: (ts ++ close :: rest))) := by simp [comma]
    rw [htext, parseEntries, skip_opens hb ((hopens a t ht).append _),
      htakes a t _ ht (follows_blank ha (by decide) _)]
    simp only [skip_blank ha (show 32 < comma by decide), if_true, ih (show as.length ≤ n by omega),
      Option.map_some, List.map_cons]

theorem entries_length (hopens : ∀ a t, text a t → Opens t) {as : List α} {ts : List UInt8}
    (h : Entries text as ts) : as.length ≤ ts.length := by
  have hpos : ∀ a t, text a t → 1 ≤ t.length := by
    intro a t ht
    obtain ⟨b, rest, rfl, -⟩ := hopens a t ht
    rw [List.length_cons]
    omega
  induction h with
  | last hb ht ha =>
    have := hpos _ _ ht
    simp only [List.length_append, List.length_singleton]
    omega
  | more hb ht ha h ih =>
    simp only [List.length_append, List.length_cons]
    omega

theorem entries_front (hopens : ∀ a t, text a t → Opens t) {as : List α} {ts : List UInt8}
    (h : Entries text as ts) :
    ∃ w t, Blank w ∧ Opens t ∧ Entries text as t ∧ ts = w ++ t := by
  cases h with
  | @last a before t after hb ht ha =>
    exact ⟨_, _, hb, (hopens a t ht).append _, @Entries.last _ _ a [] t after blank_nil ht ha, rfl⟩
  | @more a as before t after ts hb ht ha h =>
    exact ⟨_, _, hb, (hopens a t ht).append _,
      @Entries.more _ _ a as [] t after ts blank_nil ht ha h,
      rfl⟩

theorem parseList_complete (htakes : Takes text entry f) (hopens : ∀ a t, text a t → Opens t)
    (hclose : close = closeBracket ∨ close = closeBrace) {first : UInt8} {as : List α}
    {t : List UInt8} (h : Bracketed text first close as (first :: t)) (rest : List UInt8) :
    parseList entry close (t ++ rest) = some (as.map f, rest) := by
  have hbyte : 32 < close ∧ close ≠ comma ∧ isNumberByte close = false := by
    rcases hclose with rfl | rfl <;> decide
  generalize hfull : first :: t = full at h
  cases h with
  | @empty w hw =>
    obtain rfl := (List.cons.inj hfull).2
    rw [List.append_assoc, List.singleton_append, parseList, skip_blank hw hbyte.1]
    simp only [if_true, List.map_nil]
  | @entries as ts h =>
    obtain rfl := (List.cons.inj hfull).2
    obtain ⟨w, t, hw, ht, hs, rfl⟩ := entries_front hopens h
    have hn : as.length ≤ (w ++ t ++ [close] ++ rest).length := by
      have := entries_length hopens hs
      simp only [List.length_append]
      omega
    have hentries := parseEntries_complete htakes hopens hbyte hs hn rest
    obtain ⟨b, t, rfl, hb, -, hbracket, hbrace⟩ := ht
    have hne : b ≠ close := by
      rcases hclose with rfl | rfl
      · exact hbracket
      · exact hbrace
    have htext : w ++ b :: t ++ [close] ++ rest = w ++ b :: (t ++ close :: rest) := by simp
    rw [htext, List.cons_append] at hentries
    rw [htext, parseList, skip_blank hw hb]
    simp only [hne, if_false]
    exact hentries

end Entries

theorem parseMember_complete {levels : ℕ} {value : Json → List UInt8 → Prop}
    (hvalue : Takes value (parseValue levels) id) (hopens : ∀ v t, value v t → Opens t) :
    Takes (Member value) (parseMember (parseValue levels)) fun m => (untilNul m.1, m.2) := by
  intro m text rest hm hrest
  obtain @⟨name, v, key, before, after, t, hk, hb, ha, ht⟩ := hm
  have htext : key ++ (before ++ 58 :: (after ++ t)) ++ rest =
      key ++ (before ++ colon :: (after ++ (t ++ rest))) := by simp [colon]
  rw [htext, parseMember, parseString_quoted hk]
  simp only [skip_blank hb (show 32 < colon by decide), if_true,
    skip_opens ha ((hopens v t ht).append rest), hvalue v t rest ht hrest, id, Option.map_some]

/-- Every text of a value is taken, up to where it ends. -/
theorem parseValue_complete (levels : ℕ) :
    Takes (Text cJson numberBytes levels) (parseValue levels) id := by
  have hbrackets : ∀ b rest, b = openBracket ∨ b = openBrace → parseScalar (b :: rest) = none := by
    intro b rest hb
    have hne : b ≠ 110 ∧ b ≠ 102 ∧ b ≠ 116 ∧ b ≠ quote ∧ ¬ (b = minus ∨ isDigit b = true) := by
      rcases hb with rfl | rfl <;> decide
    rw [parseScalar_visible hne.1 hne.2.1 hne.2.2.1, if_neg hne.2.2.2.1, if_neg hne.2.2.2.2]
  induction levels with
  | zero =>
    intro v t rest h hrest
    exact parseValue_scalar (parseScalar_complete h hrest) 0
  | succ levels ih =>
    have hopens : ∀ v t, Text cJson numberBytes levels v t → Opens t := fun v t h => h.opens
    intro v t rest h hrest
    rcases h with h | ⟨vs, rfl, h⟩ | ⟨ms, rfl, h⟩
    · exact parseValue_scalar (parseScalar_complete h hrest) _
    · obtain ⟨t, rfl⟩ : ∃ t', t = openBracket :: t' := by cases h <;> exact ⟨_, rfl⟩
      have hlist := parseList_complete ih hopens (Or.inl rfl) h rest
      rw [List.map_id] at hlist
      rw [List.cons_append, parseValue]
      simp only [hbrackets openBracket _ (Or.inl rfl), if_true, hlist, Option.map_some]
      rfl
    · obtain ⟨t, rfl⟩ : ∃ t', t = openBrace :: t' := by cases h <;> exact ⟨_, rfl⟩
      have hlist := parseList_complete (parseMember_complete ih hopens)
        (fun m t h => h.opens) (Or.inr rfl) h rest
      rw [List.cons_append, parseValue]
      simp only [hbrackets openBrace _ (Or.inr rfl), show openBrace ≠ openBracket by decide,
        if_false, if_true, hlist, Option.map_some]
      rfl

/-! ## Whole texts -/

def utf8Bom : List UInt8 := [239, 187, 191]

theorem skipUtf8Bom_ascii {b : UInt8} (hb : b < 128) (rest : List UInt8) :
    skipUtf8Bom (b :: rest) = b :: rest := by
  apply if_neg
  intro h
  obtain rfl : b = 239 := (List.cons.inj h.2).1
  exact absurd hb (by decide)

theorem document_ascii {v : Json} {text : List UInt8} {levels : ℕ}
    (h : Document cJson numberBytes levels v text) : ∃ b rest, text = b :: rest ∧ b < 128 := by
  obtain @⟨before, t, after, hb, ht, ha⟩ := h
  cases before with
  | nil =>
    obtain ⟨b, rest, rfl, -, hb, -⟩ := ht.opens
    exact ⟨b, rest ++ after, rfl, hb⟩
  | cons b before =>
    refine ⟨b, before ++ (t ++ after), rfl, ?_⟩
    rcases hb b List.mem_cons_self with rfl | rfl | rfl | rfl <;> decide

theorem parse_document {v : Json} {text : List UInt8}
    (h : Document cJson numberBytes nestingLimit v text) {rest : List UInt8}
    (hrest : Follows rest) :
    (parseValue nestingLimit (bufferSkipWhitespace (text ++ (rest ++ [0])))).map Prod.fst =
      some v := by
  obtain @⟨before, t, after, hb, ht, ha⟩ := h
  have hfollows : Follows (after ++ (rest ++ [0])) := by
    cases rest with
    | nil => exact follows_blank ha (by decide) []
    | cons b rest => exact follows_blank ha (hrest b rfl) (rest ++ [0])
  have hassoc : before ++ (t ++ after) ++ (rest ++ [0]) =
      before ++ (t ++ (after ++ (rest ++ [0]))) := by simp
  rw [hassoc, skip_opens hb (ht.opens.append _), parseValue_complete nestingLimit v t _ ht hfollows]
  rfl

theorem cJsonParse_followed {v : Json} {text : List UInt8}
    (h : Document cJson numberBytes nestingLimit v text) {rest : List UInt8}
    (hrest : Follows rest) : cJsonParse (text ++ rest) = some v := by
  obtain ⟨b, t, htext, hascii⟩ := document_ascii h
  have hplain : skipUtf8Bom (text ++ (rest ++ [0])) = text ++ (rest ++ [0]) := by
    rw [htext]
    exact skipUtf8Bom_ascii hascii _
  rw [cJsonParse, List.append_assoc, hplain, parse_document h hrest]

/-- Every JSON text is read as the value it stands for, with or without a mark of its encoding,
and whatever follows it. -/
theorem cJsonParse_document {v : Json} {text : List UInt8}
    (h : Document cJson numberBytes nestingLimit v text) {rest : List UInt8}
    (hrest : Follows rest) :
    cJsonParse (text ++ rest) = some v ∧ cJsonParse (utf8Bom ++ (text ++ rest)) = some v := by
  refine ⟨cJsonParse_followed h hrest, ?_⟩
  obtain ⟨b, t, htext, -⟩ := document_ascii h
  have hmark : skipUtf8Bom (utf8Bom ++ (text ++ (rest ++ [0]))) = text ++ (rest ++ [0]) := by
    rw [skipUtf8Bom, if_pos]
    · rfl
    · refine ⟨?_, rfl⟩
      rw [htext]
      simp only [utf8Bom, List.length_append, List.length_cons, List.length_nil]
      omega
  rw [cJsonParse, List.append_assoc, List.append_assoc, hmark, parse_document h hrest]

/-- An array with a blank in it, and a comma behind it. -/
theorem cJsonParse_document_array :
    cJsonParse ([91, 32, 110, 117, 108, 108, 93] ++ [44]) = some (.array [.null]) ∧
      cJsonParse (utf8Bom ++ ([91, 32, 110, 117, 108, 108, 93] ++ [44])) =
        some (.array [.null]) := by
  have hnull : JsonGrammar.Text cJson numberBytes 999 .null [110, 117, 108, 108] :=
    Text.scalar .null
  have hblank : Blank [32] := by simp [Blank]
  have harray : JsonGrammar.Text cJson numberBytes nestingLimit (.array [.null])
      [91, 32, 110, 117, 108, 108, 93] :=
    Text.array (.entries (.last hblank hnull blank_nil))
  exact cJsonParse_document (.mk blank_nil harray blank_nil) (by simp [Follows]; decide)

end JsonDocuments
