import CloudDisk.ByteStrings
import Mathlib.Algebra.Order.Ring.Int

/-! # The JSON parser of `cJSON.c`

A parser works on what is left of the buffer, whose last byte is the terminating NUL, and
answers a value and what is left after it. Bytes up to 32 are blanks, the NUL included, so
skipping stops in front of the last byte at the latest. Text after the value is ignored. -/
namespace JsonBodies

open ByteStrings

/-- An item as the handlers see it: `valueint` of a number, `valuestring` of a string. -/
inductive Json where
  | null
  | bool (b : Bool)
  | number (valueint : ℤ)
  | string (valuestring : CString)
  | array (items : List Json)
  | object (members : List (CString × Json))

abbrev Parser (α : Type) := List UInt8 → Option (α × List UInt8)

def quote : UInt8 := 34
def plus : UInt8 := 43
def comma : UInt8 := 44
def minus : UInt8 := 45
def dot : UInt8 := 46
def colon : UInt8 := 58
def openBracket : UInt8 := 91
def backslash : UInt8 := 92
def closeBracket : UInt8 := 93
def letterU : UInt8 := 117
def openBrace : UInt8 := 123
def closeBrace : UInt8 := 125

def bufferSkipWhitespace (l : List UInt8) : List UInt8 :=
  match l.dropWhile (· ≤ 32) with
  | [] => l.drop (l.length - 1)
  | rest => rest

/-- The mark is only looked for when five bytes can be read. -/
def skipUtf8Bom (l : List UInt8) : List UInt8 :=
  if 5 ≤ l.length ∧ l.take 3 = [239, 187, 191] then l.drop 3 else l

/-! ## Strings -/

def hexDigit (b : UInt8) : Option ℕ :=
  if 48 ≤ b ∧ b ≤ 57 then some (b.toNat - 48)
  else if 65 ≤ b ∧ b ≤ 70 then some (b.toNat - 55)
  else if 97 ≤ b ∧ b ≤ 102 then some (b.toNat - 87)
  else none

/-- Four digits; anything else counts as zero. -/
def parseHex4 (a b c d : UInt8) : ℕ :=
  match hexDigit a, hexDigit b, hexDigit c, hexDigit d with
  | some a, some b, some c, some d => 4096 * a + 256 * b + 16 * c + d
  | _, _, _, _ => 0

def encodeUtf8 (codepoint : ℕ) : List UInt8 :=
  let tail (n : ℕ) : UInt8 := UInt8.ofNat (128 + n % 64)
  if codepoint < 128 then [UInt8.ofNat codepoint]
  else if codepoint < 2048 then [UInt8.ofNat (192 + codepoint / 64), tail codepoint]
  else if codepoint < 65536 then
    [UInt8.ofNat (224 + codepoint / 4096), tail (codepoint / 64), tail codepoint]
  else [UInt8.ofNat (240 + codepoint / 262144), tail (codepoint / 4096), tail (codepoint / 64),
    tail codepoint]

def isHighSurrogate (code : ℕ) : Bool := 55296 ≤ code ∧ code ≤ 56319

def isLowSurrogate (code : ℕ) : Bool := 56320 ≤ code ∧ code ≤ 57343

def escaped (b : UInt8) : Option UInt8 :=
  if b = 98 then some 8
  else if b = 102 then some 12
  else if b = 110 then some 10
  else if b = 114 then some 13
  else if b = 116 then some 9
  else if b = quote ∨ b = backslash ∨ b = 47 then some b
  else none

/-- The second loop of `parse_string`, over the bytes between the quotes. The digits of
a `\u` are skipped whatever they are, so a backslash may be left as the last byte, and
then the closing quote follows it. -/
def unescape : List UInt8 → Option (List UInt8)
  | [] => some []
  | b :: rest =>
    if b ≠ backslash then (unescape rest).map (b :: ·)
    else
      match rest with
      | [] => some [quote]
      | b :: rest =>
        if b ≠ letterU then
          match escaped b with
          | some b => (unescape rest).map (b :: ·)
          | none => none
        else
          match rest with
          | a :: b :: c :: d :: rest =>
            let first := parseHex4 a b c d
            if isLowSurrogate first then none
            else if isHighSurrogate first then
              match rest with
              | x :: y :: a :: b :: c :: d :: rest =>
                let second := parseHex4 a b c d
                if x = backslash ∧ y = letterU ∧ isLowSurrogate second then
                  (unescape rest).map
                    (encodeUtf8 (65536 + 1024 * (first % 1024) + second % 1024) ++ ·)
                else none
              | _ => none
            else (unescape rest).map (encodeUtf8 first ++ ·)
          | _ => none

/-- The first loop of `parse_string`: the bytes up to the closing quote and what follows. -/
def literalBytes : Parser (List UInt8)
  | [] => none
  | b :: rest =>
    if b = quote then some ([], rest)
    else if b = backslash then
      match rest with
      | [] => none
      | c :: rest => (literalBytes rest).map fun q => (b :: c :: q.1, q.2)
    else (literalBytes rest).map fun q => (b :: q.1, q.2)

def parseString : Parser CString
  | [] => none
  | b :: l =>
    if b = quote then
      match literalBytes l with
      | some (bytes, rest) => (unescape bytes).map fun s => (untilNul s, rest)
      | none => none
    else none

/-! ## Numbers -/

def isDigit (b : UInt8) : Bool := 48 ≤ b ∧ b ≤ 57

def decimal (digits : List UInt8) : ℕ := digits.foldl (fun n b => 10 * n + (b.toNat - 48)) 0

/-- The double next to `num / den`, a tie going to the even one, without its fraction.
Quotients past the range of `int` are saturated later and need no rounding. -/
def truncDouble (num den : ℕ) : ℕ :=
  let whole := num / den
  if 2 ^ 31 ≤ whole then whole
  else
    let shift := if whole = 0 then 53 else 52 - whole.log2
    let scaled := num * 2 ^ shift
    let rest := scaled % den
    let q := scaled / den
    (if den < 2 * rest ∨ (den = 2 * rest ∧ q % 2 = 1) then q + 1 else q) / 2 ^ shift

/-- `mantissa * 10 ^ exponent` without its fraction. A text of 63 bytes has at most 63
digits, so far exponents decide alone. -/
def truncDecimal (mantissa : ℕ) (exponent : ℤ) : ℕ :=
  if mantissa = 0 ∨ exponent < -100 then 0
  else if 20 < exponent then 2 ^ 31
  else truncDouble (mantissa * 10 ^ exponent.toNat) (10 ^ (-exponent).toNat)

def saturate (n : ℤ) : ℤ := max (-(2 ^ 31)) (min n (2 ^ 31 - 1))

/-- The exponent part, which must have a digit to count, and the bytes it takes. -/
def exponentPart (l : List UInt8) : ℤ × ℕ :=
  match l with
  | e :: l =>
    if e = 101 ∨ e = 69 then
      let negative := l.head? = some minus
      let signed := negative ∨ l.head? = some plus
      let digits := (if signed then l.tail else l).takeWhile isDigit
      if digits = [] then (0, 0)
      else (if negative then -decimal digits else decimal digits,
        1 + (if signed then 1 else 0) + digits.length)
    else (0, 0)
  | [] => (0, 0)

/-- `strtod` on the bytes that can stand in a number: `valueint` and the bytes it takes. -/
def strtod (l : List UInt8) : Option (ℤ × ℕ) :=
  let negative := l.head? = some minus
  let body := if negative then l.tail else l
  let whole := body.takeWhile isDigit
  let afterWhole := body.drop whole.length
  let dotted := afterWhole.head? = some dot
  let fraction := if dotted then afterWhole.tail.takeWhile isDigit else []
  if whole = [] ∧ fraction = [] then none
  else
    let taken := whole.length + (if dotted then 1 else 0) + fraction.length
    let (exponent, more) := exponentPart (body.drop taken)
    let n : ℤ := truncDecimal (decimal (whole ++ fraction)) (exponent - fraction.length)
    some (saturate (if negative then -n else n), (if negative then 1 else 0) + taken + more)

def isNumberByte (b : UInt8) : Bool :=
  isDigit b ∨ b = plus ∨ b = minus ∨ b = dot ∨ b = 101 ∨ b = 69

def parseNumber : Parser Json := fun l =>
  (strtod ((l.take 63).takeWhile isNumberByte)).map fun q => (.number q.1, l.drop q.2)

/-! ## Values -/

/-- The loops of `parse_array` and `parse_object`: entries with commas between them, up to
the closing byte. Every round takes a byte, so the length bounds the rounds. -/
def parseEntries {α : Type} (entry : Parser α) (close : UInt8) : ℕ → Parser (List α)
  | 0, _ => none
  | n + 1, l =>
    match entry (bufferSkipWhitespace l) with
    | none => none
    | some (a, l) =>
      match bufferSkipWhitespace l with
      | [] => none
      | b :: l =>
        if b = comma then (parseEntries entry close n l).map fun q => (a :: q.1, q.2)
        else if b = close then some ([a], l)
        else none

/-- What follows the opening byte of an array or an object. -/
def parseList {α : Type} (entry : Parser α) (close : UInt8) : Parser (List α) := fun l =>
  match bufferSkipWhitespace l with
  | [] => none
  | b :: rest =>
    if b = close then some ([], rest) else parseEntries entry close l.length (b :: rest)

def parseMember (value : Parser Json) : Parser (CString × Json) := fun l =>
  match parseString l with
  | none => none
  | some (name, l) =>
    match bufferSkipWhitespace l with
    | [] => none
    | b :: l =>
      if b = colon then (value (bufferSkipWhitespace l)).map fun q => ((name, q.1), q.2)
      else none

def parseScalar (l : List UInt8) : Option (Option (Json × List UInt8)) :=
  if l.take 4 = cstr "null" then some (some (.null, l.drop 4))
  else if l.take 5 = cstr "false" then some (some (.bool false, l.drop 5))
  else if l.take 4 = cstr "true" then some (some (.bool true, l.drop 4))
  else
    match l with
    | [] => some none
    | b :: _ =>
      if b = quote then some ((parseString l).map fun q => (.string q.1, q.2))
      else if b = minus ∨ isDigit b then some (parseNumber l)
      else none

/-- `parse_value` with the number of levels that may still be opened. -/
def parseValue : ℕ → Parser Json
  | 0 => fun l => (parseScalar l).getD none
  | levels + 1 => fun l =>
    match parseScalar l with
    | some r => r
    | none =>
      match l with
      | [] => none
      | b :: l =>
        if b = openBracket then
          (parseList (parseValue levels) closeBracket l).map fun q => (.array q.1, q.2)
        else if b = openBrace then
          (parseList (parseMember (parseValue levels)) closeBrace l).map fun q =>
            (.object q.1, q.2)
        else none

def nestingLimit : ℕ := 1000

def cJsonParse (value : CString) : Option Json :=
  (parseValue nestingLimit (bufferSkipWhitespace (skipUtf8Bom (value ++ [0])))).map Prod.fst

/-! ## Access -/

def toLower (b : UInt8) : UInt8 := if 65 ≤ b ∧ b ≤ 90 then b + 32 else b

/-- `cJSON_GetObjectItem`: the first member of that name, whatever the case of letters.
The items of an array have no names. -/
def getObjectItem (item : Json) (name : CString) : Option Json :=
  match item with
  | .object members =>
    (members.find? fun q => q.1.map toLower = name.map toLower).map Prod.snd
  | _ => none

/-- The field `valueint`, which only numbers and `true` set. -/
def Json.valueint : Json → ℤ
  | .number n => n
  | .bool true => 1
  | _ => 0

example : ((cJsonParse (cstr "\x7b\"a\": [1, \x7b\x7d], \"Count\" : -12.5e1\x7d ,")).bind fun j =>
    (getObjectItem j (cstr "count")).map Json.valueint) = some (-125) := by decide +kernel

/-! ## The bound on the rounds is never reached -/

def Consumes {α : Type} (p : Parser α) : Prop :=
  ∀ l a rest, p l = some (a, rest) → rest.length ≤ l.length

section Rounds
variable {α : Type} {entry : Parser α} {close : UInt8}

theorem skip_length (l : List UInt8) : (bufferSkipWhitespace l).length ≤ l.length := by
  unfold bufferSkipWhitespace
  split
  · exact (List.drop_sublist _ l).length_le
  · exact (List.dropWhile_sublist _).length_le

theorem parseEntries_succ (he : Consumes entry) {n : ℕ} {l : List UInt8} (hl : l.length ≤ n) :
    parseEntries entry close (n + 1) l = parseEntries entry close n l := by
  induction n generalizing l with
  | zero =>
    obtain rfl := List.length_eq_zero_iff.mp (Nat.le_zero.mp hl)
    simp only [parseEntries]
    split
    · rfl
    next a rest h =>
      obtain rfl := List.length_eq_zero_iff.mp (Nat.le_zero.mp (he _ _ _ h))
      rfl
  | succ n ih =>
    rw [parseEntries, parseEntries]
    split
    · rfl
    next a rest h =>
      have hrest := (skip_length rest).trans ((he _ _ _ h).trans (skip_length l))
      split
      · rfl
      next b rest' hb =>
        rw [hb, List.length_cons] at hrest
        rw [ih (by omega)]

theorem parseEntries_rounds (he : Consumes entry) {n : ℕ} {l : List UInt8} (hl : l.length ≤ n) :
    parseEntries entry close n l = parseEntries entry close l.length l := by
  induction n, hl using Nat.le_induction with
  | base => rfl
  | succ n hn ih => rw [parseEntries_succ he hn, ih]

theorem parseEntries_consumes (he : Consumes entry) (n : ℕ) :
    Consumes (parseEntries entry close n) := by
  induction n with
  | zero =>
    intro l a rest h
    simp [parseEntries] at h
  | succ n ih =>
    intro l a rest h
    simp only [parseEntries] at h
    split at h
    · simp at h
    next x rest' hx =>
      have hrest := (skip_length rest').trans ((he _ _ _ hx).trans (skip_length l))
      split at h
      · simp at h
      next b l' hb =>
        rw [hb, List.length_cons] at hrest
        split at h
        · obtain ⟨q, hq, heq⟩ := Option.map_eq_some_iff.mp h
          obtain ⟨-, rfl⟩ := Prod.mk.inj heq
          have := ih _ _ _ hq
          omega
        · split at h
          · obtain ⟨-, rfl⟩ := Prod.mk.inj (Option.some.inj h)
            omega
          · simp at h

theorem parseList_consumes (he : Consumes entry) : Consumes (parseList entry close) := by
  intro l a rest h
  unfold parseList at h
  have hskip := skip_length l
  split at h
  · simp at h
  next b l' hb =>
    rw [hb, List.length_cons] at hskip
    split at h
    · obtain ⟨-, rfl⟩ := Prod.mk.inj (Option.some.inj h)
      omega
    · have := parseEntries_consumes he _ _ _ _ h
      rw [List.length_cons] at this
      omega

theorem literalBytes_consumes : Consumes literalBytes := by
  intro l a rest h
  fun_induction literalBytes l generalizing a with
  | case1 => simp at h
  | case2 l =>
    obtain ⟨-, rfl⟩ := Prod.mk.inj (Option.some.inj h)
    rw [List.length_cons]
    omega
  | case3 => simp at h
  | case4 hq c l ih =>
    obtain ⟨q, hq, heq⟩ := Option.map_eq_some_iff.mp h
    obtain ⟨-, rfl⟩ := Prod.mk.inj heq
    have := ih _ hq
    simp only [List.length_cons]
    omega
  | case5 b l hb hq ih =>
    obtain ⟨q, hq, heq⟩ := Option.map_eq_some_iff.mp h
    obtain ⟨-, rfl⟩ := Prod.mk.inj heq
    have := ih _ hq
    rw [List.length_cons]
    omega

theorem parseString_consumes : Consumes parseString := by
  intro l a rest h
  unfold parseString at h
  split at h
  · simp at h
  next b l =>
    split at h
    · split at h
      next bytes rest' hb =>
        obtain ⟨q, -, heq⟩ := Option.map_eq_some_iff.mp h
        obtain ⟨-, rfl⟩ := Prod.mk.inj heq
        have := literalBytes_consumes _ _ _ hb
        rw [List.length_cons]
        omega
      · simp at h
    · simp at h

theorem parseMember_consumes {value : Parser Json} (hv : Consumes value) :
    Consumes (parseMember value) := by
  intro l a rest h
  unfold parseMember at h
  split at h
  · simp at h
  next name l' hn =>
    have hl := (skip_length l').trans (parseString_consumes _ _ _ hn)
    split at h
    · simp at h
    next b l'' hb =>
      rw [hb, List.length_cons] at hl
      split at h
      · obtain ⟨q, hq, heq⟩ := Option.map_eq_some_iff.mp h
        obtain ⟨-, rfl⟩ := Prod.mk.inj heq
        have := (hv _ _ _ hq).trans (skip_length l'')
        omega
      · simp at h

theorem parseScalar_consumes {l rest : List UInt8} {a : Json}
    (h : parseScalar l = some (some (a, rest))) : rest.length ≤ l.length := by
  have hdrop : ∀ n, (l.drop n).length ≤ l.length := fun n => (List.drop_sublist n l).length_le
  unfold parseScalar at h
  split at h
  · obtain ⟨-, rfl⟩ := Prod.mk.inj (Option.some.inj (Option.some.inj h))
    exact hdrop 4
  split at h
  · obtain ⟨-, rfl⟩ := Prod.mk.inj (Option.some.inj (Option.some.inj h))
    exact hdrop 5
  split at h
  · obtain ⟨-, rfl⟩ := Prod.mk.inj (Option.some.inj (Option.some.inj h))
    exact hdrop 4
  split at h
  · simp at h
  split at h
  · obtain ⟨q, hq, heq⟩ := Option.map_eq_some_iff.mp (Option.some.inj h)
    obtain ⟨-, rfl⟩ := Prod.mk.inj heq
    exact parseString_consumes _ _ _ hq
  split at h
  · obtain ⟨q, hq, heq⟩ := Option.map_eq_some_iff.mp (Option.some.inj h)
    obtain ⟨-, rfl⟩ := Prod.mk.inj heq
    exact hdrop q.2
  · simp at h

theorem parseValue_consumes (levels : ℕ) : Consumes (parseValue levels) := by
  induction levels with
  | zero =>
    intro l a rest h
    simp only [parseValue, Option.getD_eq_iff] at h
    rcases h with h | ⟨-, h⟩
    · exact parseScalar_consumes h
    · simp at h
  | succ levels ih =>
    intro l a rest h
    simp only [parseValue] at h
    split at h
    next r hr =>
      subst h
      exact parseScalar_consumes hr
    next =>
      split at h
      · simp at h
      next b l =>
        rw [List.length_cons]
        split at h
        · obtain ⟨q, hq, heq⟩ := Option.map_eq_some_iff.mp h
          obtain ⟨-, rfl⟩ := Prod.mk.inj heq
          exact (parseList_consumes ih _ _ _ hq).trans (Nat.le_succ _)
        · split at h
          · obtain ⟨q, hq, heq⟩ := Option.map_eq_some_iff.mp h
            obtain ⟨-, rfl⟩ := Prod.mk.inj heq
            exact (parseList_consumes (parseMember_consumes ih) _ _ _ hq).trans (Nat.le_succ _)
          · simp at h

theorem parseValue_rounds (levels : ℕ) {n : ℕ} {l : List UInt8} (hl : l.length ≤ n) :
    parseEntries (parseValue levels) closeBracket n l =
        parseEntries (parseValue levels) closeBracket l.length l ∧
      parseEntries (parseMember (parseValue levels)) closeBrace n l =
        parseEntries (parseMember (parseValue levels)) closeBrace l.length l :=
  ⟨parseEntries_rounds (parseValue_consumes levels) hl,
    parseEntries_rounds (parseMember_consumes (parseValue_consumes levels)) hl⟩

end Rounds

end JsonBodies
