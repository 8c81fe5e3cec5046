import CloudDisk.JsonDocuments
import CloudDisk.JsonPrinting
import CloudDisk.MyFilesPage

/-! # Printing and parsing again

What the printer writes is a JSON text, formatted or not, of the item it was given, so that the
parser makes the same item of it. The printer has no limit on the levels, the parser has one. -/
namespace JsonRoundTrips

open ByteStrings JsonBodies JsonTexts JsonGrammar JsonDocuments JsonPrinting SqlFormats MyFilesPage

mutual

def value {V : Type} (R : Reading V) : Item → V
  | .null => R.null
  | .bool b => R.bool b
  | .number n => R.number n.value
  | .string s => R.string s.bytes
  | .array items => R.array (valueItems R items)
  | .object members => R.object (valueMembers R members)

def valueItems {V : Type} (R : Reading V) : List Item → List V
  | [] => []
  | i :: next => value R i :: valueItems R next

def valueMembers {V : Type} (R : Reading V) :
    List (JsonPrinting.Text × Item) → List (CString × V)
  | [] => []
  | (name, i) :: next => (name.bytes, value R i) :: valueMembers R next

end

mutual

def levels : Item → ℕ
  | .array items => levelsItems items + 1
  | .object members => levelsMembers members + 1
  | _ => 0

def levelsItems : List Item → ℕ
  | [] => 0
  | i :: next => max (levels i) (levelsItems next)

def levelsMembers : List (JsonPrinting.Text × Item) → ℕ
  | [] => 0
  | (_, i) :: next => max (levels i) (levelsMembers next)

end

/-! ## Strings -/

theorem hex_hexLower {n : ℕ} (h : n < 16) : Hex (hexLower n) n := by
  rw [hexLower, Hex]
  split
  next hlt =>
    rw [UInt8.toNat_ofNat']
    omega
  next hge =>
    rw [UInt8.toNat_ofNat']
    omega

theorem shortEscapes_of_shortEscape {b c : UInt8} (h : shortEscape b = some c) :
    (c, b) ∈ shortEscapes := by
  rw [shortEscape] at h
  split_ifs at h with h8 h9 h10 h12 h13 hq
  · obtain rfl := Option.some.inj h
    rw [h8]
    decide
  · obtain rfl := Option.some.inj h
    rw [h9]
    decide
  · obtain rfl := Option.some.inj h
    rw [h10]
    decide
  · obtain rfl := Option.some.inj h
    rw [h12]
    decide
  · obtain rfl := Option.some.inj h
    rw [h13]
    decide
  · obtain rfl := Option.some.inj h
    rcases hq with rfl | rfl <;> decide

theorem hex4_control {b : UInt8} (h : b < 32) :
    Hex4 [48, 48, hexLower (b.toNat / 16), hexLower (b.toNat % 16)] b.toNat := by
  have hb : b.toNat < 32 := by simpa using UInt8.lt_iff_toNat_lt.mp h
  have hzero : Hex 48 0 := Or.inl ⟨by decide, by decide⟩
  have hmk := Hex4.mk hzero hzero (hex_hexLower (show b.toNat / 16 < 16 by omega))
    (hex_hexLower (show b.toNat % 16 < 16 by omega))
  have hsum : 4096 * 0 + 256 * 0 + 16 * (b.toNat / 16) + b.toNat % 16 = b.toNat := by omega
  rwa [hsum] at hmk

theorem chars_escapeByte (b : UInt8) {t s : List UInt8} (h : Chars t s) :
    Chars (escapeByte b ++ t) (b :: s) := by
  rw [escapeByte]
  cases hs : shortEscape b with
  | some c => exact .short (shortEscapes_of_shortEscape hs) h
  | none =>
    by_cases hlt : b < 32
    · have hb : b.toNat < 32 := by simpa using UInt8.lt_iff_toNat_lt.mp hlt
      have hvalid : b.toNat.isValidChar := Or.inl (by omega)
      have hchar : (Char.ofNat b.toNat).toNat = b.toNat := by
        rw [Char.ofNat, dif_pos hvalid]
        rfl
      have hutf8 : String.utf8EncodeChar (Char.ofNat b.toNat) = [b] := by
        rw [← encodeUtf8_eq, hchar, encodeUtf8, if_pos (by omega), UInt8.ofNat_toNat]
      have hcode := hex4_control hlt
      rw [← hchar] at hcode
      have hchars := Chars.code hcode h
      rw [hutf8, hchar] at hchars
      simpa [hlt, backslash, letterU] using hchars
    · obtain ⟨hquote, hslash⟩ := plain_of_shortEscape hs
      simp only [hlt, if_false]
      exact .plain (UInt8.not_lt.mp hlt) hquote hslash h

theorem chars_escape (s : CString) : Chars (escape s) s := by
  induction s with
  | nil => exact .nil
  | cons b s ih => exact chars_escapeByte b ih

theorem quoted_stringText (s : CString) : Quoted s (stringText s) := .mk (chars_escape s)

/-! ## Numbers -/

def literal (n : ℤ) : Literal where
  negative := n < 0
  whole := natText n.natAbs
  fraction := []
  exponent := none
  some_digit := natText_ne_nil _
  whole_digits b hb := of_decide_eq_true (natText_bytes hb).1
  fraction_digits := by simp [Digits]
  no_zero := natText_head

theorem literal_text (n : ℤ) : (literal n).text = intText n := by
  rw [intText]
  split
  next h => simp [Literal.text, Literal.signText, Literal.fractionText, Literal.exponentText,
    literal, h]
  next h => simp [Literal.text, Literal.signText, Literal.fractionText, Literal.exponentText,
    literal, h]

theorem literal_value (n : ℤ) : (literal n).value = n := by
  have hmantissa : (literal n).mantissa = n.natAbs := by
    rw [Literal.mantissa, literal, List.append_nil]
    exact decimal_natText _
  have hscale : (literal n).scale = 0 := rfl
  rw [Literal.value, hmantissa, hscale, zpow_zero, mul_one]
  by_cases h : n < 0
  · obtain ⟨k, rfl⟩ : ∃ k : ℕ, n = -k := ⟨n.natAbs, by omega⟩
    simp [literal]
  · obtain ⟨k, rfl⟩ : ∃ k : ℕ, n = k := ⟨n.natAbs, by omega⟩
    simp [literal]

theorem truncDouble_one (a : ℕ) : truncDouble a 1 = a := by
  simp only [truncDouble, Nat.div_one, Nat.mod_one]
  split
  · rfl
  · rw [if_neg (by omega), Nat.mul_div_cancel _ (Nat.two_pow_pos _)]

theorem valueint_whole (n : ℤ) : valueint n = saturate n := by
  rw [valueint, Rat.num_intCast, Rat.den_intCast, truncDouble_one]
  by_cases h : n < 0
  · rw [if_pos (by exact_mod_cast h), show -(n.natAbs : ℤ) = n by omega]
  · rw [if_neg (by exact_mod_cast h), show (n.natAbs : ℤ) = n by omega]

/-! ## Values -/

section Values
variable {V : Type} {R : Reading V} {format : Bool} {depth n : ℕ}

theorem blank_whenFormat {l : List UInt8} (h : ∀ b ∈ l, b = tab ∨ b = newline ∨ b = blank) :
    Blank (whenFormat format l) := by
  rw [whenFormat]
  split
  · intro b hb
    rcases h b hb with rfl | rfl | rfl <;> decide
  · exact blank_nil

theorem blank_tabs : Blank (whenFormat format (List.replicate depth tab)) :=
  blank_whenFormat fun _ hb => Or.inl (List.eq_of_mem_replicate hb)

def Writes (R : Reading V) (format : Bool) (i : Item) : Prop :=
  ∀ n depth, levels i ≤ n → JsonGrammar.Text R numberBytes n (value R i) (i.text format depth)

theorem entries_elements {items : List Item} (hitems : ∀ i ∈ items, Writes R format i)
    (hne : items ≠ []) (hn : levelsItems items ≤ n) :
    Entries (JsonGrammar.Text R numberBytes n) (valueItems R items)
      (elementsText format depth items) := by
  induction items with
  | nil => exact absurd rfl hne
  | cons i next ih =>
    obtain ⟨hi, hnext⟩ := List.forall_mem_cons.mp hitems
    rw [levelsItems] at hn
    have ht := hi n depth (by omega)
    rw [elementsText, valueItems]
    cases next with
    | nil => simpa [valueItems] using Entries.last blank_nil ht blank_nil
    | cons j next =>
      have hblank : Blank (whenFormat format [blank]) := blank_whenFormat (by simp)
      have hrest := (ih hnext (by simp) (by omega)).behind hblank
      simpa [comma] using Entries.more blank_nil ht blank_nil hrest

theorem entries_members {members : List (JsonPrinting.Text × Item)}
    (hitems : ∀ m ∈ members, Writes R format m.2) (hne : members ≠ [])
    (hn : levelsMembers members ≤ n) :
    Entries (Member (JsonGrammar.Text R numberBytes n)) (valueMembers R members)
      (objectText format depth members) := by
  induction members with
  | nil => exact absurd rfl hne
  | cons m next ih =>
    obtain ⟨name, i⟩ := m
    obtain ⟨hi, hnext⟩ := List.forall_mem_cons.mp hitems
    rw [levelsMembers] at hn
    have htab : Blank (whenFormat format [tab]) := blank_whenFormat (by simp)
    have hline : Blank (whenFormat format [newline]) := blank_whenFormat (by simp)
    have ht := Member.mk (quoted_stringText name.bytes) blank_nil htab
      (hi n depth (show levels i ≤ n by omega))
    rw [objectText, valueMembers]
    cases next with
    | nil =>
      simpa [objectText, valueMembers, colon] using Entries.last (@blank_tabs format depth) ht hline
    | cons j next =>
      have hrest := (ih hnext (by simp) (by omega)).behind hline
      simpa [colon, comma] using Entries.more (@blank_tabs format depth) ht blank_nil hrest

theorem writes (R : Reading V) (format : Bool) (i : Item) : Writes R format i := by
  induction i using Item.tree_induction with
  | null =>
    intro n depth _
    rw [Item.text, value]
    exact Text.scalar .null
  | bool b =>
    intro n depth _
    cases b with
    | false =>
      rw [Item.text, value]
      exact Text.scalar .false
    | true =>
      rw [Item.text, value]
      exact Text.scalar .true
  | number k =>
    intro n depth _
    have hlength : (literal k.value).text.length ≤ numberBytes := by
      rw [literal_text]
      exact (intText_length k).trans (by decide)
    have hscalar : Scalar R numberBytes _ _ := .number hlength
    rw [literal_text, literal_value] at hscalar
    rw [Item.text, value]
    exact Text.scalar hscalar
  | string s =>
    intro n depth _
    rw [Item.text, value]
    exact Text.scalar (.string (quoted_stringText s.bytes))
  | array items ih =>
    intro n depth hn
    rw [levels] at hn
    obtain ⟨n, rfl⟩ : ∃ k, n = k + 1 := ⟨n - 1, by omega⟩
    rw [Item.text, value]
    apply Text.array
    cases items with
    | nil =>
      rw [elementsText, valueItems]
      exact .empty blank_nil
    | cons i next => exact .entries (entries_elements ih (by simp) (by omega))
  | object members ih =>
    intro n depth hn
    rw [levels] at hn
    obtain ⟨n, rfl⟩ : ∃ k, n = k + 1 := ⟨n - 1, by omega⟩
    have hline : Blank (whenFormat format [newline]) := blank_whenFormat (by simp)
    rw [Item.text, value]
    apply Text.object
    cases members with
    | nil =>
      rw [objectText, valueMembers]
      simpa [openBrace, closeBrace] using
        Bracketed.empty (hline.append (@blank_tabs format depth))
    | cons m next =>
      have hentries := @entries_members V R format (depth + 1) n _ ih (by simp) (by omega)
      simpa [openBrace, closeBrace] using
        Bracketed.entries ((hentries.behind hline).before (@blank_tabs format depth))

theorem document_text (R : Reading V) (format : Bool) {i : Item} (h : levels i ≤ n) :
    Document R numberBytes n (value R i) (i.text format 0) := by
  simpa using Document.mk blank_nil (writes R format i n 0 h) blank_nil

end Values

/-! ## The item again -/

mutual

/-- The item as the readers of the programs see it; `valueint` is inside the range of `int`. -/
def json : Item → Json
  | .null => .null
  | .bool b => .bool b
  | .number n => .number (saturate n.value)
  | .string s => .string s.bytes
  | .array items => .array (jsonItems items)
  | .object members => .object (jsonMembers members)

def jsonItems : List Item → List Json
  | [] => []
  | i :: next => json i :: jsonItems next

def jsonMembers : List (JsonPrinting.Text × Item) → List (CString × Json)
  | [] => []
  | (name, i) :: next => (name.bytes, json i) :: jsonMembers next

end

theorem value_cJson (i : Item) : value cJson i = json i := by
  induction i using Item.tree_induction with
  | null => rw [value, json]; rfl
  | bool b => rw [value, json]; rfl
  | number k =>
    rw [value, json, ← valueint_whole]
    rfl
  | string s =>
    rw [value, json]
    exact congrArg Json.string (untilNul_of_notMem s.plain)
  | array items ih =>
    have hitems : valueItems cJson items = jsonItems items := by
      induction items with
      | nil => rw [valueItems, jsonItems]
      | cons i next ih' =>
        obtain ⟨hi, hnext⟩ := List.forall_mem_cons.mp ih
        rw [valueItems, jsonItems, hi, ih' hnext]
    rw [value, json, hitems]
    rfl
  | object members ih =>
    have hmembers : (valueMembers cJson members).map (fun m => (untilNul m.1, m.2)) =
        jsonMembers members := by
      induction members with
      | nil => rw [valueMembers, jsonMembers, List.map_nil]
      | cons m next ih' =>
        obtain ⟨name, i⟩ := m
        obtain ⟨hi, hnext⟩ := List.forall_mem_cons.mp ih
        rw [valueMembers, jsonMembers, List.map_cons, ih' hnext, untilNul_of_notMem name.plain, hi]
    rw [value, json, ← hmembers]
    rfl

theorem cJsonParse_text (format : Bool) {i : Item} (h : levels i ≤ nestingLimit) :
    cJsonParse (i.text format 0) = some (json i) := by
  have hparse := @cJsonParse_followed _ _ (document_text cJson format h) [] (by simp [Follows])
  rwa [value_cJson, List.append_nil] at hparse

/-- Whatever the allocations do, printing reads and writes nothing outside its block. It gives up
only when an allocation fails or the text is too long for an `int`, and otherwise returns a block
that is filled by the text and its NUL, of which the parser makes the item again. -/
theorem print_parse (memory : HmsetCommands.Allocations) (format : Bool) {item : Item}
    (h : levels item ≤ nestingLimit) :
    CheckedCode.Returns (print memory item format).run
      (Gives ((∃ i, memory i = none) ∨ intMax < (item.text format 0).length + 2) fun b =>
        b.1 = (item.text format 0).length + 1 ∧
          ∃ text, b.2.text = .ok text ∧ cJsonParse text = some (json item)) := by
  apply (print_spec memory item format).mono
  intro o ho
  cases o with
  | none => exact ho
  | some b =>
    have hbytes : b.2.bytes = item.text format 0 ++ [0] := ho
    refine ⟨?_, item.text format 0, ?_, cJsonParse_text format h⟩
    · rw [← b.2.length_eq, hbytes, List.length_append, List.length_singleton]
    · rw [ByteBuffers.Buffer.text_eq hbytes, untilNul_of_notMem (text_plain format 0 item)]
      rfl

theorem print_parse_true : ∃ b,
    (print (fun _ => some fun _ => 7) (.array [.bool true]) true).run = .ok (some b) ∧
      ∃ text, b.2.text = .ok text ∧ cJsonParse text = some (.array [.bool true]) := by
  obtain ⟨o, hprint, hgives⟩ := print_parse (fun _ => some fun _ => 7) true
    (show levels (.array [.bool true]) ≤ nestingLimit by decide)
  cases o with
  | none =>
    rcases hgives with ⟨i, hi⟩ | hlong
    · simp at hi
    · exact absurd hlong (by decide)
  | some b => exact ⟨b, hprint, hgives.2⟩

end JsonRoundTrips
