import Mathlib.Algebra.Order.Field.Rat
import Mathlib.Data.Rat.Defs

/-! # JSON texts

The grammar of JSON on bytes, as a relation between a text and what it stands for. What it stands
for is left open: a reading says what becomes of each kind of value. Strings are bytes, so that a
character outside ASCII is read as its UTF-8 bytes, whether it is written as they are or escaped.
Two limits that an implementation may have are parameters: the length of a number and the number
of levels. -/
namespace JsonGrammar

structure Reading (V : Type) where
  null : V
  bool : Bool → V
  number : ℚ → V
  string : List UInt8 → V
  array : List V → V
  object : List (List UInt8 × V) → V

def Blank (w : List UInt8) : Prop := ∀ b ∈ w, b = 9 ∨ b = 10 ∨ b = 13 ∨ b = 32

/-! ## Numbers -/

def Digits (l : List UInt8) : Prop := ∀ b ∈ l, 48 ≤ b ∧ b ≤ 57

def decimal (digits : List UInt8) : ℕ := digits.foldl (fun n b => 10 * n + (b.toNat - 48)) 0

/-- The part of a number behind its digits. The sign may be missing or `+`. -/
structure Exponent where
  letter : UInt8
  sign : Option Bool
  digits : List UInt8
  letter_eq : letter = 101 ∨ letter = 69
  some_digit : digits ≠ []
  all_digits : Digits digits

/-- A number as it is written. Only the number zero starts with a zero, and a fraction that is
there has a digit. -/
structure Literal where
  negative : Bool
  whole : List UInt8
  fraction : List UInt8
  exponent : Option Exponent
  some_digit : whole ≠ []
  whole_digits : Digits whole
  fraction_digits : Digits fraction
  no_zero : whole.head? = some 48 → whole = [48]

def Exponent.signText (e : Exponent) : List UInt8 :=
  e.sign.elim [] fun negative => [if negative then 45 else 43]

def Exponent.text (e : Exponent) : List UInt8 := e.letter :: (e.signText ++ e.digits)

def Exponent.value (e : Exponent) : ℤ :=
  if e.sign = some true then -decimal e.digits else decimal e.digits

namespace Literal

def signText (l : Literal) : List UInt8 := if l.negative then [45] else []

def fractionText (l : Literal) : List UInt8 := if l.fraction = [] then [] else 46 :: l.fraction

def exponentText (l : Literal) : List UInt8 := l.exponent.elim [] Exponent.text

def text (l : Literal) : List UInt8 := l.signText ++ l.whole ++ l.fractionText ++ l.exponentText

def mantissa (l : Literal) : ℕ := decimal (l.whole ++ l.fraction)

def scale (l : Literal) : ℤ := l.exponent.elim 0 Exponent.value - l.fraction.length

def value (l : Literal) : ℚ :=
  (if l.negative then -1 else 1) * (l.mantissa : ℚ) * (10 : ℚ) ^ l.scale

end Literal

/-! ## Strings -/

/-- The digits of a hexadecimal number, in either case of letters. -/
def Hex (b : UInt8) (n : ℕ) : Prop :=
  (n < 10 ∧ b.toNat = 48 + n) ∨ (10 ≤ n ∧ n < 16 ∧ (b.toNat = 55 + n ∨ b.toNat = 87 + n))

inductive Hex4 : List UInt8 → ℕ → Prop where
  | mk {a b c d : UInt8} {i j k l : ℕ} (ha : Hex a i) (hb : Hex b j) (hc : Hex c k) (hd : Hex d l) :
    Hex4 [a, b, c, d] (4096 * i + 256 * j + 16 * k + l)

/-- The letter behind a backslash and the byte they stand for. -/
def shortEscapes : List (UInt8 × UInt8) :=
  [(34, 34), (92, 92), (47, 47), (98, 8), (102, 12), (110, 10), (114, 13), (116, 9)]

/-- The text between two quotes and the bytes it stands for. -/
inductive Chars : List UInt8 → List UInt8 → Prop where
  | nil : Chars [] []
  | plain {b : UInt8} {t s : List UInt8} (hb : 32 ≤ b) (hquote : b ≠ 34) (hslash : b ≠ 92)
    (h : Chars t s) : Chars (b :: t) (b :: s)
  | short {letter b : UInt8} {t s : List UInt8} (hb : (letter, b) ∈ shortEscapes)
    (h : Chars t s) : Chars (92 :: letter :: t) (b :: s)
  | code {c : Char} {digits t s : List UInt8} (hd : Hex4 digits c.toNat) (h : Chars t s) :
    Chars (92 :: 117 :: (digits ++ t)) (String.utf8EncodeChar c ++ s)
  -- a character past the first plane is written as two surrogates
  | pair {c : Char} {high low t s : List UInt8} (hc : 65536 ≤ c.toNat)
    (hh : Hex4 high (55296 + (c.toNat - 65536) / 1024))
    (hl : Hex4 low (56320 + (c.toNat - 65536) % 1024)) (h : Chars t s) :
    Chars (92 :: 117 :: (high ++ 92 :: 117 :: (low ++ t))) (String.utf8EncodeChar c ++ s)

inductive Quoted (s : List UInt8) : List UInt8 → Prop where
  | mk {t : List UInt8} (h : Chars t s) : Quoted s (34 :: (t ++ [34]))

/-! ## Values -/

/-- Entries with commas between them and blanks around each. -/
inductive Entries {α : Type} (entry : α → List UInt8 → Prop) : List α → List UInt8 → Prop where
  | last {a : α} {before t after : List UInt8} (hb : Blank before) (ht : entry a t)
    (ha : Blank after) : Entries entry [a] (before ++ (t ++ after))
  | more {a : α} {as : List α} {before t after ts : List UInt8} (hb : Blank before)
    (ht : entry a t) (ha : Blank after) (h : Entries entry as ts) :
    Entries entry (a :: as) (before ++ (t ++ (after ++ 44 :: ts)))

inductive Bracketed {α : Type} (entry : α → List UInt8 → Prop) (first last : UInt8) :
    List α → List UInt8 → Prop where
  | empty {w : List UInt8} (hw : Blank w) : Bracketed entry first last [] (first :: (w ++ [last]))
  | entries {as : List α} {ts : List UInt8} (h : Entries entry as ts) :
    Bracketed entry first last as (first :: (ts ++ [last]))

variable {V : Type}

inductive Member (value : V → List UInt8 → Prop) : List UInt8 × V → List UInt8 → Prop where
  | mk {name : List UInt8} {v : V} {key before after t : List UInt8} (hk : Quoted name key)
    (hb : Blank before) (ha : Blank after) (ht : value v t) :
    Member value (name, v) (key ++ (before ++ 58 :: (after ++ t)))

inductive Scalar (R : Reading V) (limit : ℕ) : V → List UInt8 → Prop where
  | null : Scalar R limit R.null [110, 117, 108, 108]
  | false : Scalar R limit (R.bool false) [102, 97, 108, 115, 101]
  | true : Scalar R limit (R.bool true) [116, 114, 117, 101]
  | number {l : Literal} (h : l.text.length ≤ limit) : Scalar R limit (R.number l.value) l.text
  | string {s t : List UInt8} (h : Quoted s t) : Scalar R limit (R.string s) t

/-- The texts of a value with at most so many arrays and objects inside each other. -/
def Text (R : Reading V) (limit : ℕ) : ℕ → V → List UInt8 → Prop
  | 0, v, t => Scalar R limit v t
  | n + 1, v, t => Scalar R limit v t ∨
      (∃ vs, v = R.array vs ∧ Bracketed (Text R limit n) 91 93 vs t) ∨
      ∃ ms, v = R.object ms ∧ Bracketed (Member (Text R limit n)) 123 125 ms t

inductive Document (R : Reading V) (limit levels : ℕ) (v : V) : List UInt8 → Prop where
  | mk {before t after : List UInt8} (hb : Blank before) (ht : Text R limit levels v t)
    (ha : Blank after) : Document R limit levels v (before ++ (t ++ after))

section Levels
variable {R : Reading V} {limit n : ℕ} {v : V} {t : List UInt8}

theorem Text.scalar (h : Scalar R limit v t) : Text R limit n v t := by
  cases n with
  | zero => exact h
  | succ n => exact Or.inl h

theorem Text.array {vs : List V} (h : Bracketed (Text R limit n) 91 93 vs t) :
    Text R limit (n + 1) (R.array vs) t := Or.inr (Or.inl ⟨vs, rfl, h⟩)

theorem Text.object {ms : List (List UInt8 × V)}
    (h : Bracketed (Member (Text R limit n)) 123 125 ms t) :
    Text R limit (n + 1) (R.object ms) t := Or.inr (Or.inr ⟨ms, rfl, h⟩)

end Levels

/-! ## Blanks around entries -/

theorem blank_nil : Blank [] := by simp [Blank]

theorem Blank.append {w w' : List UInt8} (h : Blank w) (h' : Blank w') : Blank (w ++ w') := by
  intro b hb
  rcases List.mem_append.mp hb with hb | hb
  · exact h b hb
  · exact h' b hb

section Around
variable {α : Type} {entry : α → List UInt8 → Prop} {as : List α} {ts w : List UInt8}

theorem Entries.behind (h : Entries entry as ts) (hw : Blank w) : Entries entry as (w ++ ts) := by
  cases h with
  | last hb ht ha =>
    rw [← List.append_assoc]
    exact .last (hw.append hb) ht ha
  | more hb ht ha h =>
    rw [← List.append_assoc]
    exact .more (hw.append hb) ht ha h

theorem Entries.before (h : Entries entry as ts) (hw : Blank w) : Entries entry as (ts ++ w) := by
  induction h with
  | last hb ht ha =>
    rw [List.append_assoc, List.append_assoc]
    exact .last hb ht (ha.append hw)
  | more hb ht ha h ih =>
    rw [List.append_assoc, List.append_assoc, List.append_assoc, List.cons_append]
    exact .more hb ht ha ih

end Around

/-! ## The first byte -/

/-- Starts with an ASCII character that is neither a blank nor a bracket that closes. -/
def Opens (t : List UInt8) : Prop :=
  ∃ b rest, t = b :: rest ∧ 32 < b ∧ b < 128 ∧ b ≠ 93 ∧ b ≠ 125

theorem Opens.append {t : List UInt8} (h : Opens t) (rest : List UInt8) : Opens (t ++ rest) := by
  obtain ⟨b, l, rfl, hb⟩ := h
  exact ⟨b, l ++ rest, rfl, hb⟩

theorem Quoted.opens {s t : List UInt8} (h : Quoted s t) : Opens t := by
  obtain ⟨h⟩ := h
  exact ⟨34, _, rfl, by decide, by decide, by decide, by decide⟩

theorem Literal.opens (l : Literal) : Opens l.text := by
  cases hneg : l.negative with
  | true =>
    refine ⟨45, l.whole ++ l.fractionText ++ l.exponentText, ?_, by decide, by decide, by decide,
      by decide⟩
    simp [Literal.text, Literal.signText, hneg]
  | false =>
    obtain ⟨b, rest, hwhole⟩ := List.exists_cons_of_ne_nil l.some_digit
    obtain ⟨hlow, hhigh⟩ := l.whole_digits b (by rw [hwhole]; exact List.mem_cons_self)
    refine ⟨b, rest ++ l.fractionText ++ l.exponentText, ?_, ?_, ?_, ?_, ?_⟩
    · simp [Literal.text, Literal.signText, hneg, hwhole]
    · exact UInt8.lt_of_lt_of_le (show (32 : UInt8) < 48 by decide) hlow
    · exact UInt8.lt_of_le_of_lt hhigh (show (57 : UInt8) < 128 by decide)
    · rintro rfl
      exact absurd hhigh (by decide)
    · rintro rfl
      exact absurd hhigh (by decide)

theorem Scalar.opens {R : Reading V} {limit : ℕ} {v : V} {t : List UInt8}
    (h : Scalar R limit v t) : Opens t := by
  cases h with
  | null => exact ⟨_, _, rfl, by decide, by decide, by decide, by decide⟩
  | false => exact ⟨_, _, rfl, by decide, by decide, by decide, by decide⟩
  | true => exact ⟨_, _, rfl, by decide, by decide, by decide, by decide⟩
  | number => exact Literal.opens _
  | string h => exact h.opens

theorem Bracketed.opens {α : Type} {entry : α → List UInt8 → Prop} {first last : UInt8}
    {as : List α} {t : List UInt8} (h : Bracketed entry first last as t)
    (hfirst : 32 < first ∧ first < 128 ∧ first ≠ 93 ∧ first ≠ 125) : Opens t := by
  cases h with
  | empty => exact ⟨_, _, rfl, hfirst⟩
  | entries => exact ⟨_, _, rfl, hfirst⟩

theorem Text.opens {R : Reading V} {limit n : ℕ} {v : V} {t : List UInt8}
    (h : Text R limit n v t) : Opens t := by
  cases n with
  | zero => exact Scalar.opens h
  | succ n =>
    rcases h with h | ⟨vs, -, h⟩ | ⟨ms, -, h⟩
    · exact h.opens
    · exact h.opens (by decide)
    · exact h.opens (by decide)

theorem Member.opens {value : V → List UInt8 → Prop} {m : List UInt8 × V} {t : List UInt8}
    (h : Member value m t) : Opens t := by
  obtain ⟨hk, hb, ha, ht⟩ := h
  exact hk.opens.append _

end JsonGrammar
