import Mathlib.Data.List.Lex
import Mathlib.Data.List.TakeWhile
import Mathlib.Order.Defs.LinearOrder

/-! # C strings

A C string is its bytes without the terminating NUL. Bytes compare as unsigned
numbers and strings as `memcmp` followed by the lengths, which is the list order. -/
namespace ByteStrings

abbrev CString := List UInt8

instance byteOrder : LinearOrder UInt8 where
  le := (· ≤ ·)
  lt := (· < ·)
  le_refl := UInt8.le_refl
  le_trans _ _ _ := UInt8.le_trans
  le_antisymm _ _ := UInt8.le_antisymm
  le_total := UInt8.le_total
  lt_iff_le_not_ge a b := by
    rw [UInt8.not_le]
    exact ⟨fun h => ⟨UInt8.le_of_lt h, h⟩, fun h => h.2⟩
  toDecidableLE := inferInstance
  toDecidableLT := inferInstance

/-- The bytes of a literal of the source; every literal there is ASCII. -/
def cstr (s : String) : CString := s.toList.map fun c => UInt8.ofNat c.toNat

/-- A literal is a list of characters to the kernel; this avoids decoding it. -/
theorem cstr_ofList (l : List Char) :
    cstr (String.ofList l) = l.map fun c => UInt8.ofNat c.toNat := by
  rw [cstr, String.toList_ofList]

/-- What a `char *` reader sees of a byte buffer: everything before the first NUL. -/
def untilNul (bytes : List UInt8) : CString := bytes.takeWhile (· ≠ 0)

/-- The strings that a `char` array of length `n` can hold. -/
def FitsBuffer (n : ℕ) (s : CString) : Prop := s.length < n ∧ (0 : UInt8) ∉ s

theorem untilNul_of_notMem {s : CString} (h : (0 : UInt8) ∉ s) : untilNul s = s := by
  apply List.takeWhile_eq_self_iff.mpr
  intro b hb
  have hne : b ≠ 0 := fun h0 => h (h0 ▸ hb)
  simpa using hne

theorem untilNul_notMem (s : CString) : (0 : UInt8) ∉ untilNul s := by
  intro h
  have := List.mem_takeWhile_imp h
  simp at this

end ByteStrings
