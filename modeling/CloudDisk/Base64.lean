import CloudDisk.ByteStrings
import CloudDisk.CheckedCode
import Mathlib.Tactic.IntervalCases

/-! # base64

The two loops of `base64.c`. The encoder takes three bytes at a time and writes four characters.
The decoder takes four characters at a time, looks for the terminator in the first of them only,
and leaves the loop early at an `=` in the third or fourth. Their `int` indices are checked: the
addition that leaves the range is a fault, and so is a read behind the terminator. -/
namespace Base64

open ByteStrings CheckedCode

def base64char : List UInt8 :=
  cstr "ABCDEFGHIJKLMNOPQRSTUVWXYZabcdefghijklmnopqrstuvwxyz0123456789+/"

def padChar : UInt8 := 61

/-- `base64char[(int)current]`; `current` has six bits wherever this stands. -/
def charAt (current : UInt8) : UInt8 := base64char.getD current.toNat 0

/-! ## The encoder -/

section Sextets
variable (a b c : UInt8)

def sextet0 : UInt8 := (a >>> (2 : UInt8)) &&& 0x3F

def sextet1 : UInt8 := ((a <<< (4 : UInt8)) &&& 0x30) ||| ((b >>> (4 : UInt8)) &&& 0x0F)

def sextet2 : UInt8 := ((b <<< (2 : UInt8)) &&& 0x3C) ||| ((c >>> (6 : UInt8)) &&& 0x03)

def sextet3 : UInt8 := c &&& 0x3F

/-- The tail of one byte leaves the loop before the second byte is mixed in. -/
def lastSextet1 : UInt8 := (a <<< (4 : UInt8)) &&& 0x30

def lastSextet2 : UInt8 := (b <<< (2 : UInt8)) &&& 0x3C

end Sextets

/-- What is written from `base64[j]` on, with the terminator. -/
def encodeLoop : ℕ → List UInt8 → Checked (List UInt8)
  | _, [] => pure [0]
  | j, [a] => do
    let _ ← intAdd j 4
    return [charAt (sextet0 a), charAt (lastSextet1 a), padChar, padChar, 0]
  | j, [a, b] => do
    let _ ← intAdd j 4
    return [charAt (sextet0 a), charAt (sextet1 a b), charAt (lastSextet2 b), padChar, 0]
  | j, a :: b :: c :: bindata => do
    let j ← intAdd j 4
    let rest ← encodeLoop j bindata
    return charAt (sextet0 a) :: charAt (sextet1 a b) :: charAt (sextet2 b c) ::
      charAt (sextet3 c) :: rest

def base64Encode (bindata : List UInt8) : Checked (List UInt8) := encodeLoop 0 bindata

/-! ## The decoder -/

/-- The loop over `k`: the last index at which the character stands, and `0xFF` without one. -/
def lookup (ch : UInt8) : UInt8 :=
  (List.range 64).foldl
    (fun temp k => if base64char.getD k 0 = ch then UInt8.ofNat k else temp) 0xFF

section Bytes
variable (t0 t1 t2 t3 : UInt8)

def byte0 : UInt8 := ((t0 <<< (2 : UInt8)) &&& 0xFC) ||| ((t1 >>> (4 : UInt8)) &&& 0x03)

def byte1 : UInt8 := ((t1 <<< (4 : UInt8)) &&& 0xF0) ||| ((t2 >>> (2 : UInt8)) &&& 0x0F)

def byte2 : UInt8 := ((t2 <<< (6 : UInt8)) &&& 0xF0) ||| (t3 &&& 0x3F)

end Bytes

/-- What is written, reading the memory from `base64[i]` on. -/
def decodeLoop : ℕ → List UInt8 → Checked (List UInt8)
  | _, [] => throw .outOfBounds
  | i, c0 :: c1 :: c2 :: c3 :: base64 =>
    if c0 = 0 then pure []
    else if c2 = padChar then pure [byte0 (lookup c0) (lookup c1)]
    else if c3 = padChar then
      pure [byte0 (lookup c0) (lookup c1), byte1 (lookup c1) (lookup c2)]
    else do
      let i ← intAdd i 4
      let rest ← decodeLoop i base64
      return byte0 (lookup c0) (lookup c1) :: byte1 (lookup c1) (lookup c2) ::
        byte2 (lookup c2) (lookup c3) :: rest
  | _, c0 :: _ => if c0 = 0 then pure [] else throw .outOfBounds

/-- The result `j` and the bytes of `bindata[0]` to `bindata[j - 1]`. -/
def base64Decode (base64 : List UInt8) : Checked (ℕ × List UInt8) := do
  let bindata ← decodeLoop 0 base64
  return (bindata.length, bindata)

/-! ## Sextets and bytes -/

section Bits
variable (a b c : UInt8)

theorem or_lt_64 {x y : UInt8} (hx : x < 64) (hy : y < 64) : x ||| y < 64 := by
  rw [UInt8.lt_iff_toNat_lt] at *
  rw [UInt8.toNat_or]
  exact Nat.or_lt_two_pow (n := 6) hx hy

theorem and_lt_64 (x : UInt8) {m : UInt8} (hm : m < 64) : x &&& m < 64 := by
  rw [UInt8.lt_iff_toNat_lt] at *
  rw [UInt8.toNat_and]
  exact Nat.and_lt_two_pow (n := 6) _ hm

theorem sextet0_lt : sextet0 a < 64 := and_lt_64 _ (by decide)

theorem sextet1_lt : sextet1 a b < 64 :=
  or_lt_64 (and_lt_64 _ (by decide)) (and_lt_64 _ (by decide))

theorem sextet2_lt : sextet2 b c < 64 :=
  or_lt_64 (and_lt_64 _ (by decide)) (and_lt_64 _ (by decide))

theorem sextet3_lt : sextet3 c < 64 := and_lt_64 _ (by decide)

theorem lastSextet1_lt : lastSextet1 a < 64 := and_lt_64 _ (by decide)

theorem lastSextet2_lt : lastSextet2 b < 64 := and_lt_64 _ (by decide)

theorem byte0_sextets : byte0 (sextet0 a) (sextet1 a b) = a := by
  apply UInt8.toBitVec_inj.mp
  apply BitVec.eq_of_getLsbD_eq
  intro i hi
  interval_cases i <;> simp [byte0, sextet0, sextet1]

theorem byte0_last : byte0 (sextet0 a) (lastSextet1 a) = a := by
  have h := byte0_sextets a 0
  rwa [show sextet1 a 0 = lastSextet1 a by simp [sextet1, lastSextet1]] at h

theorem byte1_sextets : byte1 (sextet1 a b) (sextet2 b c) = b := by
  apply UInt8.toBitVec_inj.mp
  apply BitVec.eq_of_getLsbD_eq
  intro i hi
  interval_cases i <;> simp [byte1, sextet1, sextet2]

theorem byte1_last : byte1 (sextet1 a b) (lastSextet2 b) = b := by
  have h := byte1_sextets a b 0
  rwa [show sextet2 b 0 = lastSextet2 b by simp [sextet2, lastSextet2]] at h

/-- The mask `0xF0` is wider than needed: `t2 << 6` has no other bits than the top two. -/
theorem byte2_sextets : byte2 (sextet2 b c) (sextet3 c) = c := by
  apply UInt8.toBitVec_inj.mp
  apply BitVec.eq_of_getLsbD_eq
  intro i hi
  interval_cases i <;> simp [byte2, sextet2, sextet3]

end Bits

/-! ## Characters of the alphabet -/

theorem alphabet_facts : 0 ∉ base64char ∧
    ∀ k : Fin 64, lookup (charAt (UInt8.ofNat k)) = UInt8.ofNat k ∧
      charAt (UInt8.ofNat k) ∈ base64char ∧ charAt (UInt8.ofNat k) ≠ 0 ∧
      charAt (UInt8.ofNat k) ≠ padChar := by
  decide +kernel

section Alphabet
variable {t : UInt8}

theorem alphabet_facts_of_lt (h : t < 64) :
    lookup (charAt t) = t ∧ charAt t ∈ base64char ∧ charAt t ≠ 0 ∧ charAt t ≠ padChar := by
  have hlt : t.toNat < 64 := UInt8.lt_iff_toNat_lt.mp h
  have hk := alphabet_facts.2 ⟨t.toNat, hlt⟩
  rwa [show UInt8.ofNat t.toNat = t from UInt8.ofNat_toNat] at hk

theorem lookup_charAt (h : t < 64) : lookup (charAt t) = t := (alphabet_facts_of_lt h).1

theorem charAt_mem (h : t < 64) : charAt t ∈ base64char := (alphabet_facts_of_lt h).2.1

theorem charAt_ne_zero (h : t < 64) : charAt t ≠ 0 := (alphabet_facts_of_lt h).2.2.1

theorem charAt_ne_pad (h : t < 64) : charAt t ≠ padChar := (alphabet_facts_of_lt h).2.2.2

end Alphabet

/-! ## The round trip -/

/-- The characters of a text: the alphabet, and `=` in the last two places only. -/
def PaddedText (t : List UInt8) : Prop :=
  ∀ p ch, t[p]? = some ch → ch ∈ base64char ∨ ch = padChar ∧ t.length ≤ p + 2

structure Encodes (x t : List UInt8) : Prop where
  length_eq : t.length = 4 * ((x.length + 2) / 3)
  padded : PaddedText t
  decodes : ∀ i, i + t.length < 2 ^ 31 → decodeLoop i (t ++ [0]) = .ok x

theorem paddedText_cons {c0 c1 c2 c3 : UInt8} {t : List UInt8} (h0 : c0 ∈ base64char)
    (h1 : c1 ∈ base64char) (h2 : c2 ∈ base64char ∨ c2 = padChar ∧ t = [])
    (h3 : c3 ∈ base64char ∨ c3 = padChar ∧ t = []) (ht : PaddedText t) :
    PaddedText (c0 :: c1 :: c2 :: c3 :: t) := by
  intro p ch hp
  rcases p with _ | _ | _ | _ | p
  · cases hp
    exact Or.inl h0
  · cases hp
    exact Or.inl h1
  · cases hp
    exact h2.imp_right fun ⟨hc, ht⟩ => ⟨hc, by simp [ht]⟩
  · cases hp
    exact h3.imp_right fun ⟨hc, ht⟩ => ⟨hc, by simp [ht]⟩
  · apply (ht p ch hp).imp_right
    rintro ⟨hc, hlen⟩
    refine ⟨hc, ?_⟩
    simp only [List.length_cons]
    omega

theorem paddedText_nil : PaddedText [] := by
  intro p ch hp
  simp at hp

theorem encodes_nil : Encodes [] [] where
  length_eq := rfl
  padded := paddedText_nil
  decodes _ _ := by simp [decodeLoop, pure, Except.pure]

section Groups
variable (a b c : UInt8)

theorem encodes_one :
    Encodes [a] [charAt (sextet0 a), charAt (lastSextet1 a), padChar, padChar] where
  length_eq := by simp
  padded := paddedText_cons (charAt_mem (sextet0_lt a)) (charAt_mem (lastSextet1_lt a))
    (Or.inr ⟨rfl, rfl⟩) (Or.inr ⟨rfl, rfl⟩) paddedText_nil
  decodes i _ := by
    have h0 := charAt_ne_zero (sextet0_lt a)
    simp only [List.cons_append, decodeLoop, h0, if_false, if_true]
    rw [lookup_charAt (sextet0_lt a), lookup_charAt (lastSextet1_lt a), byte0_last]
    rfl

theorem encodes_two :
    Encodes [a, b] [charAt (sextet0 a), charAt (sextet1 a b), charAt (lastSextet2 b), padChar] where
  length_eq := by simp
  padded := paddedText_cons (charAt_mem (sextet0_lt a)) (charAt_mem (sextet1_lt a b))
    (Or.inl (charAt_mem (lastSextet2_lt b))) (Or.inr ⟨rfl, rfl⟩) paddedText_nil
  decodes i _ := by
    have h0 := charAt_ne_zero (sextet0_lt a)
    have h2 := charAt_ne_pad (lastSextet2_lt b)
    simp only [List.cons_append, decodeLoop, h0, h2, if_false, if_true]
    rw [lookup_charAt (sextet0_lt a), lookup_charAt (sextet1_lt a b),
      lookup_charAt (lastSextet2_lt b), byte0_sextets, byte1_last]
    rfl

theorem encodes_cons {x t : List UInt8} (h : Encodes x t) :
    Encodes (a :: b :: c :: x) (charAt (sextet0 a) :: charAt (sextet1 a b) ::
      charAt (sextet2 b c) :: charAt (sextet3 c) :: t) where
  length_eq := by
    simp only [List.length_cons, h.length_eq]
    omega
  padded := paddedText_cons (charAt_mem (sextet0_lt a)) (charAt_mem (sextet1_lt a b))
    (Or.inl (charAt_mem (sextet2_lt b c))) (Or.inl (charAt_mem (sextet3_lt c))) h.padded
  decodes i hi := by
    simp only [List.length_cons] at hi
    have h0 := charAt_ne_zero (sextet0_lt a)
    have h2 := charAt_ne_pad (sextet2_lt b c)
    have h3 := charAt_ne_pad (sextet3_lt c)
    have hadd : intAdd i 4 = .ok (i + 4) := eq_ok_iff.mpr (returns_intAdd.mpr ⟨by omega, rfl⟩)
    have hrest : decodeLoop (i + 4) (t ++ [0]) = .ok x := h.decodes (i + 4) (by omega)
    simp only [List.cons_append, decodeLoop, h0, h2, h3, if_false, hadd, Except.bind, bind, hrest]
    rw [lookup_charAt (sextet0_lt a), lookup_charAt (sextet1_lt a b),
      lookup_charAt (sextet2_lt b c), lookup_charAt (sextet3_lt c), byte0_sextets, byte1_sextets,
      byte2_sextets]
    rfl

end Groups

theorem encodeLoop_spec (j : ℕ) (x : List UInt8) (h : j + 4 * ((x.length + 2) / 3) < 2 ^ 31) :
    Returns (encodeLoop j x) fun out => ∃ t, out = t ++ [0] ∧ Encodes x t := by
  fun_induction encodeLoop j x with
  | case1 => exact returns_pure.mpr ⟨[], rfl, encodes_nil⟩
  | case2 j a =>
    rw [returns_bind, returns_intAdd]
    exact ⟨by simpa using h, returns_pure.mpr ⟨_, rfl, encodes_one a⟩⟩
  | case3 j a b =>
    rw [returns_bind, returns_intAdd]
    exact ⟨by simpa using h, returns_pure.mpr ⟨_, rfl, encodes_two a b⟩⟩
  | case4 j a b c x ih =>
    simp only [List.length_cons] at h
    rw [returns_bind, returns_intAdd]
    refine ⟨by omega, ?_⟩
    obtain ⟨out, hout, t, rfl, ht⟩ := ih (j + 4) (by omega)
    rw [hout]
    exact returns_pure.mpr ⟨_, rfl, encodes_cons a b c ht⟩

theorem Encodes.nul_notMem {x t : List UInt8} (ht : Encodes x t) : 0 ∉ t := by
  intro hmem
  obtain ⟨p, hp⟩ := List.mem_iff_getElem?.mp hmem
  rcases ht.padded p 0 hp with h0 | ⟨h0, -⟩
  · exact alphabet_facts.1 h0
  · exact absurd h0 (by decide)

/-- What is encoded is a text over the alphabet, and decoding it gives the bytes back. -/
theorem base64Decode_base64Encode (x : List UInt8)
    (h : 4 * ((x.length + 2) / 3) < 2 ^ 31 - 4) :
    ∃ t, base64Encode x = .ok (t ++ [0]) ∧ 0 ∉ t ∧ t.length = 4 * ((x.length + 2) / 3) ∧
      (∀ p ch, t[p]? = some ch → ch ∈ base64char ∨ ch = padChar ∧ t.length ≤ p + 2) ∧
      base64Decode (t ++ [0]) = .ok (x.length, x) := by
  obtain ⟨out, hout, t, rfl, ht⟩ := encodeLoop_spec 0 x (by omega)
  have hdecode : decodeLoop 0 (t ++ [0]) = .ok x := by
    apply ht.decodes
    rw [ht.length_eq]
    omega
  refine ⟨t, hout, ht.nul_notMem, ht.length_eq, ht.padded, ?_⟩
  rw [base64Decode, hdecode]
  rfl

/-- A whole group and a tail of one byte. -/
theorem base64Decode_base64Encode_abcd :
    ∃ t, base64Encode [97, 98, 99, 100] = .ok (t ++ [0]) ∧ 0 ∉ t ∧
      t.length = 8 ∧
      (∀ p ch, t[p]? = some ch → ch ∈ base64char ∨ ch = padChar ∧ t.length ≤ p + 2) ∧
      base64Decode (t ++ [0]) = .ok (4, [97, 98, 99, 100]) :=
  base64Decode_base64Encode [97, 98, 99, 100] (by decide)

/-! ## Which strings are decoded inside their memory -/

/-- From `base64[i]` on: either the groups end at the terminator, or one of them is the last
because of an `=` in its third or fourth place. -/
def Stops (i : ℕ) (s : CString) : Prop :=
  4 ∣ s.length ∧ i + s.length < 2 ^ 31 ∨
    ∃ p, i + p < 2 ^ 31 ∧ s[p]? = some padChar ∧ 2 ≤ p % 4

section Stops
variable {i : ℕ} {c0 c1 c2 c3 : UInt8} {s : CString}

theorem not_stops_cut (h0 : s ≠ []) (h4 : s.length < 4) (h2 : s[2]? ≠ some padChar) :
    ¬ Stops i s := by
  have hpos : 0 < s.length := List.length_pos_of_ne_nil h0
  rintro (⟨hdvd, -⟩ | ⟨p, -, hp, hmod⟩)
  · omega
  · have hlt : p < s.length := (List.getElem?_eq_some_iff.mp hp).1
    have hp2 : p ≠ 2 := by
      rintro rfl
      exact h2 hp
    have hp3 : p = 3 := by omega
    omega

theorem stops_pad (hi : 4 ∣ i) (hlt : i < 2 ^ 31) {p : ℕ} (hp : p = 2 ∨ p = 3)
    (h : s[p]? = some padChar) : Stops i s := by
  refine Or.inr ⟨p, ?_, h, ?_⟩
  · omega
  · omega

theorem stops_cons_iff (hi : 4 ∣ i) (hlt : i < 2 ^ 31) (h2 : c2 ≠ padChar) (h3 : c3 ≠ padChar) :
    Stops i (c0 :: c1 :: c2 :: c3 :: s) ↔ i + 4 < 2 ^ 31 ∧ Stops (i + 4) s := by
  constructor
  · rintro (⟨hdvd, hlen⟩ | ⟨p, hp, hpad, hmod⟩)
    · simp only [List.length_cons] at hdvd hlen
      exact ⟨by omega, Or.inl ⟨by omega, by omega⟩⟩
    · rcases p with _ | _ | _ | _ | p
      · omega
      · omega
      · exact absurd (Option.some.inj hpad) h2
      · exact absurd (Option.some.inj hpad) h3
      · exact ⟨by omega, Or.inr ⟨p, by omega, hpad, by omega⟩⟩
  · rintro ⟨-, ⟨hdvd, hlen⟩ | ⟨p, hp, hpad, hmod⟩⟩
    · refine Or.inl ⟨?_, ?_⟩
      · simp only [List.length_cons]
        omega
      · simp only [List.length_cons]
        omega
    · exact Or.inr ⟨p + 4, by omega, hpad, by omega⟩

end Stops

theorem decodeLoop_returns_iff {i : ℕ} {s : CString} (hs : 0 ∉ s) (hi : 4 ∣ i)
    (hlt : i < 2 ^ 31) :
    Returns (decodeLoop i (s ++ [0])) (fun out => out.length ≤ 3 * ((s.length + 3) / 4)) ↔
      Stops i s := by
  -- by the number of characters that are left, a group at a time
  induction hn : s.length using Nat.strong_induction_on generalizing s i with
  | _ n ih =>
  subst hn
  rcases s with _ | ⟨c0, s⟩
  · exact iff_of_true (returns_pure.mpr (Nat.zero_le _)) (Or.inl ⟨Nat.dvd_zero _, hlt⟩)
  have hc0 : c0 ≠ 0 := fun h => hs (h ▸ List.mem_cons_self)
  rcases s with _ | ⟨c1, _ | ⟨c2, s⟩⟩
  · simp only [List.cons_append, List.nil_append, decodeLoop, hc0, if_false, returns_throw,
      false_iff]
    exact not_stops_cut (by simp) (by simp) (by simp)
  · simp only [List.cons_append, List.nil_append, decodeLoop, hc0, if_false, returns_throw,
      false_iff]
    exact not_stops_cut (by simp) (by simp) (by simp)
  by_cases hc2 : c2 = padChar
  · have hstop : Stops i (c0 :: c1 :: c2 :: s) := stops_pad hi hlt (Or.inl rfl) (congrArg some hc2)
    refine iff_of_true ?_ hstop
    rcases s with _ | ⟨c3, s⟩
    · simp [decodeLoop, hc0, hc2]
    · simp only [List.cons_append, decodeLoop, hc0, hc2, if_false, if_true, returns_pure,
        List.length_cons, List.length_nil]
      omega
  rcases s with _ | ⟨c3, s⟩
  · -- the terminator is read as the fourth character, and the next group lies behind it
    have hcut : ¬ Stops i [c0, c1, c2] := not_stops_cut (by simp) (by simp) (by simpa using hc2)
    have hnul : (0 : UInt8) ≠ padChar := by decide
    refine iff_of_false ?_ hcut
    simp [decodeLoop, hc0, hc2, hnul, returns_intAdd]
  by_cases hc3 : c3 = padChar
  · have hstop : Stops i (c0 :: c1 :: c2 :: c3 :: s) :=
      stops_pad hi hlt (Or.inr rfl) (congrArg some hc3)
    refine iff_of_true ?_ hstop
    simp only [List.cons_append, decodeLoop, hc0, hc2, hc3, if_false, if_true, returns_pure,
      List.length_cons, List.length_nil]
    omega
  · rw [stops_cons_iff hi hlt hc2 hc3]
    simp only [List.cons_append, decodeLoop, hc0, hc2, hc3, if_false, returns_bind, returns_intAdd,
      returns_pure, List.length_cons]
    apply and_congr_right
    intro hlt4
    have hs' : 0 ∉ s := fun h => hs (by simp [h])
    rw [← ih s.length (by simp only [List.length_cons]; omega) hs' (by omega) hlt4 rfl]
    have hlen : ∀ m, m + 1 + 1 + 1 ≤ 3 * ((s.length + 1 + 1 + 1 + 1 + 3) / 4) ↔
        m ≤ 3 * ((s.length + 3) / 4) := by
      intro m
      omega
    simp only [hlen]

/-- The exact strings that are decoded without a read behind their terminator or an overflow of
the index; no more than three bytes are then written for each group begun. -/
theorem base64Decode_inBounds_iff (s : CString) (hs : 0 ∉ s) :
    Returns (base64Decode (s ++ [0])) (fun out =>
        out.1 = out.2.length ∧ out.2.length ≤ 3 * ((s.length + 3) / 4)) ↔
      4 ∣ s.length ∧ s.length < 2 ^ 31 ∨
        ∃ p, p < 2 ^ 31 ∧ s[p]? = some padChar ∧ 2 ≤ p % 4 := by
  have h := decodeLoop_returns_iff (i := 0) hs (Nat.dvd_zero _) (by decide)
  simp only [Stops, Nat.zero_add] at h
  rw [← h]
  simp only [base64Decode, returns_bind, returns_pure, true_and]

/-- `TWFu` is decoded. -/
theorem base64Decode_inBounds_four :
    Returns (base64Decode ([84, 87, 70, 117] ++ [0])) (fun out =>
      out.1 = out.2.length ∧
        out.2.length ≤ 3 * ((([84, 87, 70, 117] : List UInt8).length + 3) / 4)) := by
  apply (base64Decode_inBounds_iff [84, 87, 70, 117] (by decide)).mpr
  exact Or.inl (by decide)

/-- Of `A`, two bytes behind the terminator are read. -/
theorem base64Decode_outOfBounds_one :
    base64Decode ([65] ++ [0]) = .error .outOfBounds := by
  decide

end Base64
