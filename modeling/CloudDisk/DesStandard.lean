import CloudDisk.DesInverse
import CloudDisk.Fips46
import Mathlib.Data.List.FinRange
import Mathlib.Tactic.FinCases
import Mathlib.Tactic.IntervalCases

/-! # Where `desfunc` is the cipher of FIPS 46-3

The halves of the code are those of the standard, rotated by one place to the left. The tables
`SP1` to `SP8` hold the selection functions followed by `P`, also rotated, except for four entries
of `SP5`. So a round is right exactly when the fifth block of six bits does not point at one of
the four. -/
namespace DesStandard

open BitWirings FeistelNetworks Des DesInverse
open Fips46 (permute add select selected)

/-! ## Lists of bits and their tables -/

/-- The place that a table of the standard names, counted from 0. -/
def tableMap (n : ℕ) [NeZero n] {m : ℕ} (table : List ℕ) (p : Fin m) : Fin n :=
  Fin.ofNat n (table.getD p 1 - 1)

/-- Every entry of the table is a number from 1 to `n`. -/
def Spans (m n : ℕ) [NeZero n] (table : List ℕ) : Prop :=
  table = List.ofFn fun p : Fin m => (tableMap n table p).val + 1

instance (m n : ℕ) [NeZero n] (table : List ℕ) : Decidable (Spans m n table) :=
  inferInstanceAs (Decidable (_ = _))

theorem permute_ofFn {m n : ℕ} [NeZero n] {table : List ℕ} (h : Spans m n table)
    (g : Fin n → Bool) :
    permute table (List.ofFn g) = List.ofFn fun p : Fin m => g (tableMap n table p) := by
  rw [permute]
  nth_rewrite 1 [show table = List.ofFn fun p : Fin m => (tableMap n table p).val + 1 from h]
  rw [List.map_ofFn]
  congr 1
  funext p
  simp

theorem add_ofFn {n : ℕ} (a b : Fin n → Bool) :
    add (List.ofFn a) (List.ofFn b) = List.ofFn fun p => a p ^^ b p := by
  apply List.ext_getElem
  · simp [add]
  · intro i _ _
    simp [add]

theorem slice_ofFn {n k m : ℕ} (g : Fin n → Bool) (h : m + k ≤ n) :
    ((List.ofFn g).drop m).take k = List.ofFn fun t : Fin k => g ⟨m + t, by omega⟩ := by
  apply List.ext_getElem
  · simp
    omega
  · intro i _ _
    simp

theorem tables_span : Spans 64 64 Fips46.IP ∧ Spans 64 64 Fips46.FP ∧ Spans 48 32 Fips46.E ∧
    Spans 32 32 Fips46.P ∧ Spans 56 64 Fips46.PC1 ∧ Spans 48 56 Fips46.PC2 := by
  decide +kernel

/-! ## The halves of the standard -/

def half (x : ULong) : List Bool := List.ofFn fun q : Fin 32 => bits 32 x (q + 31)

def standard (s : ULong × ULong) : List Bool × List Bool := (half s.1, half s.2)

theorem half_xor (x y : ULong) : half (x ^^^ y) = add (half x) (half y) := by
  rw [half, half, half, add_ofFn]
  congr 1
  funext q
  exact bits_xor x y _

theorem bits_half (x : ULong) (q : Fin 32) : bits 32 x (q + 31) = x.getLsbD ((32 - q) % 32) := by
  rw [bits, Fin.val_add]
  congr 1
  change 32 - 1 - (q.val + 31) % 32 = (32 - q.val) % 32
  omega

/-! ## Selection functions -/

def boxTable (sp5 : List ULong) : ℕ → List ULong
  | 0 => SP1
  | 1 => SP2
  | 2 => SP3
  | 3 => SP4
  | 4 => sp5
  | 5 => SP6
  | 6 => SP7
  | 7 => SP8
  | _ => []

def boxWork (keys : ULong × ULong) (right : ULong) (c : ℕ) : ULong :=
  (if c % 2 = 0 then ((right <<< 28) ||| (right >>> 4)) ^^^ keys.1 else right ^^^ keys.2) >>>
    (24 - 8 * (c / 2))

theorem or_order (b1 b2 b3 b4 b5 b6 b7 b8 : Bool) :
    (b7 || b5 || b3 || b1 || b8 || b6 || b4 || b2) =
      (b1 || (b2 || (b3 || (b4 || (b5 || (b6 || (b7 || b8))))))) := by
  ac_rfl

theorem bits_fvalWith (sp5 : List ULong) (keys : ULong × ULong) (right : ULong) (p : Fin 32) :
    bits 32 (fvalWith sp5 keys right) p =
      (List.range 8).any fun c => bits 32 (entry (boxTable sp5 c) (boxWork keys right c)) p := by
  have hrange : List.range 8 = [0, 1, 2, 3, 4, 5, 6, 7] := rfl
  have h0 : ∀ x : ULong, x >>> 0 = x := BitVec.ushiftRight_zero
  simp only [fvalWith, bits_or, hrange, List.any_cons, List.any_nil, Bool.or_false, boxTable,
    boxWork, Nat.reduceMod, Nat.reduceDiv, Nat.reduceMul, Nat.reduceSub, reduceIte, h0,
    Nat.reduceEqDiff]
  exact or_order _ _ _ _ _ _ _ _

/-- The number that a selection function gives for a block of six bits. -/
def sValue (c x : ℕ) : ℕ :=
  (Fips46.S.getD c []).getD (16 * (2 * (x / 32) + x % 2) + x / 2 % 16) 0

theorem number_six : ∀ b1 b2 b3 b4 b5 b6 : Bool,
    number [b1, b6] = 2 * (number [b1, b2, b3, b4, b5, b6] / 32) +
      number [b1, b2, b3, b4, b5, b6] % 2 ∧
    number [b2, b3, b4, b5] = number [b1, b2, b3, b4, b5, b6] / 2 % 16 := by
  decide

theorem select_eq {c : ℕ} {b : List Bool} (h : b.length = 6) :
    select (Fips46.S.getD c []) b =
      List.ofFn fun j : Fin 4 => (sValue c (number b)).testBit (3 - j) := by
  obtain ⟨b1, b2, b3, b4, b5, b6, rfl⟩ : ∃ b1 b2 b3 b4 b5 b6, b = [b1, b2, b3, b4, b5, b6] := by
    rcases b with _ | ⟨b1, _ | ⟨b2, _ | ⟨b3, _ | ⟨b4, _ | ⟨b5, _ | ⟨b6, _ | ⟨b7, b⟩⟩⟩⟩⟩⟩⟩ <;>
      simp at h
    exact ⟨b1, b2, b3, b4, b5, b6, rfl⟩
  obtain ⟨hrow, hcolumn⟩ := number_six b1 b2 b3 b4 b5 b6
  rw [sValue, ← hrow, ← hcolumn]
  rfl

/-- The bit of a word at which each of the four bits of a selection function arrives. -/
def weights : List (List ULong) :=
  [[0x01000000, 0x00010000, 0x00000400, 0x00000004],
    [0x00100000, 0x00000020, 0x80000000, 0x00008000],
    [0x00000200, 0x00020000, 0x00000008, 0x08000000],
    [0x00000080, 0x00002000, 0x00800000, 0x00000001],
    [0x02000000, 0x00080000, 0x00000100, 0x40000000],
    [0x20000000, 0x00000010, 0x00400000, 0x00004000],
    [0x00000002, 0x00200000, 0x00000800, 0x04000000],
    [0x10000000, 0x00000040, 0x00040000, 0x00001000]]

def weight (c j : ℕ) : ULong := (weights.getD c []).getD j 0

/-- What stands in the table for selection function `c` where it gives `v`. -/
def boxWord (c v : ℕ) : ULong :=
  (List.range 4).foldl (fun w j => if v.testBit (3 - j) then w ||| weight c j else w) 0

theorem bits_weight : ∀ (c : Fin 8) (j : Fin 4) (q : Fin 32),
    bits 32 (weight c j) (q + 31) =
      decide ((tableMap 32 Fips46.P q : Fin 32).val = 4 * c.val + j.val) := by
  decide +kernel

def Holds (sp5 : List ULong) (c x : ℕ) : Prop :=
  (boxTable sp5 c).getD x 0 = boxWord c (sValue c x)

instance (sp5 : List ULong) (c x : ℕ) : Decidable (Holds sp5 c x) :=
  inferInstanceAs (Decidable (_ = _))

def faulty : List ℕ := [46, 53, 54, 55]

/-- The eight tables hold the selection functions, with four wrong entries in the fifth. -/
theorem wrong_entries :
    ((List.range 8).map fun c => (List.range 64).filter fun x => !decide (Holds SP5 c x)) =
      [[], [], [], [], faulty, [], [], []] := by
  decide +kernel

theorem holds_of_notMem {c x : ℕ} (hc : c < 8) (hx : x < 64) (h : c = 4 → x ∉ faulty) :
    Holds SP5 c x := by
  by_contra hwrong
  have hrow := congrArg (fun l => l.getD c []) wrong_entries
  simp only [List.getD_eq_getElem?_getD, List.getElem?_map, List.getElem?_range hc, Option.map_some,
    Option.getD_some] at hrow
  have hmem : x ∈ (List.range 64).filter fun x => !decide (Holds SP5 c x) := by
    rw [List.mem_filter, List.mem_range]
    exact ⟨hx, by simpa using hwrong⟩
  rw [hrow] at hmem
  interval_cases c
  all_goals first
    | exact h rfl hmem
    | cases hmem

def correctedSP5 : List ULong :=
  (((SP5.set 46 0x02000000).set 53 0).set 54 0x40080000).set 55 0x42000000

theorem corrected_entries :
    (List.range 64).all fun x => decide (Holds correctedSP5 4 x) := by
  decide +kernel

theorem holds_corrected {c x : ℕ} (hc : c < 8) (hx : x < 64) : Holds correctedSP5 c x := by
  by_cases h4 : c = 4
  · subst h4
    exact of_decide_eq_true (List.all_eq_true.mp corrected_entries x (List.mem_range.mpr hx))
  · have hsame : boxTable correctedSP5 c = boxTable SP5 c := by
      interval_cases c <;> first | rfl | exact absurd rfl h4
    have hholds := holds_of_notMem hc hx fun h => absurd h h4
    rwa [Holds, hsame]

section Boxes
variable {c : ℕ} {q : Fin 32}

/-- The selection function and the bit of it from which `P` takes bit `q`. -/
def source (q : Fin 32) : ℕ := (tableMap 32 Fips46.P q : Fin 32).val

theorem bits_boxWord (hc : c < 8) (v : ℕ) (q : Fin 32) :
    bits 32 (boxWord c v) (q + 31) =
      (decide (source q / 4 = c) && v.testBit (3 - source q % 4)) := by
  have hstep : ∀ (b : Bool) (w u : ULong) (p : Fin 32),
      bits 32 (if b then w ||| u else w) p = (bits 32 w p || (b && bits 32 u p)) := by
    intro b w u p
    cases b <;> simp [bits_or]
  have hweight : ∀ j < 4, bits 32 (weight c j) (q + 31) = decide (source q = 4 * c + j) :=
    fun j hj => bits_weight ⟨c, hc⟩ ⟨j, hj⟩ q
  have hzero : bits 32 (0 : ULong) (q + 31) = false := BitVec.getLsbD_zero
  have hrange : List.range 4 = [0, 1, 2, 3] := rfl
  simp only [boxWord, hrange, List.foldl_cons, List.foldl_nil, hstep]
  rw [hweight 0 (by decide), hweight 1 (by decide), hweight 2 (by decide), hweight 3 (by decide),
    hzero]
  have hsplit : ∀ j < 4, decide (source q = 4 * c + j) =
      (decide (source q / 4 = c) && decide (source q % 4 = j)) := by
    intro j hj
    rw [← Bool.decide_and]
    exact decide_eq_decide.mpr (by omega)
  rw [hsplit 0 (by decide), hsplit 1 (by decide), hsplit 2 (by decide), hsplit 3 (by decide)]
  have hlt : source q % 4 < 4 := Nat.mod_lt _ (by decide)
  generalize source q % 4 = r at *
  interval_cases r <;> simp [Bool.and_comm]

end Boxes

/-- The index with which a round looks into the table for selection function `c`. -/
def boxInput (keys : ULong × ULong) (right : ULong) (c : ℕ) : ℕ :=
  (boxWork keys right c &&& 0x3f).toNat

theorem boxInput_lt (keys : ULong × ULong) (right : ULong) (c : ℕ) :
    boxInput keys right c < 64 := by
  rw [boxInput, BitVec.toNat_and]
  exact Nat.and_lt_two_pow (n := 6) _ (by decide)

section Rounds
variable {sp5 : List ULong} {keys : ULong × ULong} {right : ULong}

theorem bits_fvalWith_box {q : Fin 32} {c : ℕ} (hc : c < 8) (hq : source q / 4 = c)
    (h : ∀ c' < 8, c' ≠ c → Holds sp5 c' (boxInput keys right c')) :
    bits 32 (fvalWith sp5 keys right) (q + 31) =
      bits 32 ((boxTable sp5 c).getD (boxInput keys right c) 0) (q + 31) := by
  have hother : ∀ c' < 8, c' ≠ c →
      bits 32 ((boxTable sp5 c').getD (boxInput keys right c') 0) (q + 31) = false := by
    intro c' hc' hne
    rw [h c' hc' hne, bits_boxWord hc', hq, decide_eq_false (Ne.symm hne), Bool.false_and]
  rw [bits_fvalWith, Bool.eq_iff_iff, List.any_eq_true]
  constructor
  · rintro ⟨c', hc', hbit⟩
    by_cases hne : c' = c
    · subst hne
      exact hbit
    · have hfalse := hother c' (List.mem_range.mp hc') hne
      exact absurd (hfalse.symm.trans hbit) (by decide)
  · intro hbit
    exact ⟨c, List.mem_range.mpr hc, hbit⟩

theorem source_lt (q : Fin 32) : source q / 4 < 8 := by
  have hlt : source q < 32 := (tableMap 32 Fips46.P q : Fin 32).isLt
  omega

theorem half_fvalWith (h : ∀ c < 8, Holds sp5 c (boxInput keys right c)) :
    half (fvalWith sp5 keys right) = List.ofFn fun q : Fin 32 =>
      (sValue (source q / 4) (boxInput keys right (source q / 4))).testBit (3 - source q % 4) := by
  rw [half]
  congr 1
  funext q
  rw [bits_fvalWith_box (source_lt q) rfl fun c' hc' _ => h c' hc', h _ (source_lt q),
    bits_boxWord (source_lt q), decide_eq_true rfl, Bool.true_and]

/-- Each wrong entry is wrong in a bit that no other selection function sets. -/
theorem faulty_bit : ∀ x ∈ faulty, ∃ q : Fin 32, source q / 4 = 4 ∧
    bits 32 (SP5.getD x 0) (q + 31) ≠ (sValue 4 x).testBit (3 - source q % 4) := by
  decide

theorem half_fvalWith_faulty (h : boxInput keys right 4 ∈ faulty) :
    half (fvalWith SP5 keys right) ≠ List.ofFn fun q : Fin 32 =>
      (sValue (source q / 4) (boxInput keys right (source q / 4))).testBit (3 - source q % 4) := by
  obtain ⟨q, hq, hbit⟩ := faulty_bit _ h
  intro heq
  have hat := congrFun (List.ofFn_injective heq) q
  rw [bits_fvalWith_box (by decide) hq fun c' hc' hne =>
    holds_of_notMem hc' (boxInput_lt keys right c') fun h4 => absurd h4 hne, hq] at hat
  exact hbit hat

/-! ## Blocks of six bits -/

/-- The words that a round takes hold the forty-eight bits of a key of the standard. -/
def KeyWords (keys : ULong × ULong) (K : Fin 48 → Bool) : Prop :=
  ∀ (c : Fin 8) (t : Fin 6), K ⟨6 * c + t, by omega⟩ =
    (if c.val % 2 = 0 then keys.1 else keys.2).getLsbD (24 - 8 * (c / 2) + (5 - t))

theorem expansion_places : ∀ (c : Fin 8) (t : Fin 6),
    (32 - (tableMap 32 Fips46.E (⟨6 * c + t, by omega⟩ : Fin 48) : Fin 32).val) % 32 =
      if c.val % 2 = 0 then (24 - 8 * (c.val / 2) + (5 - t.val) + 4) % 32
      else 24 - 8 * (c.val / 2) + (5 - t.val) := by
  decide

theorem getLsbD_rot4 (hright : right.toNat < 2 ^ 32) {j : ℕ} (hj : j < 32) :
    ((right <<< 28) ||| (right >>> 4)).getLsbD j = right.getLsbD ((j + 4) % 32) := by
  rw [BitVec.getLsbD_or, BitVec.getLsbD_shiftLeft, BitVec.getLsbD_ushiftRight]
  by_cases h28 : j < 28
  · rw [decide_eq_true h28, Bool.not_true, Bool.and_false, Bool.false_and, Bool.false_or,
      Nat.mod_eq_of_lt (by omega), Nat.add_comm]
  · have hhigh : right.getLsbD (4 + j) = false := getLsbD_eq_false hright (by omega)
    rw [decide_eq_false h28, decide_eq_true (by omega), hhigh, Bool.not_false, Bool.true_and,
      Bool.true_and, Bool.or_false]
    congr 1
    omega

theorem selected_eq {K : Fin 48 → Bool} (hright : right.toNat < 2 ^ 32) (hkey : KeyWords keys K)
    {c : ℕ} (hc : c < 8) :
    selected (half right) (List.ofFn K) c = List.ofFn (bits 6 (boxWork keys right c)) := by
  obtain ⟨-, -, hE, -⟩ := tables_span
  rw [selected, half, permute_ofFn hE, add_ofFn, slice_ofFn _ (by omega)]
  congr 1
  funext t
  have hplace := expansion_places ⟨c, hc⟩ t
  have hbit := hkey ⟨c, hc⟩ t
  simp only at hplace hbit
  rw [bits_half, hplace, hbit, bits, boxWork, BitVec.getLsbD_ushiftRight]
  by_cases heven : c % 2 = 0
  · rw [if_pos heven, if_pos heven, if_pos heven, BitVec.getLsbD_xor,
      getLsbD_rot4 hright (by omega)]
  · rw [if_neg heven, if_neg heven, if_neg heven, BitVec.getLsbD_xor]

theorem number_selected {K : Fin 48 → Bool} (hright : right.toNat < 2 ^ 32)
    (hkey : KeyWords keys K) {c : ℕ} (hc : c < 8) :
    number (selected (half right) (List.ofFn K) c) = boxInput keys right c := by
  have hmask : (0x3f : ULong).toNat = 2 ^ 6 - 1 := rfl
  rw [selected_eq hright hkey hc, number_bits, boxInput, BitVec.toNat_and, hmask,
    Nat.and_two_pow_sub_one_eq_mod]

theorem f_eq {K : Fin 48 → Bool} (hright : right.toNat < 2 ^ 32) (hkey : KeyWords keys K) :
    Fips46.f (List.ofFn K) (half right) = List.ofFn fun q : Fin 32 =>
      (sValue (source q / 4) (boxInput keys right (source q / 4))).testBit (3 - source q % 4) := by
  obtain ⟨-, -, -, hP, -⟩ := tables_span
  have hboxes : ((List.range 8).flatMap fun c =>
      select (Fips46.S.getD c []) (selected (half right) (List.ofFn K) c)) =
      List.ofFn fun p : Fin 32 =>
        (sValue (p / 4) (boxInput keys right (p / 4))).testBit (3 - p % 4) := by
    have hselect : ∀ c ∈ List.range 8,
        select (Fips46.S.getD c []) (selected (half right) (List.ofFn K) c) =
          List.ofFn fun j : Fin 4 => (sValue c (boxInput keys right c)).testBit (3 - j) := by
      intro c hc
      have hlen : (selected (half right) (List.ofFn K) c).length = 6 := by
        rw [selected_eq hright hkey (List.mem_range.mp hc), List.length_ofFn]
      rw [select_eq hlen, number_selected hright hkey (List.mem_range.mp hc)]
    rw [List.flatMap_congr hselect]
    rfl
  rw [Fips46.f, hboxes, permute_ofFn hP]
  rfl

end Rounds

/-! ## One round -/

section Round
variable {s : ULong × ULong} {keys : ULong × ULong} {K : Fin 48 → Bool} {sp5 : List ULong}

theorem add_left_inj {n : ℕ} {a b c : Fin n → Bool}
    (h : add (List.ofFn a) (List.ofFn b) = add (List.ofFn a) (List.ofFn c)) : b = c := by
  rw [add_ofFn, add_ofFn] at h
  funext p
  have hp := congrFun (List.ofFn_injective h) p
  exact Bool.xor_right_inj.mp hp

theorem standard_round (hs : Low s) (hkey : KeyWords keys K)
    (h : ∀ c < 8, Holds sp5 c (boxInput keys s.2 c)) :
    standard (roundStep (· ^^^ ·) (fvalWith sp5) s keys) =
      roundStep add Fips46.f (standard s) (List.ofFn K) := by
  rw [standard, roundStep, roundStep, half_xor, half_fvalWith h, standard, f_eq hs.2 hkey]

/-- The round of the code is the one of the standard unless the fifth block points at one of the
wrong entries. -/
theorem standard_round_iff (hs : Low s) (hkey : KeyWords keys K) :
    standard (roundStep (· ^^^ ·) (fvalWith SP5) s keys) =
        roundStep add Fips46.f (standard s) (List.ofFn K) ↔
      number (selected (half s.2) (List.ofFn K) 4) ∉ faulty := by
  rw [number_selected hs.2 hkey (by decide)]
  constructor
  · intro heq hmem
    have hsecond := congrArg Prod.snd heq
    simp only [standard, roundStep, half_xor, f_eq hs.2 hkey] at hsecond
    have hval := add_left_inj hsecond
    exact half_fvalWith_faulty hmem (congrArg List.ofFn hval)
  · intro hmem
    apply standard_round hs hkey
    intro c hc
    apply holds_of_notMem hc (boxInput_lt _ _ _)
    rintro rfl
    exact hmem

end Round

/-! ## The key schedule -/

/-- The bits of bytes, the most significant bit of each first. -/
def bytesBits (l : List UInt8) : List Bool := l.flatMap fun b => List.ofFn (bits 8 b.toBitVec)

theorem cook_bits (raw0 raw1 : ULong) (c : Fin 8) (t : Fin 6) :
    (if c.val % 2 = 0 then cook0 raw0 raw1 else cook1 raw0 raw1).getLsbD
        (24 - 8 * (c.val / 2) + (5 - t.val)) =
      if 6 * c.val + t.val < 24 then raw0.getLsbD (23 - (6 * c.val + t.val))
      else raw1.getLsbD (47 - (6 * c.val + t.val)) := by
  fin_cases c <;> fin_cases t <;>
    simp only [cook0, cook1, Nat.reduceMod, Nat.reduceDiv, Nat.reduceMul, Nat.reduceAdd,
      Nat.reduceSub, Nat.reduceLT, Nat.zero_mod, Nat.zero_div, Nat.mul_zero, Nat.mul_one,
      Nat.sub_zero, Nat.add_zero, Nat.zero_add, Nat.reduceEqDiff, reduceIte, BitVec.getLsbD_or,
      BitVec.getLsbD_and, BitVec.getLsbD_shiftLeft, BitVec.getLsbD_ushiftRight,
      BitVec.ofNat_eq_ofNat, BitVec.reduceGetLsb, decide_true, decide_false, Bool.not_true,
      Bool.not_false, Bool.and_true, Bool.true_and, Bool.and_false, Bool.false_and, Bool.or_false,
      Bool.false_or]

theorem getLsbD_fold (b : ℕ → Bool) (m : ℕ → ULong) (l : List ℕ) (w : ULong) (i : ℕ) :
    (l.foldl (fun w j => if b j then w ||| m j else w) w).getLsbD i =
      (w.getLsbD i || l.any fun j => b j && (m j).getLsbD i) := by
  induction l generalizing w with
  | nil => simp
  | cons j l ih =>
    rw [List.foldl_cons, ih, List.any_cons]
    cases hb : b j
    · simp
    · simp [Bool.or_assoc]

theorem bigbyte_eq : ∀ j < 24, bigbyte.getD j 0 = BitVec.twoPow 64 (23 - j) := by
  decide

theorem getLsbD_rawWord (key : List UInt8) (i offset : ℕ) {j : ℕ} (hj : j < 24) :
    (rawWord key i offset).getLsbD (23 - j) =
      (pcr key i).getD (pc2.getD (j + offset) 0) false := by
  have hbit : ∀ j' < 24, (bigbyte.getD j' 0).getLsbD (23 - j) = decide (j' = j) := by
    intro j' hj'
    rw [bigbyte_eq j' hj', BitVec.getLsbD_twoPow, decide_eq_true (by omega), Bool.true_and]
    exact decide_eq_decide.mpr (by omega)
  have hzero : (0 : ULong).getLsbD (23 - j) = false := BitVec.getLsbD_zero
  rw [rawWord, getLsbD_fold, hzero, Bool.false_or, Bool.eq_iff_iff, List.any_eq_true]
  constructor
  · rintro ⟨j', hj', h⟩
    rw [hbit j' (List.mem_range.mp hj'), Bool.and_eq_true, decide_eq_true_eq] at h
    obtain ⟨hb, rfl⟩ := h
    exact hb
  · intro h
    exact ⟨j, List.mem_range.mpr hj, by rw [h, hbit j hj, decide_eq_true rfl]; rfl⟩

section Keys
variable (key : List UInt8)

/-- The bits of the key for round `i`, from the bits that `pcr` holds. -/
def keyBits (i : ℕ) (q : Fin 48) : Bool := (pcr key i).getD (pc2.getD q 0) false

theorem keyWords_roundKey (i : ℕ) :
    KeyWords
      (cook0 (rawWord key i 0) (rawWord key i 24), cook1 (rawWord key i 0) (rawWord key i 24))
      (keyBits key i) := by
  intro c t
  rw [cook_bits]
  split
  · rw [getLsbD_rawWord key i 0 (by assumption)]
    rfl
  · rw [show 47 - (6 * c.val + t.val) = 23 - (6 * c.val + t.val - 24) by omega,
      getLsbD_rawWord key i 24 (by omega), Nat.sub_add_cancel (by omega)]
    rfl

theorem ofFn_getD {n : ℕ} {l : List ℕ} (h : l.length = n) (F : ℕ → Bool) :
    List.ofFn (fun q : Fin n => F (l.getD q 0)) = l.map F := by
  apply List.ext_getElem
  · rw [List.length_ofFn, List.length_map, h]
  · intro i hi _
    rw [List.length_ofFn] at hi
    simp [List.getD_eq_getElem?_getD, h ▸ hi]

theorem tables_eq : pc2 = Fips46.PC2.map (· - 1) ∧ pc1 = Fips46.PC1.map (· - 1) ∧
    pc1.all (· < 64) := by
  decide

theorem ofFn_keyBits (i : ℕ) : List.ofFn (keyBits key i) = permute Fips46.PC2 (pcr key i) := by
  have hmap : List.ofFn (keyBits key i) = pc2.map fun j => (pcr key i).getD j false :=
    ofFn_getD (by decide) fun j => (pcr key i).getD j false
  rw [hmap, tables_eq.1, List.map_map]
  rfl

def keyBit (l : ℕ) : Bool := (key.getD (l / 8) 0).toBitVec.getLsbD (7 - l % 8)

theorem bytebit_eq : ∀ m < 8, (bytebit.getD m 0).toBitVec = BitVec.twoPow 8 (7 - m) ∧
    BitVec.twoPow 8 (7 - m) ≠ 0 := by
  decide

theorem test_bytebit (b : UInt8) {m : ℕ} (hm : m < 8) :
    decide (b &&& bytebit.getD m 0 ≠ 0) = b.toBitVec.getLsbD (7 - m) := by
  obtain ⟨hbyte, hne⟩ := bytebit_eq m hm
  have hzero : b &&& bytebit.getD m 0 = 0 ↔ b.toBitVec &&& BitVec.twoPow 8 (7 - m) = 0 := by
    rw [← hbyte, ← UInt8.toBitVec_and, ← UInt8.toBitVec_inj]
    rfl
  rw [BitVec.and_twoPow] at hzero
  cases hbit : b.toBitVec.getLsbD (7 - m)
  · rw [hbit] at hzero
    exact decide_eq_false (not_not.mpr (hzero.mpr rfl))
  · rw [hbit] at hzero
    exact decide_eq_true fun h => hne (hzero.mp h)

theorem bytesBits_key (h : key.length = 8) :
    bytesBits key = List.ofFn fun p : Fin 64 => keyBit key p := by
  rcases key with
    _ | ⟨k0, _ | ⟨k1, _ | ⟨k2, _ | ⟨k3, _ | ⟨k4, _ | ⟨k5, _ | ⟨k6, _ | ⟨k7, _ | _⟩⟩⟩⟩⟩⟩⟩⟩
  all_goals first
    | rfl
    | simp at h

theorem pc1m_eq (h : key.length = 8) : pc1m key = permute Fips46.PC1 (bytesBits key) := by
  obtain ⟨-, hpc1, hlt⟩ := tables_eq
  have hbits : pc1m key = pc1.map (keyBit key) := by
    apply List.map_congr_left
    intro l _
    rw [Nat.shiftRight_eq_div_pow, show (7 : ℕ) = 2 ^ 3 - 1 from rfl,
      Nat.and_two_pow_sub_one_eq_mod]
    exact test_bytebit _ (Nat.mod_lt _ (by decide))
  have hget : ∀ l ∈ pc1, keyBit key l = (bytesBits key).getD l false := by
    intro l hl
    have hl' : l < 64 := of_decide_eq_true (List.all_eq_true.mp hlt l hl)
    rw [bytesBits_key key h, List.getD_eq_getElem?_getD, List.getElem?_ofFn, dif_pos hl']
    rfl
  rw [hbits, List.map_congr_left hget, hpc1, List.map_map]
  rfl

theorem totrot_le : ∀ i < 16, totrot.getD i 0 ≤ 28 := by decide

theorem rotate_eq {l : List Bool} (hl : l.length = 28) {t : ℕ} (ht : t ≤ 28) :
    l.rotate t = (List.range 28).map fun j =>
      if j + t < 28 then l.getD (j + t) false else l.getD (j + t - 28) false := by
  apply List.ext_getElem
  · rw [List.length_rotate, List.length_map, List.length_range, hl]
  · intro j hj _
    rw [List.length_rotate, hl] at hj
    rw [List.getElem_rotate, List.getElem_map, List.getElem_range]
    split
    · next hlt => simp [hl, Nat.mod_eq_of_lt hlt, hlt]
    · next hge =>
      have hmod : (j + t) % 28 = j + t - 28 := by omega
      have hlt : j + t - 28 < 28 := by omega
      simp [hl, hmod, hlt]

theorem pcr_eq {i : ℕ} (hi : i < 16) :
    pcr key i = ((pc1m key).take 28).rotate (totrot.getD i 0) ++
      ((pc1m key).drop 28).rotate (totrot.getD i 0) := by
  have hlen : (pc1m key).length = 56 := by
    rw [pc1m, List.length_map]
    rfl
  have ht := totrot_le i hi
  have hrange : List.range 56 = List.range 28 ++ (List.range 28).map (28 + ·) := rfl
  rw [rotate_eq (by rw [List.length_take, hlen]; rfl) ht,
    rotate_eq (by rw [List.length_drop, hlen]) ht, pcr, hrange, List.map_append, List.map_map]
  congr 1
  · apply List.map_congr_left
    intro j hj
    have hj' : j < 28 := List.mem_range.mp hj
    have htake : ∀ k < 28, ((pc1m key).take 28).getD k false = (pc1m key).getD k false := by
      intro k hk
      simp [List.getD_eq_getElem?_getD, List.getElem?_take_of_lt hk]
    simp only [if_pos hj']
    split
    · next hlt => exact (htake _ hlt).symm
    · exact (htake _ (by omega)).symm
  · apply List.map_congr_left
    intro j _
    have hdrop : ∀ k, ((pc1m key).drop 28).getD k false = (pc1m key).getD (28 + k) false := by
      intro k
      simp [List.getD_eq_getElem?_getD, List.getElem?_drop]
    have hle : ¬ 28 + j < 28 := by omega
    simp only [Function.comp_apply, if_neg hle, hdrop, Nat.add_assoc 28 j]
    by_cases hlt : j + totrot.getD i 0 < 28
    · rw [if_pos (by omega), if_pos hlt]
    · rw [if_neg (by omega), if_neg hlt]
      congr 1
      omega

def totals : ℕ → List ℕ → List ℕ
  | _, [] => []
  | t, s :: ss => (t + s) :: totals (t + s) ss

theorem keysFrom_rotate (C D : List Bool) (t : ℕ) (ss : List ℕ) :
    Fips46.keysFrom (C.rotate t) (D.rotate t) ss =
      (totals t ss).map fun t => permute Fips46.PC2 (C.rotate t ++ D.rotate t) := by
  induction ss generalizing t with
  | nil => rfl
  | cons s ss ih =>
    rw [Fips46.keysFrom, List.rotate_rotate, List.rotate_rotate, ih]
    rfl

theorem totals_shifts : totals 0 Fips46.shifts = (List.range 16).map fun i => totrot.getD i 0 := by
  decide

theorem keySchedule_eq (h : key.length = 8) :
    Fips46.keySchedule (bytesBits key) =
      (List.range 16).map fun i => List.ofFn (keyBits key i) := by
  have hkeys := keysFrom_rotate ((pc1m key).take 28) ((pc1m key).drop 28) 0 Fips46.shifts
  rw [List.rotate_zero, List.rotate_zero, totals_shifts, List.map_map] at hkeys
  rw [Fips46.keySchedule, ← pc1m_eq key h, hkeys]
  apply List.map_congr_left
  intro i hi
  rw [ofFn_keyBits, pcr_eq key (List.mem_range.mp hi)]
  rfl

end Keys

/-! ## Blocks -/

/-- The word and the bit of it where bit `p` of a block stands. -/
def place (p : Fin 64) : Place 32 :=
  if h : p.val < 32 then .inl ⟨p, h⟩ else .inr ⟨p - 32, by omega⟩

/-- The same for a bit of the preoutput, with the halves exchanged and rotated. -/
def preoutputPlace (p : Fin 64) : Place 32 :=
  if h : p.val < 32 then .inr (⟨p, h⟩ + 31) else .inl (⟨p - 32, by omega⟩ + 31)

theorem initialMap_eq : ∀ q : Fin 32,
    initialMap (.inl (q + 31)) = place (tableMap 64 Fips46.IP (q.castAdd 32)) ∧
      initialMap (.inr (q + 31)) = place (tableMap 64 Fips46.IP (q.natAdd 32)) := by
  decide +kernel

theorem finalMap_eq :
    ∀ p : Fin 64, finalMap (place p) = preoutputPlace (tableMap 64 Fips46.FP p) := by
  decide +kernel

theorem bits_byte (x : ULong) (k : ℕ) :
    bits 8 (((x >>> k) &&& 0xff).setWidth 8) = fun j : Fin 8 => x.getLsbD (k + (7 - j)) := by
  have hmask : ∀ j : Fin 8, (0xff : ULong).getLsbD (8 - 1 - j) = true := by decide
  funext j
  rw [bits, BitVec.getLsbD_setWidth, BitVec.getLsbD_and, BitVec.getLsbD_ushiftRight, hmask j,
    Bool.and_true, decide_eq_true (by omega), Bool.true_and]

theorem bytesBits_wordBytes (x : ULong) : bytesBits (wordBytes x) = List.ofFn (bits 32 x) := by
  have h0 := bits_byte x 0
  rw [BitVec.ushiftRight_zero] at h0
  simp only [bytesBits, wordBytes, List.flatMap_cons, List.flatMap_nil, bits_byte, h0]
  rfl

theorem bytesBits_unscrun (s : ULong × ULong) :
    bytesBits (unscrun s) = List.ofFn fun p : Fin 64 => halves 32 s (place p) := by
  have happend : bytesBits (unscrun s) = bytesBits (wordBytes s.1) ++ bytesBits (wordBytes s.2) :=
    List.flatMap_append
  rw [happend, bytesBits_wordBytes, bytesBits_wordBytes]
  rfl

theorem standard_initialSteps {block : List UInt8} (h : block.length = 8) :
    standard (initialSteps (scrunch block)) = Fips46.start (bytesBits block) := by
  obtain ⟨hIP, -⟩ := tables_span
  have hbits : bytesBits block =
      List.ofFn fun p : Fin 64 => halves 32 (scrunch block) (place p) := by
    rw [← bytesBits_unscrun, unscrun_scrunch h]
  have hmoved : ∀ p, halves 32 (initialSteps (scrunch block)) p =
      halves 32 (scrunch block) (initialMap p) := fun p => congrFun halves_initialSteps p
  have hfirst : half (initialSteps (scrunch block)).1 = List.ofFn fun q : Fin 32 =>
      halves 32 (scrunch block) (place (tableMap 64 Fips46.IP (q.castAdd 32))) := by
    rw [half]
    congr 1
    funext q
    rw [← (initialMap_eq q).1]
    exact hmoved (.inl (q + 31))
  have hsecond : half (initialSteps (scrunch block)).2 = List.ofFn fun q : Fin 32 =>
      halves 32 (scrunch block) (place (tableMap 64 Fips46.IP (q.natAdd 32))) := by
    rw [half]
    congr 1
    funext q
    rw [← (initialMap_eq q).2]
    exact hmoved (.inr (q + 31))
  rw [Fips46.start, hbits, permute_ofFn hIP, standard, hfirst, hsecond]
  rfl

theorem preoutput_eq {s : ULong × ULong} (hs : Low s) :
    bytesBits (unscrun (finalSteps s)) = Fips46.preoutput (standard s) := by
  obtain ⟨-, hFP, -⟩ := tables_span
  have hpre : half s.2 ++ half s.1 = List.ofFn fun p : Fin 64 => halves 32 s (preoutputPlace p) :=
    rfl
  rw [bytesBits_unscrun, halves_finalSteps hs, Fips46.preoutput, standard, hpre, permute_ofFn hFP]
  congr 1
  funext p
  exact congrArg (halves 32 s) (finalMap_eq p)

/-! ## All rounds -/

theorem lockstep {P ok : ℕ → Prop} {N : ℕ} (h0 : P 0)
    (hstep : ∀ n < N, P n → (P (n + 1) ↔ ok n)) : (∀ n ≤ N, P n) ↔ ∀ n < N, ok n := by
  constructor
  · intro h n hn
    exact (hstep n hn (h n hn.le)).mp (h (n + 1) hn)
  · intro h n
    induction n with
    | zero => exact fun _ => h0
    | succ n ih => exact fun hn => (hstep n hn (ih (by omega))).mpr (h n hn)

section Runs
variable (key block : List UInt8)

def codeRounds (sp5 : List ULong) (n : ℕ) : ULong × ULong :=
  network sp5 (initialSteps (scrunch block)) ((roundKeys key).take n)

def standardRounds (n : ℕ) : List Bool × List Bool :=
  Fips46.iterate (Fips46.start (bytesBits block)) ((Fips46.keySchedule (bytesBits key)).take n)

variable {key block} {sp5 : List ULong} {n : ℕ}

theorem codeRounds_succ (hn : n < 16) :
    codeRounds key block sp5 (n + 1) =
      roundStep (· ^^^ ·) (fvalWith sp5) (codeRounds key block sp5 n)
      (cook0 (rawWord key n 0) (rawWord key n 24), cook1 (rawWord key n 0) (rawWord key n 24)) := by
  apply run_take_succ
  rw [roundKeys, List.getElem?_map, List.getElem?_range hn]
  rfl

theorem standardRounds_succ (hkey : key.length = 8) (hn : n < 16) :
    standardRounds key block (n + 1) =
      roundStep add Fips46.f (standardRounds key block n) (List.ofFn (keyBits key n)) := by
  apply run_take_succ
  rw [keySchedule_eq key hkey, List.getElem?_map, List.getElem?_range hn]
  rfl

theorem codeRounds_low (h5 : lowTable sp5) (n : ℕ) : Low (codeRounds key block sp5 n) :=
  network_low h5 (initialSteps_low _) _

theorem codeRounds_zero (hblock : block.length = 8) :
    standard (codeRounds key block sp5 0) = standardRounds key block 0 :=
  standard_initialSteps hblock

/-- The number of the fifth block of six bits in iteration `n`. -/
def fifthInput (key block : List UInt8) (n : ℕ) : ℕ :=
  number (selected (standardRounds key block n).2
    ((Fips46.keySchedule (bytesBits key)).getD n []) 4)

theorem codeRounds_iff (hkey : key.length = 8) (hblock : block.length = 8) :
    (∀ n ≤ 16, standard (codeRounds key block SP5 n) = standardRounds key block n) ↔
      ∀ n < 16, fifthInput key block n ∉ faulty := by
  apply lockstep (codeRounds_zero hblock)
  intro n hn hsame
  have hlow : Low (codeRounds key block SP5 n) := codeRounds_low lowTable_SP5 n
  have hkeyAt : (Fips46.keySchedule (bytesBits key)).getD n [] = List.ofFn (keyBits key n) := by
    rw [keySchedule_eq key hkey, List.getD_eq_getElem?_getD, List.getElem?_map,
      List.getElem?_range hn]
    rfl
  rw [codeRounds_succ hn, standardRounds_succ hkey hn, ← hsame,
    standard_round_iff hlow (keyWords_roundKey key n), fifthInput, hkeyAt, ← hsame]
  rfl

theorem codeRounds_corrected (hkey : key.length = 8) (hblock : block.length = 8) :
    ∀ n ≤ 16, standard (codeRounds key block correctedSP5 n) = standardRounds key block n := by
  have h5 : lowTable correctedSP5 := by decide
  intro n
  induction n with
  | zero => exact fun _ => codeRounds_zero hblock
  | succ n ih =>
    intro hn
    have hlow : Low (codeRounds key block correctedSP5 n) := codeRounds_low h5 n
    rw [codeRounds_succ hn, standardRounds_succ hkey hn, ← ih (by omega)]
    exact standard_round hlow (keyWords_roundKey key n) fun c hc =>
      holds_corrected hc (boxInput_lt _ _ c)

theorem desfuncWith_eq (h5 : lowTable sp5)
    (h : standard (codeRounds key block sp5 16) = standardRounds key block 16)
    (hkey : key.length = 8) :
    bytesBits (unscrun (desfuncWith sp5 (scrunch block) (cookey (deskey key .EN0)))) =
      Fips46.des (bytesBits key) (bytesBits block) := by
  have hcode : roundLoop sp5 8 (cookey (deskey key .EN0)) (initialSteps (scrunch block)) =
      codeRounds key block sp5 16 := by
    rw [roundLoop_eq sp5 8 _ (length_keyWords key .EN0), pairs_encrypt, codeRounds,
      List.take_of_length_le (by rw [roundKeys, List.length_map, List.length_range])]
  have hall : (Fips46.keySchedule (bytesBits key)).take 16 =
      Fips46.keySchedule (bytesBits key) := by
    apply List.take_of_length_le
    rw [keySchedule_eq key hkey, List.length_map, List.length_range]
  rw [standardRounds, hall] at h
  rw [desfuncWith, hcode, preoutput_eq (codeRounds_low h5 16), h]
  rfl

theorem desfuncWith_corrected (hkey : key.length = 8) (hblock : block.length = 8) :
    bytesBits (unscrun (desfuncWith correctedSP5 (scrunch block) (cookey (deskey key .EN0)))) =
      Fips46.des (bytesBits key) (bytesBits block) :=
  desfuncWith_eq (by decide) (codeRounds_corrected hkey hblock 16 le_rfl) hkey

theorem rounds_of_iterations (hkey : key.length = 8)
    (h : ∀ m ≤ 8, standard (codeRounds key block sp5 (2 * m)) = standardRounds key block (2 * m)) :
    ∀ n ≤ 16, standard (codeRounds key block sp5 n) = standardRounds key block n := by
  intro n hn
  obtain ⟨m, rfl | rfl⟩ : ∃ m, n = 2 * m ∨ n = 2 * m + 1 := ⟨n / 2, by omega⟩
  · exact h m (by omega)
  · have hbefore := h m (by omega)
    have hafter := h (m + 1) (by omega)
    rw [show 2 * (m + 1) = 2 * m + 1 + 1 by ring, codeRounds_succ (by omega),
      standardRounds_succ hkey (by omega)] at hafter
    have hfirst : (standard (codeRounds key block sp5 (2 * m + 1))).1 =
        (standardRounds key block (2 * m + 1)).1 := by
      rw [codeRounds_succ (by omega), standardRounds_succ hkey (by omega), ← hbefore]
      rfl
    exact Prod.ext hfirst (congrArg Prod.fst hafter)

theorem roundLoop_codeRounds {m : ℕ} (hm : m ≤ 8) :
    roundLoop sp5 m (cookey (deskey key .EN0)) (initialSteps (scrunch block)) =
      codeRounds key block sp5 (2 * m) := by
  rw [roundLoop_take sp5 m _ (by rw [length_keyWords]; omega), pairs_encrypt, codeRounds]

/-- `leftt` and `right` are the halves of the standard after every iteration of the loop exactly
when the fifth block of six bits never points at one of the wrong entries; the block that comes
out is then the one of the standard. -/
theorem desfunc_standard_iff (key block : List UInt8) (hkey : key.length = 8)
    (hblock : block.length = 8) :
    ((∀ m ≤ 8,
      standard (roundLoop SP5 m (cookey (deskey key .EN0)) (initialSteps (scrunch block))) =
        standardRounds key block (2 * m)) ↔ ∀ n < 16, fifthInput key block n ∉ faulty) ∧
    ((∀ n < 16, fifthInput key block n ∉ faulty) →
      bytesBits (unscrun (desfunc (scrunch block) (cookey (deskey key .EN0)))) =
        Fips46.des (bytesBits key) (bytesBits block)) := by
  constructor
  · rw [← codeRounds_iff hkey hblock]
    constructor
    · intro h
      exact rounds_of_iterations hkey fun m hm => roundLoop_codeRounds hm ▸ h m hm
    · intro h m hm
      rw [roundLoop_codeRounds hm]
      exact h (2 * m) (by omega)
  · intro h
    exact desfuncWith_eq lowTable_SP5 ((codeRounds_iff hkey hblock).mpr h 16 le_rfl) hkey

/-- The block `12345678` under the key `abcd1234` meets none of the wrong entries. -/
theorem desfunc_standard_abcd1234 :
    (∀ n < 16, fifthInput userPasswordKey [49, 50, 51, 52, 53, 54, 55, 56] n ∉ faulty) ∧
    bytesBits (unscrun (desfunc (scrunch [49, 50, 51, 52, 53, 54, 55, 56])
        (cookey (deskey userPasswordKey .EN0)))) =
      Fips46.des (bytesBits userPasswordKey) (bytesBits [49, 50, 51, 52, 53, 54, 55, 56]) := by
  have hsame : ∀ m ≤ 8, roundLoop SP5 m (cookey (deskey userPasswordKey .EN0))
        (initialSteps (scrunch [49, 50, 51, 52, 53, 54, 55, 56])) =
      roundLoop correctedSP5 m (cookey (deskey userPasswordKey .EN0))
        (initialSteps (scrunch [49, 50, 51, 52, 53, 54, 55, 56])) := by
    rw [cookey_userPasswordKey]
    decide +kernel
  obtain ⟨hiff, hout⟩ := desfunc_standard_iff userPasswordKey
    [49, 50, 51, 52, 53, 54, 55, 56] (by decide) (by decide)
  have hnone : ∀ n < 16,
      fifthInput userPasswordKey [49, 50, 51, 52, 53, 54, 55, 56] n ∉ faulty := by
    apply hiff.mp
    intro m hm
    rw [hsame m hm, roundLoop_codeRounds hm]
    exact codeRounds_corrected (by decide) (by decide) (2 * m) (by omega)
  exact ⟨hnone, hout hnone⟩

end Runs

/-- The code gives `1ECEAFFE1C655296` here, and the standard `85E813540F0AB405`. -/
theorem desfunc_ne_standard :
    unscrun (desfunc (scrunch [0x01, 0x23, 0x45, 0x67, 0x89, 0xab, 0xcd, 0xef])
        (cookey (deskey [0x13, 0x34, 0x57, 0x79, 0x9b, 0xbc, 0xdf, 0xf1] .EN0))) =
      [0x1e, 0xce, 0xaf, 0xfe, 0x1c, 0x65, 0x52, 0x96] ∧
    Fips46.des (bytesBits [0x13, 0x34, 0x57, 0x79, 0x9b, 0xbc, 0xdf, 0xf1])
        (bytesBits [0x01, 0x23, 0x45, 0x67, 0x89, 0xab, 0xcd, 0xef]) =
      bytesBits [0x85, 0xe8, 0x13, 0x54, 0x0f, 0x0a, 0xb4, 0x05] ∧
    bytesBits [0x1e, 0xce, 0xaf, 0xfe, 0x1c, 0x65, 0x52, 0x96] ≠
      bytesBits [0x85, 0xe8, 0x13, 0x54, 0x0f, 0x0a, 0xb4, 0x05] := by
  have hkeys : cookey (deskey [0x13, 0x34, 0x57, 0x79, 0x9b, 0xbc, 0xdf, 0xf1] .EN0) =
      [0x060b3f01, 0x302f0732, 0x1e3b3627, 0x1a193c25, 0x1532103e, 0x1f0a2c19,
        0x1c373614, 0x2a16331d, 0x1f303a0e, 0x0e073528, 0x1814142c, 0x3a3e072f,
        0x3b123d22, 0x0837213c, 0x3d28302f, 0x383a133b, 0x382f3b1e, 0x0d2b1e01,
        0x2c0d2e19, 0x1f07240f, 0x083f370e, 0x15132d06, 0x1d07251f, 0x17350629,
        0x25173e29, 0x3c112b01, 0x170e3c1c, 0x34372e3a, 0x2f060f3c, 0x390d130a,
        0x3236031f, 0x330b2135] := by
    decide +kernel
  have heval : unscrun (desfunc (scrunch [0x01, 0x23, 0x45, 0x67, 0x89, 0xab, 0xcd, 0xef])
        (cookey (deskey [0x13, 0x34, 0x57, 0x79, 0x9b, 0xbc, 0xdf, 0xf1] .EN0))) =
      [0x1e, 0xce, 0xaf, 0xfe, 0x1c, 0x65, 0x52, 0x96] ∧
      unscrun (desfuncWith correctedSP5 (scrunch [0x01, 0x23, 0x45, 0x67, 0x89, 0xab, 0xcd, 0xef])
        (cookey (deskey [0x13, 0x34, 0x57, 0x79, 0x9b, 0xbc, 0xdf, 0xf1] .EN0))) =
      [0x85, 0xe8, 0x13, 0x54, 0x0f, 0x0a, 0xb4, 0x05] ∧
      bytesBits [0x1e, 0xce, 0xaf, 0xfe, 0x1c, 0x65, 0x52, 0x96] ≠
        bytesBits [0x85, 0xe8, 0x13, 0x54, 0x0f, 0x0a, 0xb4, 0x05] := by
    rw [hkeys]
    decide +kernel
  refine ⟨heval.1, ?_, heval.2.2⟩
  rw [← heval.2.1]
  exact (desfuncWith_corrected (by decide) (by decide)).symm

end DesStandard
