import Mathlib.Data.BitVec
import Mathlib.Data.Fin.Basic
import Mathlib.Data.List.OfFn
import Mathlib.Data.Prod.Basic
import Mathlib.Data.Sum.Basic
import Mathlib.Tactic.Ring

/-! # Bits that only change their place

The low `n` bits of a word are a function of their place, counted from the most significant one,
and so are those of two words. A step that only moves bits is a map between places: what several
of them do is the composition of their maps, whatever the words hold above bit `n`. -/
namespace BitWirings

variable {w n : ℕ}

def bits (n : ℕ) (x : BitVec w) (p : Fin n) : Bool := x.getLsbD (n - 1 - p)

/-- A place in the first or in the second of two words. -/
abbrev Place (n : ℕ) := Fin n ⊕ Fin n

def halves (n : ℕ) (s : BitVec w × BitVec w) : Place n → Bool := Sum.elim (bits n s.1) (bits n s.2)

def number (b : List Bool) : ℕ := b.foldl (fun n x => 2 * n + x.toNat) 0

/-! ## Words and their bits -/

theorem number_cons (x : Bool) (b : List Bool) :
    number (x :: b) = 2 ^ b.length * x.toNat + number b := by
  have hfold : ∀ (l : List Bool) (n : ℕ),
      l.foldl (fun n x => 2 * n + x.toNat) n = 2 ^ l.length * n + number l := by
    intro l
    induction l with
    | nil => intro n; simp [number]
    | cons y l ih =>
      intro n
      have hnumber : number (y :: l) = 2 ^ l.length * (2 * 0 + y.toNat) + number l :=
        ih (2 * 0 + y.toNat)
      rw [List.foldl_cons, ih, hnumber, List.length_cons, Nat.pow_succ]
      ring
  rw [number, List.foldl_cons, hfold, Nat.mul_zero, Nat.zero_add]

theorem number_bits (n : ℕ) (x : BitVec w) : number (List.ofFn (bits n x)) = x.toNat % 2 ^ n := by
  induction n with
  | zero => simp [number, Nat.mod_one]
  | succ n ih =>
    have htail : (fun p : Fin n => bits (n + 1) x p.succ) = bits n x := by
      funext p
      simp only [bits, Fin.val_succ]
      congr 1
      omega
    rw [List.ofFn_succ, htail, number_cons, ih, List.length_ofFn, Nat.mod_pow_succ,
      ← Nat.toNat_testBit, Nat.add_comm]
    rfl

theorem bits_eq_iff {x y : BitVec w} :
    bits n x = bits n y ↔ ∀ i < n, x.getLsbD i = y.getLsbD i := by
  constructor
  · intro h i hi
    have hp := congrFun h ⟨n - 1 - i, by omega⟩
    simp only [bits] at hp
    rwa [show n - 1 - (n - 1 - i) = i by omega] at hp
  · intro h
    funext p
    exact h _ (by omega)

theorem getLsbD_eq_false {x : BitVec w} {m i : ℕ} (h : x.toNat < 2 ^ m) (hi : m ≤ i) :
    x.getLsbD i = false := by
  have hpow : 2 ^ m ≤ 2 ^ i := Nat.pow_le_pow_right (by decide) hi
  exact Nat.testBit_lt_two_pow (by omega)

theorem lt_of_getLsbD {x : BitVec w} {m i : ℕ} (h : x.toNat < 2 ^ m) (hi : x.getLsbD i = true) :
    i < m := by
  by_contra hle
  rw [getLsbD_eq_false h (Nat.not_lt.mp hle)] at hi
  cases hi

theorem eq_of_bits {x y : BitVec w} (hx : x.toNat < 2 ^ n) (hy : y.toNat < 2 ^ n)
    (h : bits n x = bits n y) : x = y := by
  apply BitVec.eq_of_getLsbD_eq
  intro i _
  by_cases hi : i < n
  · exact bits_eq_iff.mp h i hi
  · rw [getLsbD_eq_false hx (Nat.not_lt.mp hi), getLsbD_eq_false hy (Nat.not_lt.mp hi)]

theorem bits_xor (x y : BitVec w) (p : Fin n) : bits n (x ^^^ y) p = (bits n x p ^^ bits n y p) :=
  BitVec.getLsbD_xor

theorem bits_or (x y : BitVec w) (p : Fin n) : bits n (x ||| y) p = (bits n x p || bits n y p) :=
  BitVec.getLsbD_or

/-! ## Steps on two words -/

section Halves
variable {s t : BitVec w × BitVec w} {σ : Fin n → Fin n} {x : BitVec w}

theorem halves_eq_iff :
    halves n s = halves n t ↔ bits n s.1 = bits n t.1 ∧ bits n s.2 = bits n t.2 :=
  Sum.elim_eq_iff

theorem eq_of_halves (hs : s.1.toNat < 2 ^ n ∧ s.2.toNat < 2 ^ n)
    (ht : t.1.toNat < 2 ^ n ∧ t.2.toNat < 2 ^ n) (h : halves n s = halves n t) : s = t := by
  obtain ⟨h1, h2⟩ := halves_eq_iff.mp h
  exact Prod.ext (eq_of_bits hs.1 ht.1 h1) (eq_of_bits hs.2 ht.2 h2)

theorem halves_swap : halves n s.swap = halves n s ∘ Sum.swap := by
  funext p
  cases p <;> rfl

theorem halves_first (h : bits n x = bits n s.1 ∘ σ) :
    halves n (x, s.2) = halves n s ∘ Sum.map σ id := by
  funext p
  cases p with
  | inl p => exact congrFun h p
  | inr p => rfl

theorem halves_second (h : bits n x = bits n s.2 ∘ σ) :
    halves n (s.1, x) = halves n s ∘ Sum.map id σ := by
  funext p
  cases p with
  | inl p => rfl
  | inr p => exact congrFun h p

/-- The bits of the second word under the mask change places with those `k` above them in the
first. -/
def exchange (k : ℕ) (mask : BitVec w) (s : BitVec w × BitVec w) : BitVec w × BitVec w :=
  let work := ((s.1 >>> k) ^^^ s.2) &&& mask
  (s.1 ^^^ (work <<< k), s.2 ^^^ work)

/-- The place of bit `i` among `n`, next to any other place. -/
def placeOf (p : Fin n) (i : ℕ) : Fin n := ⟨n - 1 - i, by have := p.isLt; omega⟩

def exchangeMap (k : ℕ) (mask : BitVec w) : Place n → Place n
  | .inl p =>
    let i := n - 1 - p.val
    if k ≤ i ∧ mask.getLsbD (i - k) then .inr (placeOf p (i - k)) else .inl p
  | .inr p =>
    let i := n - 1 - p.val
    if mask.getLsbD i then .inl (placeOf p (i + k)) else .inr p

theorem bits_placeOf (p : Fin n) {i : ℕ} (hi : i < n) : bits n x (placeOf p i) = x.getLsbD i := by
  simp only [bits, placeOf]
  rw [show n - 1 - (n - 1 - i) = i by omega]

theorem halves_exchange {k : ℕ} {mask : BitVec w} (hn : n ≤ w) (hm : mask.toNat < 2 ^ (n - k)) :
    halves n (exchange k mask s) = halves n s ∘ exchangeMap k mask := by
  have hmask : ∀ j, mask.getLsbD j = true → j + k < n := by
    intro j hj
    have hlt := lt_of_getLsbD hm hj
    omega
  funext p
  cases p with
  | inl p =>
    have hi : n - 1 - p.val < w := by omega
    simp only [halves, exchange, exchangeMap, Function.comp_apply, Sum.elim_inl]
    split
    · next h =>
      obtain ⟨hk, hm⟩ := h
      rw [Sum.elim_inr, bits_placeOf p (by omega)]
      simp only [bits, BitVec.getLsbD_xor, BitVec.getLsbD_shiftLeft, BitVec.getLsbD_and,
        BitVec.getLsbD_ushiftRight, hm, hi, Nat.not_lt.mpr hk, decide_true, decide_false,
        Bool.not_false, Bool.true_and, Bool.and_true]
      rw [Nat.add_sub_cancel' hk, ← Bool.xor_assoc, Bool.xor_self, Bool.false_xor]
    · next h =>
      rw [Sum.elim_inl]
      simp only [bits, BitVec.getLsbD_xor, BitVec.getLsbD_shiftLeft, BitVec.getLsbD_and, hi,
        decide_true, Bool.true_and]
      by_cases hk : k ≤ n - 1 - p.val
      · have hm : mask.getLsbD (n - 1 - p.val - k) = false := by simpa [hk] using h
        rw [hm, Bool.and_false, Bool.and_false, Bool.xor_false]
      · rw [decide_eq_true (Nat.not_le.mp hk), Bool.not_true, Bool.false_and, Bool.xor_false]
  | inr p =>
    simp only [halves, exchange, exchangeMap, Function.comp_apply, Sum.elim_inr]
    split
    · next hm =>
      have hlt := hmask _ hm
      rw [Sum.elim_inl, bits_placeOf p hlt]
      simp only [bits, BitVec.getLsbD_xor, BitVec.getLsbD_and, BitVec.getLsbD_ushiftRight, hm,
        Bool.and_true]
      rw [Bool.xor_comm, Bool.xor_assoc, Bool.xor_self, Bool.xor_false, Nat.add_comm]
    · next hm =>
      rw [Sum.elim_inr]
      simp only [bits, BitVec.getLsbD_xor, BitVec.getLsbD_and, hm, Bool.and_false, Bool.xor_false]

end Halves

end BitWirings
