import CloudDisk.Des
import Mathlib.Data.Fintype.Sum
import Mathlib.Tactic.IntervalCases

/-! # Decryption undoes encryption

The steps before and after the rounds only move bits of the two words, and the upper halves of the
words never get into the lower ones. The rounds are a Feistel network, and `deskey` stores the
words for decryption in the opposite order. -/
namespace DesInverse

open BitWirings FeistelNetworks Des

/-! ## The steps around the rounds -/

instance neZero32 : NeZero 32 := ⟨by decide⟩

section Rotations
variable {x : ULong}

theorem bits_rotl1 : bits 32 (rotl1 x) = bits 32 x ∘ fun p => p + 1 := by
  have hmask : ∀ i < 32, (0xffffffff : ULong).getLsbD i = true := by decide
  have hbit : ∀ i < 32, (rotl1 x).getLsbD i = x.getLsbD ((i + 31) % 32) := by
    intro i hi
    rw [rotl1, BitVec.getLsbD_and, hmask i hi, Bool.and_true]
    cases i with
    | zero => simp
    | succ i =>
      have hmod : (i + 1 + 31) % 32 = i := by omega
      simp [hmod, show i + 1 < 64 by omega, BitVec.getLsbD_eq_getElem (show i < 64 by omega)]
  funext p
  simp only [bits, Function.comp_apply]
  rw [hbit _ (by omega), Fin.val_add]
  congr 1
  omega

theorem bits_rotr1 (hx : x.toNat < 2 ^ 32) : bits 32 (rotr1 x) = bits 32 x ∘ fun p => p + 31 := by
  have h32 : x.getLsbD 32 = false := getLsbD_eq_false hx le_rfl
  funext p
  simp only [bits, rotr1, Function.comp_apply, Fin.val_add, BitVec.getLsbD_or,
    BitVec.getLsbD_shiftLeft, BitVec.getLsbD_ushiftRight]
  rcases Nat.eq_zero_or_pos p.val with hp | hp
  · rw [hp]
    change (x.getLsbD 0 || x.getLsbD 32) = x.getLsbD 0
    rw [h32, Bool.or_false]
  · have hlt : 32 - 1 - p.val < 31 := by omega
    rw [decide_eq_true hlt, Bool.not_true, Bool.and_false, Bool.false_and, Bool.false_or]
    congr 1
    change 1 + (32 - 1 - p.val) = 32 - 1 - (p.val + 31) % 32
    omega

theorem rotl1_lt : (rotl1 x).toNat < 2 ^ 32 := by
  rw [rotl1, BitVec.toNat_and]
  exact Nat.and_lt_two_pow _ (by decide)

end Rotations

def Low (s : ULong × ULong) : Prop := s.1.toNat < 2 ^ 32 ∧ s.2.toNat < 2 ^ 32

theorem xor_lt {x y : ULong} (hx : x.toNat < 2 ^ 32) (hy : y.toNat < 2 ^ 32) :
    (x ^^^ y).toNat < 2 ^ 32 := by
  rw [BitVec.toNat_xor]
  exact Nat.xor_lt_two_pow hx hy

theorem exchange_zero_low {mask : ULong} {s : ULong × ULong} (hm : mask.toNat < 2 ^ 32) :
    (s.1.toNat < 2 ^ 32 → (exchange 0 mask s).1.toNat < 2 ^ 32) ∧
      (s.2.toNat < 2 ^ 32 → (exchange 0 mask s).2.toNat < 2 ^ 32) := by
  have hwork : (((s.1 >>> 0) ^^^ s.2) &&& mask).toNat < 2 ^ 32 := by
    rw [BitVec.toNat_and]
    exact Nat.and_lt_two_pow _ hm
  constructor
  · intro h
    simp only [exchange, BitVec.shiftLeft_zero]
    exact xor_lt h hwork
  · intro h
    exact xor_lt h hwork

def initialMap : Place 32 → Place 32 :=
  exchangeMap 4 (0x0f0f0f0f : ULong) ∘ exchangeMap 16 (0x0000ffff : ULong) ∘ Sum.swap ∘
    exchangeMap 2 (0x33333333 : ULong) ∘ exchangeMap 8 (0x00ff00ff : ULong) ∘
    Sum.map (fun p => p + 1) id ∘ Sum.swap ∘ exchangeMap 0 (0xaaaaaaaa : ULong) ∘
    Sum.map (fun p => p + 1) id

def finalMap : Place 32 → Place 32 :=
  Sum.map id (fun p => p + 31) ∘ exchangeMap 0 (0xaaaaaaaa : ULong) ∘
    Sum.map (fun p => p + 31) id ∘ exchangeMap 8 (0x00ff00ff : ULong) ∘
    exchangeMap 2 (0x33333333 : ULong) ∘ Sum.swap ∘ exchangeMap 16 (0x0000ffff : ULong) ∘
    exchangeMap 4 (0x0f0f0f0f : ULong)

theorem maps_inverse :
    finalMap ∘ initialMap = Sum.swap ∧ initialMap ∘ Sum.swap ∘ finalMap = id := by
  decide +kernel

section Steps
variable {s : ULong × ULong}

theorem halves_initialSteps : halves 32 (initialSteps s) = halves 32 s ∘ initialMap := by
  unfold initialSteps initialMap
  extract_lets s1 s2 s3 s4 s5 s6
  have h6 : halves 32 (rotl1 s6.1, s6.2) = _ := halves_first bits_rotl1
  have h5 : halves 32 s6 = _ := halves_exchange (by decide) (by decide)
  have hswap5 : halves 32 s5 = _ := halves_swap (s := (rotl1 s4.1, s4.2))
  have h4 : halves 32 (rotl1 s4.1, s4.2) = _ := halves_first bits_rotl1
  have h3 : halves 32 s4 = _ := halves_exchange (by decide) (by decide)
  have h2 : halves 32 s3 = _ := halves_exchange (by decide) (by decide)
  have hswap2 : halves 32 s2.swap = _ := halves_swap
  have h1 : halves 32 s2 = _ := halves_exchange (by decide) (by decide)
  have h0 : halves 32 s1 = _ := halves_exchange (by decide) (by decide)
  rw [h6, h5, hswap5, h4, h3, h2, hswap2, h1, h0]
  rfl

theorem initialSteps_low (s : ULong × ULong) : Low (initialSteps s) := by
  unfold initialSteps
  extract_lets s1 s2 s3 s4 s5 s6
  exact ⟨rotl1_lt, (exchange_zero_low (by decide)).2 rotl1_lt⟩

theorem halves_finalSteps (hs : Low s) : halves 32 (finalSteps s) = halves 32 s ∘ finalMap := by
  unfold finalSteps finalMap
  extract_lets s1 s2 s3 s4 s5 s6
  have hlow : s2.1.toNat < 2 ^ 32 := (exchange_zero_low (by decide)).1 hs.1
  have h6 : halves 32 (exchange 4 0x0f0f0f0f s6) = _ := halves_exchange (by decide) (by decide)
  have h5 : halves 32 s6 = _ := halves_exchange (by decide) (by decide)
  have hswap5 : halves 32 s5.swap = _ := halves_swap
  have h4 : halves 32 s5 = _ := halves_exchange (by decide) (by decide)
  have h3 : halves 32 s4 = _ := halves_exchange (by decide) (by decide)
  have h2 : halves 32 s3 = _ := halves_first (bits_rotr1 hlow)
  have h1 : halves 32 s2 = _ := halves_exchange (by decide) (by decide)
  have h0 : halves 32 s1 = _ := halves_second (bits_rotr1 hs.2)
  rw [h6, h5, hswap5, h4, h3, h2, h1, h0]
  rfl

end Steps

/-! ## The rounds -/

def pairs : List ULong → List (ULong × ULong)
  | k0 :: k1 :: keys => (k0, k1) :: pairs keys
  | _ => []

def network (sp5 : List ULong) (s : ULong × ULong) (keys : List (ULong × ULong)) : ULong × ULong :=
  run (· ^^^ ·) (fvalWith sp5) s keys

theorem roundLoop_take (sp5 : List ULong) (n : ℕ) (keys : List ULong) (hlen : 4 * n ≤ keys.length)
    (s : ULong × ULong) :
    roundLoop sp5 n keys s = network sp5 s ((pairs keys).take (2 * n)) := by
  induction n generalizing keys s with
  | zero =>
    rw [Nat.mul_zero, List.take_zero, roundLoop]
    · rfl
    · intro n _ _ _ _ _ h
      cases h
  | succ n ih =>
    rcases keys with _ | ⟨k0, _ | ⟨k1, _ | ⟨k2, _ | ⟨k3, keys⟩⟩⟩⟩
    all_goals simp only [List.length_cons, List.length_nil] at hlen
    · omega
    · omega
    · omega
    · omega
    · rw [roundLoop, ih keys (by omega)]
      rfl

theorem length_pairs (keys : List ULong) : (pairs keys).length = keys.length / 2 := by
  fun_induction pairs keys with
  | case1 k0 k1 keys ih =>
    simp only [List.length_cons, ih]
    omega
  | case2 keys h =>
    rcases keys with _ | ⟨k0, _ | ⟨k1, keys⟩⟩
    · rfl
    · simp
    · exact (h k0 k1 keys rfl).elim

theorem roundLoop_eq (sp5 : List ULong) (n : ℕ) (keys : List ULong) (hlen : keys.length = 4 * n)
    (s : ULong × ULong) : roundLoop sp5 n keys s = network sp5 s (pairs keys) := by
  rw [roundLoop_take sp5 n keys hlen.ge, List.take_of_length_le]
  rw [length_pairs, hlen]
  omega

theorem pairs_cookey (raws : List ULong) :
    pairs (cookey raws) = (pairs raws).map fun p => (cook0 p.1 p.2, cook1 p.1 p.2) := by
  fun_induction pairs raws with
  | case1 raw0 raw1 raws ih => simp [cookey, pairs, ih]
  | case2 raws h =>
    rw [cookey]
    · rfl
    · exact h

theorem pairs_store (a b : ℕ → ULong) (edf : Edf) :
    pairs ((List.range 16).foldl
      (fun kn i =>
        let m := if edf = .DE1 then (15 - i) <<< 1 else i <<< 1
        (kn.set m (a i)).set (m + 1) (b i))
      (List.replicate 32 0)) =
      (List.range 16).map fun i => if edf = .DE1 then (a (15 - i), b (15 - i)) else (a i, b i) := by
  cases edf <;> simp [List.range, List.range.loop, List.replicate, pairs]

theorem pairs_deskey (key : List UInt8) (edf : Edf) :
    pairs (deskey key edf) = (List.range 16).map fun i =>
      if edf = .DE1 then (rawWord key (15 - i) 0, rawWord key (15 - i) 24)
      else (rawWord key i 0, rawWord key i 24) :=
  pairs_store (rawWord key · 0) (rawWord key · 24) edf

/-- The pairs of words that the rounds take from the two calls of `deskey`. -/
def roundKeys (key : List UInt8) : List (ULong × ULong) :=
  (List.range 16).map fun i =>
    (cook0 (rawWord key i 0) (rawWord key i 24), cook1 (rawWord key i 0) (rawWord key i 24))

section Keys
variable (key : List UInt8)

theorem pairs_encrypt : pairs (cookey (deskey key .EN0)) = roundKeys key := by
  rw [pairs_cookey, pairs_deskey, List.map_map, roundKeys]
  apply List.map_congr_left
  intro i _
  simp

theorem pairs_decrypt : pairs (cookey (deskey key .DE1)) = (roundKeys key).reverse := by
  have hrange : (List.range 16).reverse = (List.range 16).map (15 - ·) := by decide
  rw [pairs_cookey, pairs_deskey, List.map_map, roundKeys, ← List.map_reverse, hrange,
    List.map_map]
  apply List.map_congr_left
  intro i _
  simp

theorem length_deskey (edf : Edf) : (deskey key edf).length = 32 := by
  have hset : ∀ (is : List ℕ) (kn : List ULong),
      (is.foldl (fun kn i =>
        let m := if edf = .DE1 then (15 - i) <<< 1 else i <<< 1
        (kn.set m (rawWord key i 0)).set (m + 1) (rawWord key i 24)) kn).length = kn.length := by
    intro is
    induction is with
    | nil => intro kn; rfl
    | cons i is ih => intro kn; simp [ih]
  rw [deskey, hset, List.length_replicate]

theorem length_cookey (raws : List ULong) : (cookey raws).length = 2 * (raws.length / 2) := by
  fun_induction cookey raws with
  | case1 raw0 raw1 raws ih =>
    simp only [List.length_cons, ih]
    omega
  | case2 raws h =>
    rcases raws with _ | ⟨raw0, _ | ⟨raw1, raws⟩⟩
    · rfl
    · simp
    · exact (h raw0 raw1 raws rfl).elim

theorem length_keyWords (edf : Edf) : (cookey (deskey key edf)).length = 4 * 8 := by
  rw [length_cookey, length_deskey]

def unpair (keys : List (ULong × ULong)) : List ULong := keys.flatMap fun k => [k.1, k.2]

theorem unpair_pairs {keys : List ULong} (h : 2 ∣ keys.length) : unpair (pairs keys) = keys := by
  fun_induction pairs keys with
  | case1 k0 k1 keys ih =>
    rw [List.length_cons, List.length_cons] at h
    rw [unpair, List.flatMap_cons, ← unpair, ih (by omega)]
    rfl
  | case2 keys hshort =>
    rcases keys with _ | ⟨k0, _ | ⟨k1, keys⟩⟩
    · rfl
    · exact absurd h (by simp)
    · exact (hshort k0 k1 keys rfl).elim

theorem cookey_decrypt :
    cookey (deskey key .DE1) = unpair (pairs (cookey (deskey key .EN0))).reverse := by
  have heven : 2 ∣ (cookey (deskey key .DE1)).length := by
    rw [length_keyWords]
    decide
  rw [← unpair_pairs heven, pairs_decrypt, pairs_encrypt]

end Keys

theorem cookey_userPasswordKey : cookey (deskey userPasswordKey .EN0) =
    [0x343a0002, 0x0a2e3206, 0x3c3a000c, 0x0a260203, 0x3c380d00, 0x0b262200,
      0x38191805, 0x0b360002, 0x39190100, 0x0d360a0a, 0x390d1911, 0x2d320100,
      0x2b0d0201, 0x2d33082a, 0x2b0d0130, 0x351b0d00, 0x0b0f0220, 0x351b0108,
      0x0f073000, 0x35190530, 0x07270028, 0x34191028, 0x07262420, 0x361d0110,
      0x07360008, 0x320d1034, 0x16320422, 0x322d1200, 0x36320800, 0x1a2c0015,
      0x34322c02, 0x1a2e2000] := by
  decide +kernel

/-! ## Words of 32 bits -/

section Low
variable {sp5 : List ULong} {s : ULong × ULong}

theorem or_lt {x y : ULong} (hx : x.toNat < 2 ^ 32) (hy : y.toNat < 2 ^ 32) :
    (x ||| y).toNat < 2 ^ 32 := by
  rw [BitVec.toNat_or]
  exact Nat.or_lt_two_pow hx hy

def lowTable (table : List ULong) : Bool := table.all fun x => decide (x.toNat < 2 ^ 32)

theorem entry_lt {table : List ULong} (h : lowTable table) (work : ULong) :
    (entry table work).toNat < 2 ^ 32 := by
  rw [entry, List.getD_eq_getElem?_getD]
  cases hx : table[(work &&& 0x3f).toNat]? with
  | none => decide
  | some x => exact of_decide_eq_true (List.all_eq_true.mp h x (List.mem_of_getElem? hx))

theorem tables_low : [SP1, SP2, SP3, SP4, SP5, SP6, SP7, SP8].all lowTable := by
  decide +kernel

theorem lowTable_SP5 : lowTable SP5 := by
  have h := tables_low
  simp only [List.all_cons, Bool.and_eq_true] at h
  exact h.2.2.2.2.1

theorem fvalWith_lt (h5 : lowTable sp5) (keys : ULong × ULong) (right : ULong) :
    (fvalWith sp5 keys right).toNat < 2 ^ 32 := by
  have h := tables_low
  simp only [List.all_cons, Bool.and_eq_true] at h
  obtain ⟨h1, h2, h3, h4, -, h6, h7, h8, -⟩ := h
  simp only [fvalWith]
  refine or_lt (or_lt (or_lt (or_lt (or_lt (or_lt (or_lt ?_ ?_) ?_) ?_) ?_) ?_) ?_) ?_
  · exact entry_lt h7 _
  · exact entry_lt h5 _
  · exact entry_lt h3 _
  · exact entry_lt h1 _
  · exact entry_lt h8 _
  · exact entry_lt h6 _
  · exact entry_lt h4 _
  · exact entry_lt h2 _

theorem network_low (h5 : lowTable sp5) (hs : Low s) (keys : List (ULong × ULong)) :
    Low (network sp5 s keys) :=
  run_invariant (fun _ _ h => ⟨h.2, xor_lt h.1 (fvalWith_lt h5 _ _)⟩) hs keys

end Low

/-! ## The inverse -/

/-- The low 32 bits, as `unscrun` and `scrunch` pass them on. -/
def low32 (s : ULong × ULong) : ULong × ULong :=
  ((s.1.setWidth 32).setWidth 64, (s.2.setWidth 32).setWidth 64)

theorem bits_setWidth (x : ULong) : bits 32 ((x.setWidth 32).setWidth 64) = bits 32 x := by
  rw [bits_eq_iff]
  intro i hi
  have hi' : i < 64 := by omega
  rw [BitVec.getLsbD_setWidth, BitVec.getLsbD_setWidth, decide_eq_true hi, decide_eq_true hi',
    Bool.true_and, Bool.true_and]

theorem halves_low32 (s : ULong × ULong) : halves 32 (low32 s) = halves 32 s :=
  halves_eq_iff.mpr ⟨bits_setWidth s.1, bits_setWidth s.2⟩

theorem setWidth_eq {x : ULong} {y : BitVec 32} (h : bits 32 x = bits 32 (y.setWidth 64)) :
    x.setWidth 32 = y := by
  apply BitVec.eq_of_getLsbD_eq
  intro i hi
  have hbit := bits_eq_iff.mp h i hi
  rw [BitVec.getLsbD_setWidth, decide_eq_true hi, Bool.true_and, hbit, BitVec.getLsbD_setWidth,
    decide_eq_true (by omega), Bool.true_and]

/-- Whatever table stands for `SP5`: what was made with some keys, the same keys in reverse order
bring back. -/
theorem desfuncWith_inverse {sp5 : List ULong} (h5 : lowTable sp5)
    {keys keys' : List ULong} (hlen : keys.length = 32) (hlen' : keys'.length = 32)
    (hkeys : pairs keys' = (pairs keys).reverse) (block : ULong × ULong) :
    halves 32 (desfuncWith sp5 (low32 (desfuncWith sp5 block keys)) keys') = halves 32 block := by
  obtain ⟨hfinal, hback⟩ := maps_inverse
  have hcancel : ∀ x y : ULong, x ^^^ y ^^^ y = x := fun x y => by
    rw [BitVec.xor_assoc, BitVec.xor_self, BitVec.xor_zero]
  have hlow : Low (network sp5 (initialSteps block) (pairs keys)) :=
    network_low h5 (initialSteps_low block) _
  -- the second call starts with the halves at which the first one ended, exchanged
  have hstart : initialSteps (low32 (desfuncWith sp5 block keys)) =
      (network sp5 (initialSteps block) (pairs keys)).swap := by
    apply eq_of_halves (initialSteps_low _) hlow.symm
    rw [halves_initialSteps, halves_low32, desfuncWith, roundLoop_eq sp5 8 keys hlen,
      halves_finalSteps hlow, halves_swap, Function.comp_assoc, hfinal]
  have hend : network sp5 (initialSteps (low32 (desfuncWith sp5 block keys))) (pairs keys') =
      (initialSteps block).swap := by
    rw [hstart, hkeys]
    exact run_reverse hcancel _ _
  have hlow' : Low (initialSteps block).swap := (initialSteps_low block).symm
  rw [desfuncWith, roundLoop_eq sp5 8 keys' hlen', hend, halves_finalSteps hlow', halves_swap,
    halves_initialSteps, Function.comp_assoc, Function.comp_assoc, hback, Function.comp_id]

/-- Encryption and then decryption with the same key gives back the two words. -/
theorem desfunc_desfunc (key : List UInt8) (l r : BitVec 32) :
    let c := desfunc (l.setWidth 64, r.setWidth 64) (cookey (deskey key .EN0))
    let d := desfunc ((c.1.setWidth 32).setWidth 64, (c.2.setWidth 32).setWidth 64)
      (cookey (deskey key .DE1))
    d.1.setWidth 32 = l ∧ d.2.setWidth 32 = r := by
  intro c d
  have hkeys : pairs (cookey (deskey key .DE1)) = (pairs (cookey (deskey key .EN0))).reverse := by
    rw [pairs_decrypt, pairs_encrypt]
  have hhalves :=
    desfuncWith_inverse lowTable_SP5 (length_keyWords key .EN0) (length_keyWords key .DE1)
    hkeys (l.setWidth 64, r.setWidth 64)
  obtain ⟨hl, hr⟩ := halves_eq_iff.mp hhalves
  exact ⟨setWidth_eq hl, setWidth_eq hr⟩

/-! ## The bytes of a block -/

theorem getLsbD_mask (i : ℕ) : (0xff : ULong).getLsbD i = decide (i < 8) := by
  by_cases h : i < 8
  · interval_cases i <;> rfl
  · rw [getLsbD_eq_false (m := 8) (by decide) (not_lt.mp h), decide_eq_false h]

theorem getLsbD_masked (b : UInt8) (i : ℕ) :
    (b.toBitVec.setWidth 64 &&& (0xff : ULong)).getLsbD i = b.toBitVec.getLsbD i := by
  rw [BitVec.getLsbD_and, getLsbD_mask, BitVec.getLsbD_setWidth]
  by_cases h : i < 8
  · rw [decide_eq_true h, decide_eq_true (by omega), Bool.and_true, Bool.true_and]
  · rw [decide_eq_false h, Bool.and_false, BitVec.getLsbD_of_ge _ _ (not_lt.mp h)]

theorem getLsbD_pack (b0 b1 b2 b3 : UInt8) (i : ℕ) :
    (((b0.toBitVec.setWidth 64 &&& (0xff : ULong)) <<< 24) |||
      ((b1.toBitVec.setWidth 64 &&& 0xff) <<< 16) ||| ((b2.toBitVec.setWidth 64 &&& 0xff) <<< 8) |||
      (b3.toBitVec.setWidth 64 &&& 0xff)).getLsbD i =
    if i < 8 then b3.toBitVec.getLsbD i
    else if i < 16 then b2.toBitVec.getLsbD (i - 8)
    else if i < 24 then b1.toBitVec.getLsbD (i - 16)
    else b0.toBitVec.getLsbD (i - 24) := by
  have hlow : ∀ (b : UInt8) (k : ℕ), 8 ≤ k → b.toBitVec.getLsbD k = false := fun b k hk =>
    BitVec.getLsbD_of_ge _ _ hk
  simp only [BitVec.getLsbD_or, BitVec.getLsbD_shiftLeft, getLsbD_masked]
  by_cases h64 : i < 64
  · by_cases h8 : i < 8
    · simp [h8, h64, show i < 16 by omega, show i < 24 by omega]
    · by_cases h16 : i < 16
      · simp [h8, h64, h16, show i < 24 by omega, hlow b3 i (by omega)]
      · by_cases h24 : i < 24
        · simp [h8, h64, h16, h24, hlow b3 i (by omega), hlow b2 (i - 8) (by omega)]
        · simp [h8, h64, h16, h24, hlow b3 i (by omega), hlow b2 (i - 8) (by omega),
            hlow b1 (i - 16) (by omega)]
  · simp [h64, show ¬ i < 8 by omega, show ¬ i < 16 by omega, show ¬ i < 24 by omega,
      hlow b3 i (by omega), hlow b0 (i - 24) (by omega)]

theorem getLsbD_byte (x : ULong) (k : ℕ) {i : ℕ} (hi : i < 8) :
    (((x >>> k) &&& 0xff).setWidth 8).getLsbD i = x.getLsbD (k + i) := by
  rw [BitVec.getLsbD_setWidth, BitVec.getLsbD_and, getLsbD_mask, BitVec.getLsbD_ushiftRight,
    decide_eq_true hi, Bool.and_true, Bool.true_and]

theorem wordBytes_pack (b0 b1 b2 b3 : UInt8) :
    wordBytes (((b0.toBitVec.setWidth 64 &&& 0xff) <<< 24) |||
      ((b1.toBitVec.setWidth 64 &&& 0xff) <<< 16) ||| ((b2.toBitVec.setWidth 64 &&& 0xff) <<< 8) |||
      (b3.toBitVec.setWidth 64 &&& 0xff)) = [b0, b1, b2, b3] := by
  have hbyte : ∀ (w : ULong) (k : ℕ) (b : UInt8),
      (∀ i < 8, w.getLsbD (k + i) = b.toBitVec.getLsbD i) →
        (⟨((w >>> k) &&& 0xff).setWidth 8⟩ : UInt8) = b := by
    intro w k b hbits
    apply UInt8.toBitVec_inj.mp
    apply BitVec.eq_of_getLsbD_eq
    intro i hi
    rw [getLsbD_byte w k hi, hbits i hi]
  have hlast : ∀ (w : ULong) (b : UInt8), (∀ i < 8, w.getLsbD i = b.toBitVec.getLsbD i) →
      (⟨(w &&& 0xff).setWidth 8⟩ : UInt8) = b := by
    intro w b hbits
    have hzero := hbyte w 0 b fun i hi => by rw [Nat.zero_add, hbits i hi]
    rwa [BitVec.ushiftRight_zero] at hzero
  simp only [wordBytes, List.cons.injEq, and_true]
  refine ⟨?_, ?_, ?_, ?_⟩
  · apply hbyte
    intro i hi
    rw [getLsbD_pack, if_neg (by omega), if_neg (by omega), if_neg (by omega),
      Nat.add_sub_cancel_left]
  · apply hbyte
    intro i hi
    rw [getLsbD_pack, if_neg (by omega), if_neg (by omega), if_pos (by omega),
      Nat.add_sub_cancel_left]
  · apply hbyte
    intro i hi
    rw [getLsbD_pack, if_neg (by omega), if_pos (by omega), Nat.add_sub_cancel_left]
  · apply hlast
    intro i hi
    rw [getLsbD_pack, if_pos hi]

theorem unscrun_scrunch {block : List UInt8} (h : block.length = 8) :
    unscrun (scrunch block) = block := by
  rcases block with
    _ | ⟨b0, _ | ⟨b1, _ | ⟨b2, _ | ⟨b3, _ | ⟨b4, _ | ⟨b5, _ | ⟨b6, _ | ⟨b7, _ | _⟩⟩⟩⟩⟩⟩⟩⟩
  case cons.cons.cons.cons.cons.cons.cons.cons.nil =>
    have hfirst : wordBytes (scrunch [b0, b1, b2, b3, b4, b5, b6, b7]).1 = [b0, b1, b2, b3] :=
      wordBytes_pack b0 b1 b2 b3
    have hsecond : wordBytes (scrunch [b0, b1, b2, b3, b4, b5, b6, b7]).2 = [b4, b5, b6, b7] :=
      wordBytes_pack b4 b5 b6 b7
    rw [unscrun, hfirst, hsecond]
    rfl
  all_goals simp at h

theorem length_unscrun (s : ULong × ULong) : (unscrun s).length = 8 := rfl

theorem pack_wordBytes (x : ULong) :
    (byteWord (wordBytes x) 0 <<< 24) ||| (byteWord (wordBytes x) 1 <<< 16) |||
      (byteWord (wordBytes x) 2 <<< 8) ||| byteWord (wordBytes x) 3 =
      (x.setWidth 32).setWidth 64 := by
  apply BitVec.eq_of_getLsbD_eq
  intro i hi
  have hbyte : ∀ k ≤ i, i < k + 8 →
      (((x >>> k) &&& 0xff).setWidth 8).getLsbD (i - k) = x.getLsbD i := by
    intro k hk hlt
    rw [getLsbD_byte x k (by omega), Nat.add_sub_cancel' hk]
  rw [BitVec.getLsbD_setWidth, BitVec.getLsbD_setWidth, decide_eq_true hi, Bool.true_and]
  apply (getLsbD_pack _ _ _ _ i).trans
  by_cases h32 : i < 32
  · rw [decide_eq_true h32, Bool.true_and]
    split_ifs with h8 h16 h24
    · have hlast := hbyte 0 (Nat.zero_le i) (by omega)
      rwa [BitVec.ushiftRight_zero] at hlast
    · exact hbyte 8 (by omega) (by omega)
    · exact hbyte 16 (by omega) (by omega)
    · exact hbyte 24 (by omega) (by omega)
  · rw [decide_eq_false h32, Bool.false_and, if_neg (by omega), if_neg (by omega),
      if_neg (by omega)]
    exact BitVec.getLsbD_of_ge _ _ (by omega)

theorem scrunch_unscrun (s : ULong × ULong) : scrunch (unscrun s) = low32 s :=
  Prod.ext (pack_wordBytes s.1) (pack_wordBytes s.2)

theorem unscrun_congr {s t : ULong × ULong} (h : halves 32 s = halves 32 t) :
    unscrun s = unscrun t := by
  have hlow : ∀ s, unscrun (low32 s) = unscrun s := fun s => by
    rw [← scrunch_unscrun, unscrun_scrunch (length_unscrun s)]
  obtain ⟨h1, h2⟩ := halves_eq_iff.mp h
  have hsame : low32 s = low32 t := by
    have hw : ∀ {x y : ULong}, bits 32 x = bits 32 y → x.setWidth 32 = y.setWidth 32 :=
      fun {x y} hxy => setWidth_eq (hxy.trans (bits_setWidth y).symm)
    rw [low32, low32, hw h1, hw h2]
  rw [← hlow s, ← hlow t, hsame]

theorem unscrun_desfunc_inverse {keys keys' : List ULong} (hlen : keys.length = 32)
    (hlen' : keys'.length = 32) (hkeys : pairs keys' = (pairs keys).reverse) {block : List UInt8}
    (hblock : block.length = 8) :
    unscrun (desfunc (scrunch (unscrun (desfunc (scrunch block) keys))) keys') = block := by
  have hhalves := desfuncWith_inverse lowTable_SP5 hlen hlen' hkeys (scrunch block)
  rw [scrunch_unscrun]
  exact (unscrun_congr hhalves).trans (unscrun_scrunch hblock)

end DesInverse
