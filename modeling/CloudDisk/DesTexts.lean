import CloudDisk.ByteBuffers
import CloudDisk.DesInverse

/-! # DesEnc and DesDec

`des.c` above its block function: the padding, the copies of the expanded key, the loop over the
blocks and the check of the padding. The key goes through a buffer of 128 bytes, which was the
size of 32 words of four bytes; `unsigned long` has eight, so that 16 of the 32 words of `ek` and
`dk` keep what was on the stack. That is a parameter of every call here, and so is whether
`malloc` succeeds. The lengths are stored as eight bytes into variables of type `int`, which clears
the four bytes behind them. -/
namespace DesTexts

open CheckedCode ByteBuffers BitWirings Des DesInverse

/-- A returned value other than 0, or the bytes that were written. -/
abbrev Outcome := Except ℕ

def desKeyBytes : ℕ := 128

def desKeyLongs : ℕ := 32

def desBlockLen : ℕ := 8

def sizeofULong : ℕ := 8

def errMalloc : ℕ := 20

def errFileCont : ℕ := 20

/-- A variable of type `int` and the four bytes behind it. -/
structure IntVar where
  value : BitVec 32
  behind : BitVec 32

/-- `*(unsigned long *)&v = n`. -/
def IntVar.storeLong (n : ULong) : IntVar := ⟨n.setWidth 32, (n >>> 32).setWidth 32⟩

def IntVar.storeInt (v : IntVar) (n : ℕ) : IntVar := { v with value := BitVec.ofNat 32 n }

/-! ## Keys and blocks -/

/-- `unsigned long ek[DES_KEYLONGS]`. -/
structure KeyArray where
  words : List ULong
  length_eq : words.length = desKeyLongs

/-- `memcpy` of whole words to the front of the array. -/
def KeyArray.copy (ek : KeyArray) (key : List ULong) : List ULong :=
  key ++ ek.words.drop key.length

/-- The expanded key as it is copied, and the variable of its length. -/
def opencommDesExpandKey (edf : Edf) (pbDesKey : List UInt8) : Outcome (List ULong × IntVar) :=
  if pbDesKey.length ≠ 8 then throw 0xEE20
  else pure ((cookey (deskey pbDesKey edf)).take (desKeyBytes / sizeofULong),
    .storeLong (BitVec.ofNat 64 desKeyBytes))

def opencommDesExpandEncKey : List UInt8 → Outcome (List ULong × IntVar) :=
  opencommDesExpandKey .EN0

def opencommDesExpandDecKey : List UInt8 → Outcome (List ULong × IntVar) :=
  opencommDesExpandKey .DE1

/-- `OPENCOMM_DesEncRaw` and `OPENCOMM_DesDecRaw`, which are the same text; `ek` is the array as
the call finds it. With the block comes the variable of its length. -/
def opencommDesRaw (key : List ULong) (keyLen : ℕ) (ek : KeyArray) (pbInData : List UInt8) :
    Outcome (List UInt8 × IntVar) :=
  if pbInData.length ≠ desBlockLen then throw 0xEE20
  else if keyLen ≠ desKeyBytes then throw 0xEE20
  else pure (unscrun (desfunc (scrunch pbInData) (ek.copy key)),
    .storeLong (BitVec.ofNat 64 desBlockLen))

def opencommDesEncRaw : List ULong → ℕ → KeyArray → List UInt8 → Outcome (List UInt8 × IntVar) :=
  opencommDesRaw

def opencommDesDecRaw : List ULong → ℕ → KeyArray → List UInt8 → Outcome (List UInt8 × IntVar) :=
  opencommDesRaw

/-- What the call number `i` of the loop makes of its block. -/
abbrev RawCalls := ℕ → List UInt8 → Outcome (List UInt8 × IntVar)

/-- The bytes that were written, and what became of the variable `*pOutDataLen`. -/
abbrev Written := List UInt8 × (IntVar → IntVar)

def blockLoop (raw : RawCalls) : ℕ → ℕ → List UInt8 → Outcome Written
  | _, 0, _ => pure ([], id)
  | i, loops + 1, pInData => do
    let (block, outDataLen) ← raw i (pInData.take 8)
    let (rest, later) ← blockLoop raw (i + 1) loops (pInData.drop 8)
    return (block ++ rest, fun _ => later outDataLen)

/-- The check of the key and its expansion, in front of the loop. -/
def keyed (expand : List UInt8 → Outcome (List ULong × IntVar))
    (raw : List ULong → ℕ → KeyArray → List UInt8 → Outcome (List UInt8 × IntVar))
    (stack : ℕ → KeyArray) (pDesKey : List UInt8) : Outcome RawCalls :=
  if pDesKey.length ≠ 8 then throw 0xEE20
  else do
    let (key, keyLen) ← expand pDesKey
    return fun i block => raw key keyLen.value.toNat (stack i) block

def myicDES (cipher : Outcome RawCalls) (pInData : List UInt8) : Outcome Written :=
  if pInData.length % 8 ≠ 0 then throw 0xEE20
  else do
    let raw ← cipher
    let (out, stores) ← blockLoop raw 0 (pInData.length / 8) pInData
    return (out, fun v => (stores v).storeInt pInData.length)

def myicDESEncrypt (stack : ℕ → KeyArray) (pDesKey : List UInt8) :
    List UInt8 → Outcome Written :=
  myicDES (keyed opencommDesExpandEncKey opencommDesEncRaw stack pDesKey)

def myicDESDecrypt (stack : ℕ → KeyArray) (pDesKey : List UInt8) :
    List UInt8 → Outcome Written :=
  myicDES (keyed opencommDesExpandDecKey opencommDesDecRaw stack pDesKey)

/-! ## Padding -/

/-- The first `*padDateLen` bytes of `*padDate`, or the null pointer. -/
def cwDataPadAdd (tag : ℤ) (malloc : Bool) (date : List UInt8) : Checked (Option (List UInt8)) :=
  if malloc then do
    let pTmp ← (Buffer.zeroed ((date.length + 24) % 2 ^ 32)).write 0 date
    let padLen := if tag = 0 then 8 - date.length % 8 else 16 - date.length % 16
    let pTmp ← pTmp.write date.length (List.replicate padLen (UInt8.ofNat padLen))
    return some (pTmp.bytes.take (date.length + padLen))
  else pure none

/-- The end of `DesDec`, for the decrypted text. The last byte is read as a signed `char`, and the
index of an empty text is -1. -/
def unpad (tmpPlain : List UInt8) : Checked (Outcome (List UInt8)) :=
  match tmpPlain.getLast? with
  | none => throw .outOfBounds
  | some last =>
    let padChar : ℤ := last.toBitVec.toInt
    if padChar ≤ 0 ∨ 8 < padChar then pure (throw errFileCont)
    else pure (pure (tmpPlain.take (tmpPlain.length - padChar.toNat)))

/-- `DesEnc` with what `myic_DESEncrypt` does. Without memory `padDateLen` stays 0. -/
def desEncWith (encrypt : List UInt8 → Outcome (List UInt8)) (malloc : Bool)
    (pInData : List UInt8) : Checked (Outcome (List UInt8)) := do
  let padDate ← cwDataPadAdd 0 malloc pInData
  let padDate := padDate.getD []
  -- `(int)padDateLen`
  if padDate.length < 2 ^ 31 then return encrypt padDate else throw .overflow

/-- `DesDec` with what `myic_DESDecrypt` does. -/
def desDecWith (decrypt : List UInt8 → Outcome (List UInt8)) (malloc : Bool)
    (pInData : List UInt8) : Checked (Outcome (List UInt8)) := do
  let _ ← intAdd pInData.length 24
  if malloc then
    match decrypt pInData with
    | .error rv => return .error rv
    | .ok tmpPlain => unpad tmpPlain
  else return throw errMalloc

/-- The bytes that `DesEnc` writes; `*pOutDataLen` is their number. -/
def desEnc (stack : ℕ → KeyArray) : Bool → List UInt8 → Checked (Outcome (List UInt8)) :=
  desEncWith fun padDate => Prod.fst <$> myicDESEncrypt stack userPasswordKey padDate

def desDec (stack : ℕ → KeyArray) : Bool → List UInt8 → Checked (Outcome (List UInt8)) :=
  desDecWith fun pInData => Prod.fst <$> myicDESDecrypt stack userPasswordKey pInData

/-! ## What the padding adds and takes away -/

section Padding
variable {x p : List UInt8}

def padLen (x : List UInt8) : ℕ := 8 - x.length % 8

/-- The text with one to eight bytes, each of them their number. -/
def padded (x : List UInt8) : List UInt8 :=
  x ++ List.replicate (padLen x) (UInt8.ofNat (padLen x))

theorem length_padded (x : List UInt8) : (padded x).length = x.length + padLen x := by
  rw [padded, List.length_append, List.length_replicate]

theorem eight_dvd_padded (x : List UInt8) : 8 ∣ (padded x).length := by
  rw [length_padded, padLen]
  omega

theorem toNat_padLen (x : List UInt8) : (UInt8.ofNat (padLen x)).toNat = padLen x := by
  rw [UInt8.toNat_ofNat']
  apply Nat.mod_eq_of_lt
  rw [padLen]
  omega

theorem getLast?_padded (x : List UInt8) :
    (padded x).getLast? = some (UInt8.ofNat (padLen x)) := by
  obtain ⟨n, hn⟩ : ∃ n, padLen x = n + 1 := ⟨7 - x.length % 8, by rw [padLen]; omega⟩
  rw [padded, hn, List.replicate_succ', ← List.append_assoc, List.getLast?_concat]

theorem cwDataPadAdd_eq (h : x.length < 2 ^ 32 - 24) :
    cwDataPadAdd 0 true x = .ok (some (padded x)) := by
  have hsize : (x.length + 24) % 2 ^ 32 = x.length + 24 := Nat.mod_eq_of_lt (by omega)
  have hpad : padLen x ≤ 8 := Nat.sub_le _ _
  rw [eq_ok_iff]
  simp only [cwDataPadAdd, if_true, returns_bind, returns_pure]
  rw [Buffer.returns_write (Nat.zero_le _), Buffer.returns_write (by omega),
    List.length_replicate]
  refine ⟨by omega, by rw [padLen] at hpad; omega, ?_⟩
  have hdate := Buffer.take_overlay (Buffer.zeroed ((x.length + 24) % 2 ^ 32)) 0 x (by omega)
  have hboth :=
    Buffer.take_overlay ((Buffer.zeroed ((x.length + 24) % 2 ^ 32)).overlay 0 x) x.length
    (List.replicate (padLen x) (UInt8.ofNat (padLen x))) (by rw [List.length_replicate]; omega)
  rw [Nat.zero_add, List.take_zero, List.nil_append] at hdate
  rw [List.length_replicate, hdate] at hboth
  exact congrArg some hboth

theorem cwDataPadAdd_small (h : 2 ^ 32 - 24 ≤ x.length) (q : Option (List UInt8)) :
    cwDataPadAdd 0 true x ≠ .ok q := by
  rw [Ne, eq_ok_iff]
  simp only [cwDataPadAdd, if_true, returns_bind]
  rw [Buffer.returns_write (Nat.zero_le _)]
  rintro ⟨hfits, -⟩
  omega

theorem padChar_accepted (b : UInt8) :
    ¬ (b.toBitVec.toInt ≤ 0 ∨ 8 < b.toBitVec.toInt) ↔ 1 ≤ b.toNat ∧ b.toNat ≤ 8 := by
  have hnat : b.toBitVec.toNat = b.toNat := rfl
  have hlt : b.toNat < 256 := b.toNat_lt
  rw [BitVec.toInt_eq_toNat_cond, hnat]
  split <;> omega

theorem unpad_nil : unpad [] = .error .outOfBounds := rfl

theorem unpad_concat (s : List UInt8) (b : UInt8) :
    unpad (s ++ [b]) =
      if 1 ≤ b.toNat ∧ b.toNat ≤ 8 then
        .ok (.ok ((s ++ [b]).take ((s ++ [b]).length - b.toNat)))
      else .ok (.error errFileCont) := by
  have hiff := padChar_accepted b
  by_cases h : 1 ≤ b.toNat ∧ b.toNat ≤ 8
  · have hsmall : b.toBitVec.toInt.toNat = b.toNat := by
      have hnat : b.toBitVec.toNat = b.toNat := rfl
      rw [BitVec.toInt_eq_toNat_cond, hnat]
      split <;> omega
    rw [if_pos h, unpad, List.getLast?_concat]
    simp only [if_neg (hiff.mpr h), hsmall]
    rfl
  · rw [if_neg h, unpad, List.getLast?_concat]
    simp only [if_pos (not_not.mp (hiff.not.mpr h))]
    rfl

theorem unpad_eq_ok : unpad p = .ok (.ok x) ↔
    ∃ b, p.getLast? = some b ∧ 1 ≤ b.toNat ∧ b.toNat ≤ 8 ∧ x = p.take (p.length - b.toNat) := by
  rcases List.eq_nil_or_concat p with rfl | ⟨s, b, rfl⟩
  · simp [unpad_nil]
  · rw [List.concat_eq_append, unpad_concat, List.getLast?_concat]
    by_cases h : 1 ≤ b.toNat ∧ b.toNat ≤ 8
    · rw [if_pos h]
      constructor
      · intro hx
        cases hx
        exact ⟨b, rfl, h.1, h.2, rfl⟩
      · rintro ⟨c, hc, -, -, rfl⟩
        cases hc
        rfl
    · rw [if_neg h]
      constructor
      · intro hx
        cases hx
      · rintro ⟨c, hc, h1, h8, -⟩
        cases hc
        exact (h ⟨h1, h8⟩).elim

/-- All bytes that are taken away hold the number that the last one holds. -/
def FullPadding (p : List UInt8) : Prop :=
  ∀ b, p.getLast? = some b → 1 ≤ b.toNat → b.toNat ≤ 8 →
    p.drop (p.length - b.toNat) = List.replicate b.toNat b

theorem fullPadding_padded (x : List UInt8) : FullPadding (padded x) := by
  intro b hb _ _
  rw [getLast?_padded] at hb
  cases hb
  rw [toNat_padLen, length_padded, Nat.add_sub_cancel, padded, List.drop_left]

theorem unpad_padded (x : List UInt8) : unpad (padded x) = .ok (.ok x) := by
  rw [unpad_eq_ok]
  refine ⟨_, getLast?_padded x, ?_, ?_, ?_⟩
  · rw [toNat_padLen, padLen]
    omega
  · rw [toNat_padLen, padLen]
    omega
  · rw [toNat_padLen, length_padded, Nat.add_sub_cancel, padded, List.take_left]

theorem padded_of_unpad (h8 : 8 ∣ p.length) (hfull : FullPadding p)
    (hx : unpad p = .ok (.ok x)) : padded x = p := by
  obtain ⟨b, hb, h1, hle, rfl⟩ := unpad_eq_ok.mp hx
  have hpos : 0 < p.length := by
    cases p with
    | nil => cases hb
    | cons => exact Nat.succ_pos _
  have hlen : (p.take (p.length - b.toNat)).length = p.length - b.toNat := by
    rw [List.length_take]
    omega
  have hpad : padLen (p.take (p.length - b.toNat)) = b.toNat := by
    rw [padLen, hlen]
    omega
  rw [padded, hpad, UInt8.ofNat_toNat, ← hfull b hb h1 hle, List.take_append_drop]

end Padding

/-! ## Block by block -/

section Blocks
variable {g g' : ℕ → List UInt8 → List UInt8} {raw : RawCalls} {n : ℕ} {data : List UInt8}

/-- What the loop writes when every call returns 0. -/
def mapBlocks (g : ℕ → List UInt8 → List UInt8) : ℕ → ℕ → List UInt8 → List UInt8
  | _, 0, _ => []
  | i, n + 1, data => g i (data.take 8) ++ mapBlocks g (i + 1) n (data.drop 8)

theorem length_take_eight (h : data.length = 8 * (n + 1)) : (data.take 8).length = 8 := by
  rw [List.length_take]
  omega

theorem length_drop_eight (h : data.length = 8 * (n + 1)) : (data.drop 8).length = 8 * n := by
  rw [List.length_drop]
  omega

/-- A loop that runs at all leaves eight in the variable and zeros behind it. -/
def afterBlocks : ℕ → IntVar → IntVar
  | 0, v => v
  | _ + 1, _ => ⟨8, 0⟩

theorem blockLoop_eq (hraw : ∀ i b, b.length = 8 → raw i b = .ok (g i b, .storeLong 8)) (i : ℕ)
    (h : data.length = 8 * n) :
    blockLoop raw i n data = .ok (mapBlocks g i n data, afterBlocks n) := by
  have hstore : IntVar.storeLong 8 = ⟨8, 0⟩ := rfl
  induction n generalizing i data with
  | zero => rfl
  | succ n ih =>
    rw [blockLoop, hraw i _ (length_take_eight h), ih (i + 1) (length_drop_eight h), hstore]
    cases n <;> rfl

theorem getLast?_mapBlocks (hg : ∀ i b, b.length = 8 → (g i b).length = 8) (i : ℕ)
    (h : data.length = 8 * (n + 1)) :
    (mapBlocks g i (n + 1) data).getLast? = (g (i + n) (data.drop (8 * n))).getLast? := by
  induction n generalizing i data with
  | zero =>
    have hdata : data.take 8 = data := List.take_of_length_le (by omega)
    simp only [mapBlocks, List.append_nil, Nat.add_zero, Nat.mul_zero, List.drop_zero, hdata]
  | succ n ih =>
    have hdrop := length_drop_eight h
    have hne : mapBlocks g (i + 1) (n + 1) (data.drop 8) ≠ [] := by
      have hlast : (g (i + 1) ((data.drop 8).take 8)).length = 8 := hg _ _ (length_take_eight hdrop)
      intro hnil
      rw [mapBlocks, List.append_eq_nil_iff] at hnil
      simp [hnil.1] at hlast
    have hindex : 8 + 8 * n = 8 * (n + 1) := by ring
    rw [mapBlocks, List.getLast?_append_of_ne_nil _ hne, ih (i + 1) hdrop, List.drop_drop, hindex,
      Nat.add_right_comm i 1 n, ← Nat.add_assoc]

theorem length_mapBlocks (hg : ∀ i b, b.length = 8 → (g i b).length = 8) (i : ℕ)
    (h : data.length = 8 * n) : (mapBlocks g i n data).length = 8 * n := by
  induction n generalizing i data with
  | zero => rfl
  | succ n ih =>
    rw [mapBlocks, List.length_append, hg i _ (length_take_eight h),
      ih (i + 1) (length_drop_eight h)]
    ring

theorem mapBlocks_mapBlocks (hg : ∀ i b, b.length = 8 → (g i b).length = 8) (i : ℕ)
    (h : data.length = 8 * n) :
    mapBlocks g' i n (mapBlocks g i n data) = mapBlocks (fun i b => g' i (g i b)) i n data := by
  induction n generalizing i data with
  | zero => rfl
  | succ n ih =>
    have hfirst : (g i (data.take 8)).length = 8 := hg i _ (length_take_eight h)
    rw [mapBlocks, mapBlocks, mapBlocks, List.take_left' hfirst, List.drop_left' hfirst,
      ih (i + 1) (length_drop_eight h)]

theorem mapBlocks_id (hg : ∀ i b, b.length = 8 → g i b = b) (i : ℕ) (h : data.length = 8 * n) :
    mapBlocks g i n data = data := by
  induction n generalizing i data with
  | zero => exact (List.eq_nil_of_length_eq_zero (by omega)).symm
  | succ n ih =>
    rw [mapBlocks, hg i _ (length_take_eight h), ih (i + 1) (length_drop_eight h),
      List.take_append_drop]

theorem myicDES_eq (hraw : ∀ i b, b.length = 8 → raw i b = .ok (g i b, .storeLong 8))
    (h : 8 ∣ data.length) :
    myicDES (.ok raw) data = .ok (mapBlocks g 0 (data.length / 8) data,
      fun v => (afterBlocks (data.length / 8) v).storeInt data.length) := by
  have hloop := blockLoop_eq hraw 0 (show data.length = 8 * (data.length / 8) by omega)
  rw [myicDES, if_neg (by omega)]
  change (blockLoop raw 0 (data.length / 8) data >>= _) = _
  rw [hloop]
  rfl

theorem eight_dvd_of_myicDES {cipher : Outcome RawCalls} {out : List UInt8}
    (h : Prod.fst <$> myicDES cipher data = .ok out) : 8 ∣ data.length := by
  by_contra hmod
  rw [myicDES, if_pos (by omega)] at h
  cases h

end Blocks

/-! ## A cipher that can be undone -/

structure BlockCipher where
  encrypt : List UInt8 → List UInt8
  decrypt : List UInt8 → List UInt8
  length_encrypt : ∀ b, b.length = 8 → (encrypt b).length = 8
  length_decrypt : ∀ b, b.length = 8 → (decrypt b).length = 8
  decrypt_encrypt : ∀ b, b.length = 8 → decrypt (encrypt b) = b
  encrypt_decrypt : ∀ b, b.length = 8 → encrypt (decrypt b) = b

namespace BlockCipher
variable (cipher : BlockCipher)

/-- The loop with some block function in the place of the cipher. -/
def text (f : List UInt8 → List UInt8) (pInData : List UInt8) : Outcome (List UInt8) :=
  Prod.fst <$> myicDES (.ok fun _ b => .ok (f b, .storeLong 8)) pInData

def encryptText : List UInt8 → Outcome (List UInt8) := text cipher.encrypt

def decryptText : List UInt8 → Outcome (List UInt8) := text cipher.decrypt

variable {cipher}

theorem text_eq (f : List UInt8 → List UInt8) {data : List UInt8} (h : 8 ∣ data.length) :
    text f data = .ok (mapBlocks (fun _ => f) 0 (data.length / 8) data) := by
  rw [text, myicDES_eq (g := fun _ => f) (fun _ _ _ => rfl) h]
  rfl

theorem encryptText_of_decryptText {c p : List UInt8} (h : cipher.decryptText c = .ok p) :
    cipher.encryptText p = .ok c := by
  have hc : 8 ∣ c.length := eight_dvd_of_myicDES h
  have hblocks : c.length = 8 * (c.length / 8) := (Nat.mul_div_cancel' hc).symm
  have hdec : cipher.decryptText c =
      .ok (mapBlocks (fun _ => cipher.decrypt) 0 (c.length / 8) c) := text_eq _ hc
  have hp : mapBlocks (fun _ => cipher.decrypt) 0 (c.length / 8) c = p := by
    rw [hdec] at h
    exact Except.ok.inj h
  have hlen : p.length = 8 * (c.length / 8) := by
    rw [← hp]
    exact length_mapBlocks (fun _ => cipher.length_decrypt) 0 hblocks
  have henc : cipher.encryptText p =
      .ok (mapBlocks (fun _ => cipher.encrypt) 0 (p.length / 8) p) := text_eq _ ⟨_, hlen⟩
  rw [henc, hlen, Nat.mul_div_cancel_left _ (by decide), ← hp,
    mapBlocks_mapBlocks (fun _ => cipher.length_decrypt) 0 hblocks,
    mapBlocks_id (fun _ => cipher.encrypt_decrypt) 0 hblocks]

end BlockCipher

section Exact
variable {x p c : List UInt8}

theorem unpad_of_desDecWith {decrypt : List UInt8 → Outcome (List UInt8)}
    (hdec : decrypt c = .ok p) (h : desDecWith decrypt true c = .ok (.ok x)) :
    unpad p = .ok (.ok x) := by
  rw [eq_ok_iff, desDecWith, returns_bind, returns_intAdd, if_pos rfl, hdec] at h
  exact eq_ok_iff.mpr h.2

theorem desEncWith_eq {encrypt : List UInt8 → Outcome (List UInt8)}
    (h : (padded x).length < 2 ^ 31) : desEncWith encrypt true x = .ok (encrypt (padded x)) := by
  have hx : x.length < 2 ^ 32 - 24 := by
    rw [length_padded] at h
    omega
  rw [desEncWith, cwDataPadAdd_eq hx]
  exact if_pos h

theorem cwDataPadAdd_eq_some (hp : p.length < 2 ^ 31) :
    cwDataPadAdd 0 true x = .ok (some p) ↔ padded x = p := by
  by_cases hx : x.length < 2 ^ 32 - 24
  · rw [cwDataPadAdd_eq hx]
    constructor
    · intro h
      exact Option.some.inj (Except.ok.inj h)
    · intro h
      rw [h]
  · constructor
    · intro h
      exact (cwDataPadAdd_small (by omega) _ h).elim
    · intro h
      have hlen := length_padded x
      rw [h] at hlen
      omega

theorem unpad_returns (h : p ≠ []) : ∃ r, unpad p = .ok r := by
  obtain ⟨s, b, rfl⟩ := (List.eq_nil_or_concat p).resolve_left h
  rw [List.concat_eq_append, unpad_concat]
  split
  · exact ⟨_, rfl⟩
  · exact ⟨_, rfl⟩

/-- For the decrypted text `p`: the check reads inside it, accepts it as the padding of what it
returns and of nothing else, and encryption gives back the ciphertext. All of that holds exactly
when there is a last byte and the bytes that it counts are full padding. -/
theorem unpad_exact_iff (cipher : BlockCipher) (p : List UInt8) (h8 : 8 ∣ p.length)
    (hlen : p.length < 2 ^ 31) :
    (Returns (unpad p) (fun r => ∀ x, r = .ok x ↔ cwDataPadAdd 0 true x = .ok (some p)) ∧
      ∀ c, cipher.decryptText c = .ok p → ∀ x,
        desDecWith cipher.decryptText true c = .ok (.ok x) →
        desEncWith cipher.encryptText true x = .ok (.ok c)) ↔
    p ≠ [] ∧ FullPadding p := by
  constructor
  · rintro ⟨⟨r, hr, hexact⟩, -⟩
    constructor
    · rintro rfl
      rw [unpad_nil] at hr
      cases hr
    · intro b hb h1 hle
      have hx : unpad p = .ok (.ok (p.take (p.length - b.toNat))) :=
        unpad_eq_ok.mpr ⟨b, hb, h1, hle, rfl⟩
      have hpad := (hexact _).mp (Except.ok.inj (hr.symm.trans hx))
      rw [cwDataPadAdd_eq_some hlen] at hpad
      have hfull := fullPadding_padded (p.take (p.length - b.toNat))
      rw [hpad] at hfull
      exact hfull b hb h1 hle
  · rintro ⟨hne, hfull⟩
    constructor
    · obtain ⟨r, hr⟩ := unpad_returns hne
      refine ⟨r, hr, fun x => ?_⟩
      rw [cwDataPadAdd_eq_some hlen]
      constructor
      · rintro rfl
        exact padded_of_unpad h8 hfull hr
      · rintro rfl
        rw [unpad_padded] at hr
        exact (Except.ok.inj hr).symm
    · intro c hc x hx
      have hpad : padded x = p := padded_of_unpad h8 hfull (unpad_of_desDecWith hc hx)
      rw [desEncWith_eq (by rwa [hpad]), hpad, BlockCipher.encryptText_of_decryptText hc]

/-- One block of padding, under the cipher that leaves every block as it is. -/
theorem unpad_exact_eights :
    Returns (unpad [8, 8, 8, 8, 8, 8, 8, 8])
      (fun r => ∀ x, r = .ok x ↔ cwDataPadAdd 0 true x = .ok (some [8, 8, 8, 8, 8, 8, 8, 8])) := by
  have hfull : FullPadding [8, 8, 8, 8, 8, 8, 8, 8] := fullPadding_padded []
  exact ((unpad_exact_iff ⟨id, id, fun _ h => h, fun _ h => h, fun _ _ => rfl, fun _ _ => rfl⟩
    [8, 8, 8, 8, 8, 8, 8, 8] (by decide) (by decide)).mpr ⟨by decide, hfull⟩).1

/-- The empty text is read at index -1. A block that ends in a 2 by chance is accepted, though it
is the padding of nothing, and what comes back is encrypted to another ciphertext. -/
theorem unpad_inexact :
    unpad [] = .error .outOfBounds ∧
    unpad [0, 0, 0, 0, 0, 0, 0, 2] = .ok (.ok [0, 0, 0, 0, 0, 0]) ∧
    (¬ ∃ x, cwDataPadAdd 0 true x = .ok (some [0, 0, 0, 0, 0, 0, 0, 2])) ∧
    desDecWith (BlockCipher.text id) true [0, 0, 0, 0, 0, 0, 0, 2] =
      .ok (.ok [0, 0, 0, 0, 0, 0]) ∧
    desEncWith (BlockCipher.text id) true [0, 0, 0, 0, 0, 0] =
      .ok (.ok [0, 0, 0, 0, 0, 0, 2, 2]) := by
  refine ⟨rfl, rfl, ?_, rfl, rfl⟩
  rintro ⟨x, hx⟩
  rw [cwDataPadAdd_eq_some (by decide)] at hx
  have hfull := fullPadding_padded x
  rw [hx] at hfull
  exact absurd (hfull 2 rfl (by decide) (by decide)) (by decide)

end Exact

/-! ## There and back -/

section Stack
variable {edf : Edf} {ek : KeyArray} {stack stack' : ℕ → KeyArray} {x data : List UInt8}

/-- What one call makes of a block: half of the key array is the key. -/
def rawBlock (edf : Edf) (ek : KeyArray) (block : List UInt8) : List UInt8 :=
  unscrun (desfunc (scrunch block)
    ((cookey (deskey userPasswordKey edf)).take 16 ++ ek.words.drop 16))

theorem length_rawBlock (edf : Edf) (ek : KeyArray) (block : List UInt8) :
    (rawBlock edf ek block).length = 8 :=
  length_unscrun _

theorem opencommDesRaw_eq (edf : Edf) (ek : KeyArray) {block : List UInt8}
    (h : block.length = 8) :
    opencommDesRaw ((cookey (deskey userPasswordKey edf)).take 16) desKeyBytes ek block =
      .ok (rawBlock edf ek block, .storeLong 8) := by
  have hlen : ((cookey (deskey userPasswordKey edf)).take 16).length = 16 := by
    rw [List.length_take, length_keyWords]
    rfl
  have hblock : ¬ block.length ≠ desBlockLen := not_not.mpr h
  rw [opencommDesRaw, if_neg hblock, if_neg (not_not.mpr rfl), KeyArray.copy, hlen]
  rfl

theorem myicDES_keyed (edf : Edf) (stack : ℕ → KeyArray) (h : 8 ∣ data.length) :
    myicDES (keyed (opencommDesExpandKey edf) opencommDesRaw stack userPasswordKey) data =
      .ok (mapBlocks (fun i => rawBlock edf (stack i)) 0 (data.length / 8) data,
        fun v => (afterBlocks (data.length / 8) v).storeInt data.length) := by
  have hkeyed : keyed (opencommDesExpandKey edf) opencommDesRaw stack userPasswordKey =
      .ok fun i block => opencommDesRaw ((cookey (deskey userPasswordKey edf)).take 16) desKeyBytes
        (stack i) block := rfl
  rw [hkeyed]
  exact myicDES_eq (fun i _ hb => opencommDesRaw_eq edf (stack i) hb) h

theorem myicDESEncrypt_eq (stack : ℕ → KeyArray) (h : 8 ∣ data.length) :
    Prod.fst <$> myicDESEncrypt stack userPasswordKey data =
      .ok (mapBlocks (fun i => rawBlock .EN0 (stack i)) 0 (data.length / 8) data) :=
  congrArg (Prod.fst <$> ·) (myicDES_keyed .EN0 stack h)

theorem myicDESDecrypt_eq (stack : ℕ → KeyArray) (h : 8 ∣ data.length) :
    Prod.fst <$> myicDESDecrypt stack userPasswordKey data =
      .ok (mapBlocks (fun i => rawBlock .DE1 (stack i)) 0 (data.length / 8) data) :=
  congrArg (Prod.fst <$> ·) (myicDES_keyed .DE1 stack h)

def returned (stack stack' : ℕ → KeyArray) (x : List UInt8) : List UInt8 :=
  mapBlocks (fun i block => rawBlock .DE1 (stack' i) (rawBlock .EN0 (stack i) block)) 0
    ((padded x).length / 8) (padded x)

/-- The text and the last byte of its padding come back. -/
def Survives (stack stack' : ℕ → KeyArray) (x : List UInt8) : Prop :=
  (returned stack stack' x).take x.length = x ∧
    (returned stack stack' x).getLast? = some (UInt8.ofNat (8 - x.length % 8))

/-- The words that were not copied happen to be those of the key. -/
def KeyOnStack (edf : Edf) (ek : KeyArray) : Prop :=
  ek.words.drop 16 = (cookey (deskey userPasswordKey edf)).drop 16

theorem rawBlock_keyOnStack (h : KeyOnStack edf ek) (block : List UInt8) :
    rawBlock edf ek block =
      unscrun (desfunc (scrunch block) (cookey (deskey userPasswordKey edf))) := by
  rw [rawBlock, h, List.take_append_drop]

theorem rawBlock_rawBlock {dk : KeyArray} (henc : KeyOnStack .EN0 ek) (hdec : KeyOnStack .DE1 dk)
    {block : List UInt8} (h : block.length = 8) :
    rawBlock .DE1 dk (rawBlock .EN0 ek block) = block := by
  have hkeys : pairs (cookey (deskey userPasswordKey .DE1)) =
      (pairs (cookey (deskey userPasswordKey .EN0))).reverse := by
    rw [pairs_decrypt, pairs_encrypt]
  rw [rawBlock_keyOnStack hdec, rawBlock_keyOnStack henc]
  exact unscrun_desfunc_inverse (length_keyWords _ _) (length_keyWords _ _) hkeys h

theorem padded_blocks (x : List UInt8) : (padded x).length = 8 * ((padded x).length / 8) :=
  (Nat.mul_div_cancel' (eight_dvd_padded x)).symm

theorem length_returned (stack stack' : ℕ → KeyArray) (x : List UInt8) :
    (returned stack stack' x).length = (padded x).length := by
  rw [returned, length_mapBlocks (fun _ _ _ => length_rawBlock _ _ _) 0 (padded_blocks x)]
  exact (padded_blocks x).symm

theorem survives_of_keyOnStack (h : ∀ i, KeyOnStack .EN0 (stack i) ∧ KeyOnStack .DE1 (stack' i)) :
    Survives stack stack' x := by
  have hback : returned stack stack' x = padded x :=
    mapBlocks_id (fun i _ hb => rawBlock_rawBlock (h i).1 (h i).2 hb) 0 (padded_blocks x)
  rw [Survives, hback, getLast?_padded, padded, List.take_left]
  exact ⟨rfl, rfl⟩

theorem unpad_returned :
    unpad (returned stack stack' x) = .ok (.ok x) ↔ Survives stack stack' x := by
  have hlen := length_returned stack stack' x
  rw [length_padded] at hlen
  have hpad : padLen x = 8 - x.length % 8 := rfl
  rw [unpad_eq_ok, Survives]
  constructor
  · rintro ⟨b, hb, h1, hle, hx⟩
    have hcount : b.toNat = 8 - x.length % 8 := by
      have hxlen := congrArg List.length hx
      rw [List.length_take] at hxlen
      omega
    have htext : (returned stack stack' x).length - b.toNat = x.length := by omega
    refine ⟨?_, ?_⟩
    · rw [htext] at hx
      exact hx.symm
    · rw [hb, ← hcount, UInt8.ofNat_toNat]
  · rintro ⟨htake, hlast⟩
    refine ⟨_, hlast, ?_, ?_, ?_⟩
    · rw [← hpad, toNat_padLen]
      omega
    · rw [← hpad, toNat_padLen]
      omega
    · rw [← hpad, toNat_padLen, hlen, Nat.add_sub_cancel, htake]

theorem desEnc_eq (stack : ℕ → KeyArray) (h : x.length < 2 ^ 31 - 8) :
    desEnc stack true x =
      .ok (.ok
        (mapBlocks (fun i => rawBlock .EN0 (stack i)) 0 ((padded x).length / 8) (padded x))) := by
  have hlt : (padded x).length < 2 ^ 31 := by
    rw [length_padded, padLen]
    omega
  rw [desEnc, desEncWith_eq hlt, myicDESEncrypt_eq stack (eight_dvd_padded x)]

theorem desDec_eq_ok (stack stack' : ℕ → KeyArray) (malloc : Bool) :
    desDec stack' malloc
        (mapBlocks (fun i => rawBlock .EN0 (stack i)) 0 ((padded x).length / 8) (padded x)) =
      .ok (.ok x) ↔
    malloc = true ∧ (padded x).length + 24 < 2 ^ 31 ∧ Survives stack stack' x := by
  have hlen : (mapBlocks (fun i => rawBlock .EN0 (stack i)) 0 ((padded x).length / 8)
      (padded x)).length = (padded x).length := by
    rw [length_mapBlocks (fun _ _ _ => length_rawBlock _ _ _) 0 (padded_blocks x)]
    exact (padded_blocks x).symm
  have hdec := myicDESDecrypt_eq stack' (hlen ▸ eight_dvd_padded x)
  rw [hlen, mapBlocks_mapBlocks (fun _ _ _ => length_rawBlock _ _ _) 0 (padded_blocks x)] at hdec
  rw [eq_ok_iff, desDec, desDecWith, returns_bind, returns_intAdd, hlen]
  cases malloc with
  | false => simp
  | true =>
    rw [if_pos rfl, hdec, ← unpad_returned, eq_ok_iff]
    simp only [true_and]
    rfl

/-- Encryption gives a ciphertext of the padded length, and decryption the text. -/
def RoundTrip (stack stack' : ℕ → KeyArray) (malloc malloc' : Bool) (x : List UInt8) : Prop :=
  ∃ c, desEnc stack malloc x = .ok (.ok c) ∧ c.length = x.length + 8 - x.length % 8 ∧
    desDec stack' malloc' c = .ok (.ok x)

theorem roundTrip_iff (hx : x.length < 2 ^ 31 - 8) (malloc malloc' : Bool) :
    RoundTrip stack stack' malloc malloc' x ↔
      malloc = true ∧ malloc' = true ∧ x.length + 8 - x.length % 8 + 24 < 2 ^ 31 ∧
        Survives stack stack' x := by
  have hlen : (padded x).length = x.length + 8 - x.length % 8 := by
    rw [length_padded, padLen]
    omega
  rw [RoundTrip, ← hlen]
  constructor
  · rintro ⟨c, henc, hc, hdec⟩
    cases malloc with
    | false =>
      -- nothing was padded, and nothing is written
      have hnil : desEnc stack false x = .ok (.ok []) := rfl
      rw [hnil] at henc
      cases henc
      rw [length_padded, padLen] at hc
      simp only [List.length_nil] at hc
      omega
    | true =>
      rw [desEnc_eq stack hx] at henc
      cases henc
      exact ⟨rfl, (desDec_eq_ok stack stack' malloc').mp hdec⟩
  · rintro ⟨rfl, hback⟩
    refine ⟨_, desEnc_eq stack hx, ?_, (desDec_eq_ok stack stack' malloc').mpr hback⟩
    rw [length_mapBlocks (fun _ _ _ => length_rawBlock _ _ _) 0 (padded_blocks x)]
    exact (padded_blocks x).symm

theorem roundTrip_of_keyOnStack (hx : x.length < 2 ^ 31 - 32)
    (h : ∀ i, KeyOnStack .EN0 (stack i) ∧ KeyOnStack .DE1 (stack' i)) :
    RoundTrip stack stack' true true x :=
  (roundTrip_iff (by omega) true true).mpr ⟨rfl, rfl, by omega, survives_of_keyOnStack h⟩

example : RoundTrip (fun _ => ⟨cookey (deskey userPasswordKey .EN0), length_keyWords _ _⟩)
    (fun _ => ⟨cookey (deskey userPasswordKey .DE1), length_keyWords _ _⟩) true true [97, 98, 99] :=
  roundTrip_of_keyOnStack (by decide) fun _ => ⟨rfl, rfl⟩

/-! ## What the stack can do

The last round adds to one half what the tables hold at places that the last two words of the key
choose. Of two choices, one changes the last byte of the block. -/

/-- The words with which a round looks up the places in `a` and `b`. -/
def lastKeys (right a b : ULong) : ULong × ULong :=
  (((right <<< 28) ||| (right >>> 4)) ^^^ a, right ^^^ b)

def looked (a b : ULong) : ULong :=
  entry SP7 a ||| entry SP5 (a >>> 8) ||| entry SP3 (a >>> 16) ||| entry SP1 (a >>> 24) |||
    entry SP8 b ||| entry SP6 (b >>> 8) ||| entry SP4 (b >>> 16) ||| entry SP2 (b >>> 24)

theorem fval_lastKeys (right a b : ULong) :
    fvalWith SP5 (lastKeys right a b) right = looked a b := by
  have hcancel : ∀ x y : ULong, x ^^^ (x ^^^ y) = y := fun x y => by
    rw [← BitVec.xor_assoc, BitVec.xor_self, BitVec.zero_xor]
  simp only [fvalWith, lastKeys, hcancel, looked]

theorem pairs_concat {keys : List ULong} (h : 2 ∣ keys.length) (k0 k1 : ULong) :
    pairs (keys ++ [k0, k1]) = pairs keys ++ [(k0, k1)] := by
  fun_induction pairs keys with
  | case1 l0 l1 keys ih =>
    rw [List.length_cons, List.length_cons] at h
    rw [List.cons_append, List.cons_append, pairs, ih (by omega)]
    rfl
  | case2 keys hshort =>
    rcases keys with _ | ⟨l0, _ | ⟨l1, keys⟩⟩
    · rfl
    · exact absurd h (by simp)
    · exact (hshort l0 l1 keys rfl).elim

theorem lastByte_finalSteps {s t : ULong × ULong} (hs : Low s) (ht : Low t)
    (h : (unscrun (finalSteps s)).getLast? = (unscrun (finalSteps t)).getLast?) :
    bits 32 s.2 7 = bits 32 t.2 7 := by
  have hplace : finalMap (.inr 27) = .inr 7 := by decide +kernel
  have hbit : ∀ {u : ULong × ULong}, Low u →
      (((finalSteps u).2 &&& 0xff).setWidth 8).getLsbD 4 = bits 32 u.2 7 := by
    intro u hu
    have hfinal := congrFun (halves_finalSteps hu) (.inr 27)
    rw [Function.comp_apply, hplace] at hfinal
    have hbyte := getLsbD_byte (finalSteps u).2 0 (show 4 < 8 by decide)
    rw [BitVec.ushiftRight_zero] at hbyte
    rw [hbyte]
    exact hfinal
  have hbytes : ((finalSteps s).2 &&& 0xff).setWidth 8 = ((finalSteps t).2 &&& 0xff).setWidth 8 :=
    congrArg UInt8.toBitVec (Option.some.inj h)
  rw [← hbit hs, ← hbit ht, hbytes]

theorem lastByte_free (block : List UInt8) : ∃ dk dk' : KeyArray,
    (rawBlock .DE1 dk block).getLast? ≠ (rawBlock .DE1 dk' block).getLast? := by
  let front := (cookey (deskey userPasswordKey .DE1)).take 16 ++ List.replicate 14 0
  have hfront : front.length = 30 := by
    rw [List.length_append, List.length_take, length_keyWords, List.length_replicate]
    rfl
  let s := network SP5 (initialSteps (scrunch block)) (pairs front)
  let dk := fun a b : ULong => (⟨List.replicate 30 0 ++
    [(lastKeys s.2 a b).1, (lastKeys s.2 a b).2], rfl⟩ : KeyArray)
  have hlast : ∀ a b, Low (s.2, s.1 ^^^ looked a b) ∧
      rawBlock .DE1 (dk a b) block = unscrun (finalSteps (s.2, s.1 ^^^ looked a b)) := by
    intro a b
    have hkeys : (cookey (deskey userPasswordKey .DE1)).take 16 ++ (dk a b).words.drop 16 =
        front ++ [(lastKeys s.2 a b).1, (lastKeys s.2 a b).2] := (List.append_assoc _ _ _).symm
    have hround : network SP5 (initialSteps (scrunch block))
        (pairs (front ++ [(lastKeys s.2 a b).1, (lastKeys s.2 a b).2])) =
          (s.2, s.1 ^^^ looked a b) := by
      rw [pairs_concat (by rw [hfront]; decide), network, FeistelNetworks.run_append,
        ← fval_lastKeys s.2 a b]
      rfl
    constructor
    · rw [← hround]
      exact network_low lowTable_SP5 (initialSteps_low _) _
    · rw [rawBlock, hkeys, desfunc, desfuncWith, roundLoop_eq SP5 8 _ _, hround]
      rw [List.length_append, hfront]
      rfl
  refine ⟨dk 0 0, dk 0x1000000 0, fun heq => ?_⟩
  rw [(hlast 0 0).2, (hlast 0x1000000 0).2] at heq
  have hbit := lastByte_finalSteps (hlast 0 0).1 (hlast 0x1000000 0).1 heq
  simp only [bits_xor, Bool.xor_right_inj] at hbit
  exact absurd hbit (by decide)

/-- For no text does the round trip succeed whatever is on the stack: with any words there during
the encryption, there are words with which the decryption fails. -/
theorem desDec_desEnc_never (x : List UInt8) (hx : x.length < 2 ^ 31 - 8)
    (stack : ℕ → KeyArray) : ∃ stack', ¬ RoundTrip stack stack' true true x := by
  obtain ⟨n, hn⟩ : ∃ n, (padded x).length = 8 * (n + 1) := by
    obtain ⟨k, hk⟩ := eight_dvd_padded x
    refine ⟨k - 1, ?_⟩
    rw [length_padded, padLen] at hk ⊢
    omega
  let block := rawBlock .EN0 (stack (0 + n)) ((padded x).drop (8 * n))
  have hlast : ∀ dk : KeyArray, (returned stack (fun _ => dk) x).getLast? =
      (rawBlock .DE1 dk block).getLast? := by
    intro dk
    rw [returned, hn, Nat.mul_div_cancel_left _ (by decide)]
    exact getLast?_mapBlocks (fun _ _ _ => length_rawBlock _ _ _) 0 hn
  obtain ⟨dk, dk', hne⟩ := lastByte_free block
  by_contra hall
  rw [not_exists] at hall
  have hbyte : ∀ dk : KeyArray, (rawBlock .DE1 dk block).getLast? =
      some (UInt8.ofNat (8 - x.length % 8)) := by
    intro dk
    have htrip := not_not.mp (hall fun _ => dk)
    have hsurvives := ((roundTrip_iff hx true true).mp htrip).2.2.2
    rw [← hlast dk]
    exact hsurvives.2
  exact hne ((hbyte dk).trans (hbyte dk').symm)

/-- A text of three bytes, with zeros on the stack during the encryption. -/
theorem desDec_desEnc_never_abc : ∃ stack', ¬ RoundTrip
    (fun _ => ⟨List.replicate 32 0, List.length_replicate⟩) stack' true true [97, 98, 99] :=
  desDec_desEnc_never [97, 98, 99] (by decide) _

/-- With zeros on the stack the ciphertext of `abc` is decrypted to a block that ends in 46. -/
theorem desDec_desEnc_zeros :
    desEnc (fun _ => ⟨List.replicate 32 0, List.length_replicate⟩) true [97, 98, 99] =
      .ok (.ok [103, 236, 24, 155, 179, 87, 201, 235]) ∧
    desDec (fun _ => ⟨List.replicate 32 0, List.length_replicate⟩) true
        [103, 236, 24, 155, 179, 87, 201, 235] =
      .ok (.error errFileCont) := by
  have henc : rawBlock .EN0 ⟨List.replicate 32 0, List.length_replicate⟩
        [97, 98, 99, 5, 5, 5, 5, 5] = [103, 236, 24, 155, 179, 87, 201, 235] ∧
      rawBlock .DE1 ⟨List.replicate 32 0, List.length_replicate⟩
        [103, 236, 24, 155, 179, 87, 201, 235] = [7, 45, 149, 160, 49, 233, 181, 46] := by
    rw [rawBlock, rawBlock, cookey_decrypt, cookey_userPasswordKey]
    decide +kernel
  constructor
  · rw [desEnc_eq _ (by decide)]
    exact congrArg (fun c => Except.ok (Except.ok c)) henc.1
  · have hplain : Prod.fst <$> myicDESDecrypt
        (fun _ => ⟨List.replicate 32 0, List.length_replicate⟩) userPasswordKey
        [103, 236, 24, 155, 179, 87, 201, 235] = .ok [7, 45, 149, 160, 49, 233, 181, 46] := by
      rw [myicDESDecrypt_eq _ (by decide)]
      exact congrArg Except.ok henc.2
    rw [desDec, desDecWith, hplain]
    rfl

end Stack

end DesTexts
