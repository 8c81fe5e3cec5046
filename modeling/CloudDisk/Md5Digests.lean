import CloudDisk.Md5
import CloudDisk.SineTable
import Mathlib.Tactic.IntervalCases

/-! # `md5.c` computes the digest of RFC 1321

The sixty-four lines are the operations of the RFC with their constants, so that a block does to
the state what the RFC says. Through any number of updates the context keeps the bit count, the
state after the complete blocks and the tail of everything it was given. -/
namespace Md5Digests

open ByteBuffers Md5 BlockStreams
open Rfc1321 (Registers Aux Operation operation word process bytes pad)

/-! ## Words and bytes -/

theorem rotateLeft_eq {x n : UInt32} (h0 : 0 < n.toNat) (h32 : n.toNat < 32) :
    rotateLeft x n = Rfc1321.rotateLeft x n.toNat := by
  have hle : n ≤ 32 := by
    rw [UInt32.le_iff_toNat_le]
    exact h32.le
  have hsub : (32 - n).toNat = 32 - n.toNat := UInt32.toNat_sub_of_le 32 n hle
  have hlt : 32 - n.toNat < 32 := by omega
  apply UInt32.toNat_inj.mp
  rw [rotateLeft, Rfc1321.rotateLeft, BitVec.rotateLeft_def, UInt32.toNat_or,
    UInt32.toNat_shiftLeft, UInt32.toNat_shiftRight, hsub, Nat.mod_eq_of_lt h32,
    Nat.mod_eq_of_lt hlt]
  rfl

theorem or_shift {x y n : ℕ} (h : x < 2 ^ n) : x ||| y * 2 ^ n = x + 2 ^ n * y := by
  rw [Nat.or_comm, Nat.mul_comm, ← Nat.two_pow_add_eq_or_of_lt h, Nat.add_comm]

theorem md5Decode_eq (input : List UInt8) (k : ℕ) : md5Decode input k = word input k := by
  have h0 := (input.getD (4 * k) 0).toNat_lt
  have h1 := (input.getD (4 * k + 1) 0).toNat_lt
  have h2 := (input.getD (4 * k + 2) 0).toNat_lt
  have h3 := (input.getD (4 * k + 3) 0).toNat_lt
  apply UInt32.toNat_inj.mp
  simp only [md5Decode, word, UInt32.toNat_or, UInt32.toNat_shiftLeft, UInt8.toNat_toUInt32,
    UInt32.toNat_ofNat, UInt32.toNat_ofNat', Nat.shiftLeft_eq]
  generalize (input.getD (4 * k) 0).toNat = b0 at *
  generalize (input.getD (4 * k + 1) 0).toNat = b1 at *
  generalize (input.getD (4 * k + 2) 0).toNat = b2 at *
  generalize (input.getD (4 * k + 3) 0).toNat = b3 at *
  -- no shift loses a bit, and no two bytes overlap
  rw [Nat.mod_eq_of_lt (a := b1 * 2 ^ 8) (by omega), Nat.mod_eq_of_lt (a := b2 * 2 ^ 16) (by omega),
    Nat.mod_eq_of_lt (a := b3 * 2 ^ 24) (by omega)]
  rw [or_shift (x := b0) (n := 8) (by omega), or_shift (y := b2) (n := 16) (by omega),
    or_shift (n := 24) (by omega), Nat.mod_eq_of_lt (by omega)]

theorem byte_eq (w : UInt32) {s : UInt32} {k : ℕ} (hs : s.toNat % 32 = 8 * k) :
    ((w >>> s) &&& 0xFF).toUInt8 = UInt8.ofNat (w.toNat / 256 ^ k) := by
  have hmask : (0xFF : UInt32).toNat = 2 ^ 8 - 1 := rfl
  apply UInt8.toNat_inj.mp
  rw [UInt32.toNat_toUInt8, UInt32.toNat_and, UInt32.toNat_shiftRight, hs, hmask,
    Nat.and_two_pow_sub_one_eq_mod, Nat.mod_mod, Nat.shiftRight_eq_div_pow, Nat.pow_mul,
    UInt8.toNat_ofNat']

theorem ofNat_congr {m n : ℕ} (h : m % 256 = n % 256) : UInt8.ofNat m = UInt8.ofNat n := by
  apply UInt8.toNat_inj.mp
  rw [UInt8.toNat_ofNat', UInt8.toNat_ofNat']
  exact h

theorem bytes_append {m n : ℕ} (h : m < 2 ^ 32) :
    bytes 4 m ++ bytes 4 n = bytes 8 (m + 2 ^ 32 * n) := by
  have hsplit : List.range 8 = List.range 4 ++ (List.range 4).map (4 + ·) := rfl
  rw [bytes, bytes, bytes, hsplit, List.map_append, List.map_map]
  congr 1
  · apply List.map_congr_left
    intro i hi
    rw [List.mem_range] at hi
    apply ofNat_congr
    interval_cases i <;> omega
  · apply List.map_congr_left
    intro i _
    have hpow : (m + 2 ^ 32 * n) / 256 ^ (4 + i) = n / 256 ^ i := by
      rw [Nat.pow_add, ← Nat.div_div_eq_div_mul]
      congr 1
      omega
    simp only [Function.comp_apply, hpow]

theorem md5Encode_eq (input : List UInt32) :
    md5Encode input = input.flatMap fun w => bytes 4 w.toNat := by
  rw [md5Encode]
  congr 1
  funext w
  have h0 := byte_eq w (s := 0) (k := 0) rfl
  rw [UInt32.shiftRight_zero] at h0
  rw [h0, byte_eq w (k := 1) rfl, byte_eq w (k := 2) rfl, byte_eq w (k := 3) rfl]
  rfl

/-! ## One block -/

def aux : StepKind → Aux
  | .FF => .F
  | .GG => .G
  | .HH => .H
  | .II => .I

theorem mix_eq (kind : StepKind) : kind.mix = (aux kind).eval := by
  cases kind <;> rfl

/-- The line is the `i`-th operation, and its constant has the digits of the `i`-th sine. -/
def Matches (l : Line) (i : ℕ) : Prop :=
  operation i = ⟨aux l.kind, l.a, l.b, l.c, l.d, l.k, l.s.toNat⟩ ∧ 0 < l.s.toNat ∧
    l.s.toNat < 32 ∧ SineTable.Digits 4294967296 (i + 1) l.ac.toNat

instance (l : Line) (i : ℕ) : Decidable (Matches l i) := inferInstanceAs (Decidable (_ ∧ _))

theorem transformLines_matches :
    transformLines.length = 64 ∧ ∀ p ∈ transformLines.zipIdx, Matches p.1 p.2 := by
  decide +kernel

theorem T_eq {t : UInt32} {i : ℕ} (hi : i ≤ 64) (h : SineTable.Digits 4294967296 i t.toNat) :
    Rfc1321.T i = t := by
  rw [Rfc1321.T, SineTable.floor_abs_sin (by decide) hi h, UInt32.ofNat_toNat]

theorem exec_eq {l : Line} {i : ℕ} (hi : i < 64) (h : Matches l i) (x : ℕ → UInt32)
    (r : Registers) : l.exec x r = (operation i).apply x (Rfc1321.T (i + 1)) r := by
  obtain ⟨hop, h0, h32, hdigits⟩ := h
  rw [T_eq hi hdigits, hop, Line.exec, Operation.apply]
  simp only
  rw [rotateLeft_eq h0 h32, mix_eq, UInt32.add_comm (r.get l.b)]
  simp only [UInt32.add_assoc]

theorem foldl_lines (x : ℕ → UInt32) (r : Registers) :
    transformLines.foldl (fun r l => l.exec x r) r =
      (List.range 64).foldl (fun r i => (operation i).apply x (Rfc1321.T (i + 1)) r) r := by
  obtain ⟨hlength, hmatch⟩ := transformLines_matches
  have hlines : transformLines = transformLines.zipIdx.map Prod.fst := by
    rw [List.zipIdx_map_fst]
  have hrange : List.range 64 = transformLines.zipIdx.map Prod.snd := by
    rw [List.zipIdx_map_snd, hlength, List.range_eq_range']
  rw [hrange]
  nth_rewrite 1 [hlines]
  rw [List.foldl_map, List.foldl_map]
  apply List.foldl_ext
  intro r p hp
  have hlt : p.2 < 64 := by
    have hidx := List.snd_lt_of_mem_zipIdx hp
    omega
  exact exec_eq hlt (hmatch p hp) x r

theorem md5Transform_eq : md5Transform = process := by
  funext r block
  have hwords : md5Decode block = word block := by
    funext k
    exact md5Decode_eq block k
  rw [md5Transform, process, hwords, foldl_lines]

/-! ## The context after some bytes -/

structure Absorbed (context : Context) (message : List UInt8) : Prop where
  count : context.count0.toNat + 2 ^ 32 * context.count1.toNat = 8 * message.length % 2 ^ 64
  state : context.state = absorb 64 process Rfc1321.initial message
  buffer : context.buffer.bytes.take (message.length % 64) = tail 64 message

theorem absorbed_md5Init (context : Context) : Absorbed (md5Init context) [] where
  count := rfl
  state := rfl
  buffer := rfl

section Absorbed
variable {context : Context} {message : List UInt8} {input : ℕ → UInt8} {inputlen : UInt32}
  {fuel : ℕ}

theorem bufferIndex_eq (h : Absorbed context message) :
    (bufferIndex context).toNat = message.length % 64 := by
  have hcount := h.count
  have hlt := context.count0.toNat_lt
  have hmask : (0x3F : UInt32).toNat = 2 ^ 6 - 1 := rfl
  rw [bufferIndex, UInt32.toNat_and, hmask, Nat.and_two_pow_sub_one_eq_mod,
    UInt32.toNat_shiftRight, Nat.shiftRight_eq_div_pow]
  change context.count0.toNat / 2 ^ 3 % 2 ^ 6 = message.length % 64
  omega

theorem addCount_eq (context : Context) (inputlen : UInt32) :
    (addCount context inputlen).1.toNat + 2 ^ 32 * (addCount context inputlen).2.toNat =
      (context.count0.toNat + 2 ^ 32 * context.count1.toNat + 8 * inputlen.toNat) % 2 ^ 64 := by
  have h0 := context.count0.toNat_lt
  have h1 := context.count1.toNat_lt
  have hlen := inputlen.toNat_lt
  have hlow : (inputlen <<< 3).toNat = 8 * inputlen.toNat % 2 ^ 32 := by
    rw [UInt32.toNat_shiftLeft, Nat.shiftLeft_eq, Nat.mul_comm]
    rfl
  have hhigh : (inputlen >>> 29).toNat = inputlen.toNat / 2 ^ 29 := by
    rw [UInt32.toNat_shiftRight, Nat.shiftRight_eq_div_pow]
    rfl
  have hone : (1 : UInt32).toNat = 1 := rfl
  simp only [addCount]
  split
  · next hcarry =>
    rw [UInt32.lt_iff_toNat_lt] at hcarry
    simp only [UInt32.toNat_add, hlow, hhigh, hone] at hcarry ⊢
    omega
  · next hcarry =>
    rw [UInt32.lt_iff_toNat_lt] at hcarry
    simp only [UInt32.toNat_add, hlow, hhigh] at hcarry ⊢
    omega

/-- The padding is an update like any other, so that one lemma serves for all of them. -/
theorem absorbed_md5Update (h : Absorbed context message) (hlen : inputlen.toNat < 2 ^ 32 - 64)
    (hfuel : inputlen.toNat / 64 < fuel) :
    ∃ e, md5Update fuel context input inputlen = some e ∧
      Absorbed e.context (message ++ bytesAt input 0 inputlen.toNat) := by
  obtain ⟨e, he, hright⟩ := md5Update_ends context input inputlen fuel (by omega) hfuel
  have hidx := bufferIndex_eq h
  have hbuffered : buffered context = tail 64 message := by
    rw [buffered, hidx, h.buffer]
  refine ⟨e, he, ?_, ?_, ?_⟩
  · have hcount := addCount_eq context inputlen
    rw [← hright.count, h.count] at hcount
    rw [hcount, List.length_append, length_bytesAt]
    omega
  · rw [hright.state, md5Transform_eq, h.state, hbuffered, ← absorb_append (by decide)]
  · have hbuffer := hright.buffer
    rw [hidx, hbuffered, ← tail_append (by decide)] at hbuffer
    rw [← hbuffer, List.length_append, length_bytesAt]
    congr 1
    omega

theorem bytesAt_pointer {l : List UInt8} {n : ℕ} (h : n ≤ l.length) :
    bytesAt (pointer l) 0 n = l.take n := by
  apply List.ext_getElem
  · rw [length_bytesAt, List.length_take]
    omega
  · intro k hk hk'
    rw [length_bytesAt] at hk
    simp only [bytesAt, pointer, Nat.zero_add, List.getElem_map, List.getElem_range,
      List.getElem_take]
    rw [List.getD_eq_getElem?_getD, List.getElem?_eq_getElem (by omega), Option.getD_some]

/-! ## The end of a message -/

theorem toNat_padlen {index : UInt32} (h : index.toNat < 64) :
    (if index < 56 then 56 - index else 120 - index).toNat =
      1 + (119 - index.toNat) % 64 := by
  by_cases hlt : index < 56
  · rw [if_pos hlt, UInt32.toNat_sub_of_le _ _ (UInt32.le_of_lt hlt)]
    rw [UInt32.lt_iff_toNat_lt] at hlt
    change index.toNat < 56 at hlt
    change 56 - index.toNat = 1 + (119 - index.toNat) % 64
    omega
  · rw [UInt32.lt_iff_toNat_lt] at hlt
    change ¬ index.toNat < 56 at hlt
    have hle : index ≤ 120 := by
      rw [UInt32.le_iff_toNat_le]
      change index.toNat ≤ 120
      omega
    rw [if_neg (by rw [UInt32.lt_iff_toNat_lt]; exact hlt), UInt32.toNat_sub_of_le _ _ hle]
    change 120 - index.toNat = 1 + (119 - index.toNat) % 64
    omega

theorem take_padding {n : ℕ} (h : n < 64) :
    padding.take (1 + n) = 0x80 :: List.replicate n 0 := by
  rw [padding, Nat.add_comm, List.take_succ_cons, List.take_replicate, Nat.min_eq_left (by omega)]

theorem md5Encode_count (h : Absorbed context message) :
    md5Encode [context.count0, context.count1] = bytes 8 (8 * message.length % 2 ^ 64) := by
  have h0 := context.count0.toNat_lt
  have h1 := context.count1.toNat_lt
  rw [md5Encode_eq, ← h.count, ← bytes_append h0]
  simp only [List.flatMap_cons, List.flatMap_nil, List.append_nil]

theorem md5Final_eq (h : Absorbed context message) (hfuel : 1 < fuel) :
    md5Final fuel context = some (Rfc1321.md5 message) := by
  have hidx := bufferIndex_eq h
  have hpad := toNat_padlen (bufferIndex_lt context)
  rw [hidx] at hpad
  have hmod : (119 - message.length % 64) % 64 < 64 := Nat.mod_lt _ (by decide)
  -- the padding, then the eight bytes of the length
  obtain ⟨e, he, hpadded⟩ := @absorbed_md5Update context message (pointer padding)
    (if bufferIndex context < 56 then 56 - bufferIndex context else 120 - bufferIndex context)
    fuel h (by omega) (by omega)
  rw [hpad, bytesAt_pointer (by rw [padding, List.length_cons, List.length_replicate]; omega),
    take_padding hmod] at hpadded
  obtain ⟨e', he', hend⟩ := @absorbed_md5Update e.context _
    (pointer (md5Encode [context.count0, context.count1])) 8 fuel hpadded (by decide)
    (by change 8 / 64 < fuel; omega)
  have hbits : bytesAt (pointer (md5Encode [context.count0, context.count1])) 0
      (8 : UInt32).toNat = bytes 8 (8 * message.length % 2 ^ 64) := by
    rw [md5Encode_count h]
    change bytesAt (pointer (bytes 8 (8 * message.length % 2 ^ 64))) 0 8 = _
    rw [bytesAt_pointer (by simp [bytes]), List.take_of_length_le (by simp [bytes])]
  rw [hbits] at hend
  simp only [md5Final, he, he', Option.bind_eq_bind, Option.bind_some, Option.pure_def]
  rw [md5Encode_eq, hend.state]
  rfl

end Absorbed

/-! ## Any number of updates -/

def md5Updates (fuel : ℕ) : Context → List (List UInt8) → Option Context
  | context, [] => some context
  | context, p :: pieces => do
    let e ← md5Update fuel context (pointer p) (UInt32.ofNat p.length)
    md5Updates fuel e.context pieces

/-- `MD5Init`, the updates and `MD5Final`, in a context with any contents. -/
def digest (fuel : ℕ) (context : Context) (pieces : List (List UInt8)) : Option (List UInt8) := do
  let context ← md5Updates fuel (md5Init context) pieces
  md5Final fuel context

theorem absorbed_md5Updates {fuel : ℕ} (pieces : List (List UInt8))
    (hlen : ∀ p ∈ pieces, p.length < 2 ^ 31) (hfuel : 2 ^ 25 ≤ fuel) (context : Context)
    (message : List UInt8) (h : Absorbed context message) :
    ∃ context', md5Updates fuel context pieces = some context' ∧
      Absorbed context' (message ++ pieces.flatten) := by
  induction pieces generalizing context message with
  | nil => exact ⟨context, rfl, by simpa using h⟩
  | cons p pieces ih =>
    obtain ⟨hp, hpieces⟩ := List.forall_mem_cons.mp hlen
    have hn : (UInt32.ofNat p.length).toNat = p.length := UInt32.toNat_ofNat_of_lt' (by
      change p.length < 2 ^ 32
      omega)
    obtain ⟨e, he, habs⟩ := @absorbed_md5Update context message (pointer p) (UInt32.ofNat p.length)
      fuel h (by omega) (by omega)
    rw [hn, bytesAt_pointer le_rfl, List.take_length] at habs
    obtain ⟨context', hrun, hend⟩ := ih hpieces e.context (message ++ p) habs
    refine ⟨context', ?_, ?_⟩
    · simp only [md5Updates, he, Option.bind_eq_bind, Option.bind_some, hrun]
    · rwa [List.flatten_cons, ← List.append_assoc]

theorem digest_eq {fuel : ℕ} (context : Context) (pieces : List (List UInt8))
    (hlen : ∀ p ∈ pieces, p.length < 2 ^ 31) (hfuel : 2 ^ 25 ≤ fuel) :
    digest fuel context pieces = some (Rfc1321.md5 pieces.flatten) := by
  obtain ⟨context', hrun, habs⟩ := absorbed_md5Updates pieces hlen hfuel (md5Init context) []
    (absorbed_md5Init context)
  rw [digest, hrun]
  exact md5Final_eq habs (by omega)

/-- The digest of the concatenation, however the message is split into updates. -/
theorem md5_pieces (context : Context) (pieces : List (List UInt8))
    (hlen : ∀ p ∈ pieces, p.length < 2 ^ 31) :
    ∃ fuel₀, ∀ fuel, fuel₀ ≤ fuel →
      digest fuel context pieces = some (Rfc1321.md5 pieces.flatten) :=
  ⟨2 ^ 25, fun _ hfuel => digest_eq context pieces hlen hfuel⟩

/-- The digest of `abc` in two pieces. -/
theorem md5_pieces_abc :
    (∀ p ∈ ([[97], [98, 99]] : List (List UInt8)), p.length < 2 ^ 31) ∧
      ∃ fuel₀, ∀ fuel, fuel₀ ≤ fuel →
      digest fuel ⟨0, 0, ⟨0, 0, 0, 0⟩, Buffer.zeroed 64⟩ [[97], [98, 99]] =
        some (Rfc1321.md5 [97, 98, 99]) := by
  have hlen : ∀ p ∈ ([[97], [98, 99]] : List (List UInt8)), p.length < 2 ^ 31 := by decide
  exact ⟨hlen, md5_pieces _ [[97], [98, 99]] hlen⟩

/-- The digest of `abc` from the test suite of the RFC. -/
example : digest 2 ⟨0, 0, ⟨0, 0, 0, 0⟩, Buffer.zeroed 64⟩ [[97], [98, 99]] =
    some [0x90, 0x01, 0x50, 0x98, 0x3c, 0xd2, 0x4f, 0xb0, 0xd6, 0x96, 0x3f, 0x7d, 0x28, 0xe1, 0x7f,
      0x72] := by
  decide +kernel

end Md5Digests
