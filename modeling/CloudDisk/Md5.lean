import CloudDisk.ByteBuffers
import CloudDisk.Rfc1321

/-! # `md5.c`

A context holds the number of bits so far in two words, the four words of the state, and a
buffer for the bytes that do not fill a block yet. `MD5Update` computes with 32-bit unsigned
integers, and with them it compares `i + 64` with the length of the input; its block loop is
run with fuel, and each access to the input is recorded. -/
namespace Md5

open ByteBuffers CheckedCode Rfc1321

structure Context where
  count0 : UInt32
  count1 : UInt32
  state : Registers
  buffer : Buffer 64

/-- `PADDING`. -/
def padding : List UInt8 := 0x80 :: List.replicate 63 0

def md5Init (context : Context) : Context :=
  { context with
    count0 := 0
    count1 := 0
    state := ⟨0x67452301, 0xEFCDAB89, 0x98BADCFE, 0x10325476⟩ }

/-! ## One block -/

def rotateLeft (x n : UInt32) : UInt32 := (x <<< n) ||| (x >>> (32 - n))

inductive StepKind where
  | FF
  | GG
  | HH
  | II
  deriving DecidableEq

/-- The function `F`, `G`, `H` or `I` that the step is made with. -/
def StepKind.mix : StepKind → UInt32 → UInt32 → UInt32 → UInt32
  | .FF, x, y, z => (x &&& y) ||| (~~~ x &&& z)
  | .GG, x, y, z => (x &&& z) ||| (y &&& ~~~ z)
  | .HH, x, y, z => x ^^^ y ^^^ z
  | .II, x, y, z => y ^^^ (x ||| ~~~ z)

/-- A line `FF(a, b, c, d, x[k], s, ac);` of `MD5Transform`. -/
structure Line where
  kind : StepKind
  a : Reg
  b : Reg
  c : Reg
  d : Reg
  k : ℕ
  s : UInt32
  ac : UInt32

def Line.exec (l : Line) (x : ℕ → UInt32) (r : Registers) : Registers :=
  let a := r.get l.a + (l.kind.mix (r.get l.b) (r.get l.c) (r.get l.d) + x l.k + l.ac)
  let a := rotateLeft a l.s
  let a := a + r.get l.b
  r.set a l.a

/-- The lines of `MD5Transform` in their order. -/
def transformLines : List Line :=
  [
    ⟨.FF, .A, .B, .C, .D, 0, 7, 0xd76aa478⟩,
    ⟨.FF, .D, .A, .B, .C, 1, 12, 0xe8c7b756⟩,
    ⟨.FF, .C, .D, .A, .B, 2, 17, 0x242070db⟩,
    ⟨.FF, .B, .C, .D, .A, 3, 22, 0xc1bdceee⟩,
    ⟨.FF, .A, .B, .C, .D, 4, 7, 0xf57c0faf⟩,
    ⟨.FF, .D, .A, .B, .C, 5, 12, 0x4787c62a⟩,
    ⟨.FF, .C, .D, .A, .B, 6, 17, 0xa8304613⟩,
    ⟨.FF, .B, .C, .D, .A, 7, 22, 0xfd469501⟩,
    ⟨.FF, .A, .B, .C, .D, 8, 7, 0x698098d8⟩,
    ⟨.FF, .D, .A, .B, .C, 9, 12, 0x8b44f7af⟩,
    ⟨.FF, .C, .D, .A, .B, 10, 17, 0xffff5bb1⟩,
    ⟨.FF, .B, .C, .D, .A, 11, 22, 0x895cd7be⟩,
    ⟨.FF, .A, .B, .C, .D, 12, 7, 0x6b901122⟩,
    ⟨.FF, .D, .A, .B, .C, 13, 12, 0xfd987193⟩,
    ⟨.FF, .C, .D, .A, .B, 14, 17, 0xa679438e⟩,
    ⟨.FF, .B, .C, .D, .A, 15, 22, 0x49b40821⟩,
    ⟨.GG, .A, .B, .C, .D, 1, 5, 0xf61e2562⟩,
    ⟨.GG, .D, .A, .B, .C, 6, 9, 0xc040b340⟩,
    ⟨.GG, .C, .D, .A, .B, 11, 14, 0x265e5a51⟩,
    ⟨.GG, .B, .C, .D, .A, 0, 20, 0xe9b6c7aa⟩,
    ⟨.GG, .A, .B, .C, .D, 5, 5, 0xd62f105d⟩,
    ⟨.GG, .D, .A, .B, .C, 10, 9, 0x2441453⟩,
    ⟨.GG, .C, .D, .A, .B, 15, 14, 0xd8a1e681⟩,
    ⟨.GG, .B, .C, .D, .A, 4, 20, 0xe7d3fbc8⟩,
    ⟨.GG, .A, .B, .C, .D, 9, 5, 0x21e1cde6⟩,
    ⟨.GG, .D, .A, .B, .C, 14, 9, 0xc33707d6⟩,
    ⟨.GG, .C, .D, .A, .B, 3, 14, 0xf4d50d87⟩,
    ⟨.GG, .B, .C, .D, .A, 8, 20, 0x455a14ed⟩,
    ⟨.GG, .A, .B, .C, .D, 13, 5, 0xa9e3e905⟩,
    ⟨.GG, .D, .A, .B, .C, 2, 9, 0xfcefa3f8⟩,
    ⟨.GG, .C, .D, .A, .B, 7, 14, 0x676f02d9⟩,
    ⟨.GG, .B, .C, .D, .A, 12, 20, 0x8d2a4c8a⟩,
    ⟨.HH, .A, .B, .C, .D, 5, 4, 0xfffa3942⟩,
    ⟨.HH, .D, .A, .B, .C, 8, 11, 0x8771f681⟩,
    ⟨.HH, .C, .D, .A, .B, 11, 16, 0x6d9d6122⟩,
    ⟨.HH, .B, .C, .D, .A, 14, 23, 0xfde5380c⟩,
    ⟨.HH, .A, .B, .C, .D, 1, 4, 0xa4beea44⟩,
    ⟨.HH, .D, .A, .B, .C, 4, 11, 0x4bdecfa9⟩,
    ⟨.HH, .C, .D, .A, .B, 7, 16, 0xf6bb4b60⟩,
    ⟨.HH, .B, .C, .D, .A, 10, 23, 0xbebfbc70⟩,
    ⟨.HH, .A, .B, .C, .D, 13, 4, 0x289b7ec6⟩,
    ⟨.HH, .D, .A, .B, .C, 0, 11, 0xeaa127fa⟩,
    ⟨.HH, .C, .D, .A, .B, 3, 16, 0xd4ef3085⟩,
    ⟨.HH, .B, .C, .D, .A, 6, 23, 0x4881d05⟩,
    ⟨.HH, .A, .B, .C, .D, 9, 4, 0xd9d4d039⟩,
    ⟨.HH, .D, .A, .B, .C, 12, 11, 0xe6db99e5⟩,
    ⟨.HH, .C, .D, .A, .B, 15, 16, 0x1fa27cf8⟩,
    ⟨.HH, .B, .C, .D, .A, 2, 23, 0xc4ac5665⟩,
    ⟨.II, .A, .B, .C, .D, 0, 6, 0xf4292244⟩,
    ⟨.II, .D, .A, .B, .C, 7, 10, 0x432aff97⟩,
    ⟨.II, .C, .D, .A, .B, 14, 15, 0xab9423a7⟩,
    ⟨.II, .B, .C, .D, .A, 5, 21, 0xfc93a039⟩,
    ⟨.II, .A, .B, .C, .D, 12, 6, 0x655b59c3⟩,
    ⟨.II, .D, .A, .B, .C, 3, 10, 0x8f0ccc92⟩,
    ⟨.II, .C, .D, .A, .B, 10, 15, 0xffeff47d⟩,
    ⟨.II, .B, .C, .D, .A, 1, 21, 0x85845dd1⟩,
    ⟨.II, .A, .B, .C, .D, 8, 6, 0x6fa87e4f⟩,
    ⟨.II, .D, .A, .B, .C, 15, 10, 0xfe2ce6e0⟩,
    ⟨.II, .C, .D, .A, .B, 6, 15, 0xa3014314⟩,
    ⟨.II, .B, .C, .D, .A, 13, 21, 0x4e0811a1⟩,
    ⟨.II, .A, .B, .C, .D, 4, 6, 0xf7537e82⟩,
    ⟨.II, .D, .A, .B, .C, 11, 10, 0xbd3af235⟩,
    ⟨.II, .C, .D, .A, .B, 2, 15, 0x2ad7d2bb⟩,
    ⟨.II, .B, .C, .D, .A, 9, 21, 0xeb86d391⟩]

/-- The word `output[i]`. -/
def md5Decode (input : List UInt8) (i : ℕ) : UInt32 :=
  let byte := fun j => (input.getD j 0).toUInt32
  byte (4 * i) ||| (byte (4 * i + 1) <<< 8) ||| (byte (4 * i + 2) <<< 16) |||
    (byte (4 * i + 3) <<< 24)

def md5Encode (input : List UInt32) : List UInt8 :=
  input.flatMap fun w : UInt32 => [(w &&& 0xFF).toUInt8, ((w >>> (8 : UInt32)) &&& 0xFF).toUInt8,
    ((w >>> (16 : UInt32)) &&& 0xFF).toUInt8, ((w >>> (24 : UInt32)) &&& 0xFF).toUInt8]

def md5Transform (state : Registers) (block : List UInt8) : Registers :=
  state.add (transformLines.foldl (fun r l => l.exec (md5Decode block) r) state)

/-! ## Updates -/

/-- The bytes `input[start]` to `input[start + length - 1]`. -/
structure Access where
  start : ℕ
  length : ℕ
  deriving DecidableEq

def bytesAt (input : ℕ → UInt8) (start length : ℕ) : List UInt8 :=
  (List.range length).map fun k => input (start + k)

structure LoopEnd where
  i : UInt32
  state : Registers
  accesses : List Access

/-- `for (i = partlen; i + 64 <= inputlen; i += 64)`, from some `i` on. -/
def blockLoop (input : ℕ → UInt8) (inputlen : UInt32) :
    ℕ → UInt32 → Registers → Option LoopEnd
  | 0, _, _ => none
  | fuel + 1, i, state =>
    if i + 64 ≤ inputlen then
      (blockLoop input inputlen fuel (i + 64)
        (md5Transform state (bytesAt input i.toNat 64))).map fun e =>
          { e with accesses := ⟨i.toNat, 64⟩ :: e.accesses }
    else some ⟨i, state, []⟩

structure UpdateEnd where
  context : Context
  accesses : List Access

def bufferIndex (context : Context) : UInt32 := (context.count0 >>> 3) &&& 0x3F

/-- The two words of the bit count after `inputlen` more bytes. -/
def addCount (context : Context) (inputlen : UInt32) : UInt32 × UInt32 :=
  let count0 := context.count0 + (inputlen <<< 3)
  let count1 := if count0 < inputlen <<< 3 then context.count1 + 1 else context.count1
  (count0, count1 + (inputlen >>> 29))

/-- `memcpy(&context->buffer[index], input, partlen)`. -/
def fillBuffer (context : Context) (input : ℕ → UInt8) : Buffer 64 :=
  context.buffer.overlay (bufferIndex context).toNat
    (bytesAt input 0 (64 - bufferIndex context).toNat)

/-- The last `memcpy` after the block loop. -/
def afterBlocks (context : Context) (input : ℕ → UInt8) (inputlen : UInt32) (e : LoopEnd) :
    UpdateEnd :=
  let count := addCount context inputlen
  let rest := (inputlen - e.i).toNat
  { context := ⟨count.1, count.2, e.state,
      (fillBuffer context input).overlay 0 (bytesAt input e.i.toNat rest)⟩
    accesses := ⟨0, (64 - bufferIndex context).toNat⟩ :: e.accesses ++ [⟨e.i.toNat, rest⟩] }

/-- The last `memcpy` when no block is complete. -/
def withoutBlock (context : Context) (input : ℕ → UInt8) (inputlen : UInt32) : UpdateEnd :=
  let count := addCount context inputlen
  { context := ⟨count.1, count.2, context.state,
      context.buffer.overlay (bufferIndex context).toNat (bytesAt input 0 inputlen.toNat)⟩
    accesses := [⟨0, inputlen.toNat⟩] }

def md5Update (fuel : ℕ) (context : Context) (input : ℕ → UInt8) (inputlen : UInt32) :
    Option UpdateEnd :=
  let partlen := 64 - bufferIndex context
  if partlen ≤ inputlen then
    (blockLoop input inputlen fuel partlen
      (md5Transform context.state (fillBuffer context input).bytes)).map
        (afterBlocks context input inputlen)
  else some (withoutBlock context input inputlen)

/-- The memory behind a pointer to the first byte. -/
def pointer (bytes : List UInt8) (k : ℕ) : UInt8 := bytes.getD k 0

def md5Final (fuel : ℕ) (context : Context) : Option (List UInt8) := do
  let index := bufferIndex context
  let padlen := if index < 56 then 56 - index else 120 - index
  let bits := md5Encode [context.count0, context.count1]
  let e ← md5Update fuel context (pointer padding) padlen
  let e ← md5Update fuel e.context (pointer bits) 8
  return md5Encode e.context.state.words

/-! ## The block loop -/

@[simp] theorem length_bytesAt (input : ℕ → UInt8) (start length : ℕ) :
    (bytesAt input start length).length = length := by
  simp [bytesAt]

theorem bytesAt_add (input : ℕ → UInt8) (start m n : ℕ) :
    bytesAt input start (m + n) = bytesAt input start m ++ bytesAt input (start + m) n := by
  simp [bytesAt, List.range_add, Nat.add_assoc]

theorem toNat_add_64 (i : UInt32) : (i + 64).toNat = (i.toNat + 64) % 2 ^ 32 :=
  UInt32.toNat_add i 64

section Loop
variable {input : ℕ → UInt8} {inputlen i : UInt32} {state : Registers} {fuel : ℕ}

/-- The loop started at `i` has taken the whole blocks from there on, all inside the input. -/
structure Passed (input : ℕ → UInt8) (inputlen i : UInt32) (state : Registers) (e : LoopEnd) :
    Prop where
  index : e.i.toNat = i.toNat + 64 * ((inputlen.toNat - i.toNat) / 64)
  state : e.state = BlockStreams.absorb 64 md5Transform state
    (bytesAt input i.toNat (inputlen.toNat - i.toNat))
  inside : ∀ a ∈ e.accesses, a.length = 64 ∧ a.start + 64 ≤ inputlen.toNat

theorem passed_none (h : inputlen.toNat < i.toNat + 64) :
    Passed input inputlen i state ⟨i, state, []⟩ := by
  have hdiv : (inputlen.toNat - i.toNat) / 64 = 0 := Nat.div_eq_of_lt (by omega)
  constructor
  · rw [hdiv]
    rfl
  · rw [BlockStreams.absorb_short]
    rw [length_bytesAt]
    omega
  · intro a ha
    cases ha

theorem passed_block {e : LoopEnd} (hnext : (i + 64).toNat = i.toNat + 64)
    (hlast : i.toNat + 64 ≤ inputlen.toNat)
    (h : Passed input inputlen (i + 64) (md5Transform state (bytesAt input i.toNat 64)) e) :
    Passed input inputlen i state { e with accesses := ⟨i.toNat, 64⟩ :: e.accesses } := by
  constructor
  · rw [h.index, hnext]
    omega
  · have hsplit : bytesAt input i.toNat (inputlen.toNat - i.toNat) =
        bytesAt input i.toNat 64 ++ bytesAt input (i.toNat + 64)
          (inputlen.toNat - (i.toNat + 64)) := by
      rw [← bytesAt_add]
      congr 1
      omega
    rw [h.state, hnext, hsplit, BlockStreams.absorb_block_append (by omega) (length_bytesAt _ _ _)]
  · rintro a (_ | ⟨_, ha⟩)
    · exact ⟨rfl, hlast⟩
    · exact h.inside a ha

/-- The place of `i` in its block never changes, so that the last `i` below `2 ^ 32` is known. If
the input does not reach that far, the loop ends behind the last whole block. -/
theorem blockLoop_ends (hle : i.toNat ≤ inputlen.toNat)
    (htop : inputlen.toNat < 2 ^ 32 - 64 + i.toNat % 64)
    (hfuel : (inputlen.toNat - i.toNat) / 64 < fuel) :
    ∃ e, blockLoop input inputlen fuel i state = some e ∧ Passed input inputlen i state e := by
  induction fuel generalizing i state with
  | zero => omega
  | succ fuel ih =>
    have hnext := toNat_add_64 i
    by_cases hlast : i.toNat + 64 ≤ inputlen.toNat
    · have hlt : inputlen.toNat < 2 ^ 32 := inputlen.toNat_lt
      rw [Nat.mod_eq_of_lt (by omega)] at hnext
      have htest : i + 64 ≤ inputlen := by
        rw [UInt32.le_iff_toNat_le, hnext]
        exact hlast
      obtain ⟨e, he, hpassed⟩ := @ih (i + 64)
        (md5Transform state (bytesAt input i.toNat 64)) (by omega) (by omega) (by omega)
      refine ⟨_, ?_, passed_block hnext hlast hpassed⟩
      rw [blockLoop, if_pos htest, he]
      rfl
    · have htest : ¬ i + 64 ≤ inputlen := by
        rw [UInt32.le_iff_toNat_le, hnext, Nat.mod_eq_of_lt (by omega)]
        exact hlast
      refine ⟨⟨i, state, []⟩, ?_, passed_none (by omega)⟩
      rw [blockLoop, if_neg htest]

/-- An input that reaches the last `i` makes `i + 64` start again from the bottom. -/
theorem blockLoop_diverges (htop : 2 ^ 32 - 64 + i.toNat % 64 ≤ inputlen.toNat) :
    blockLoop input inputlen fuel i state = none := by
  induction fuel generalizing i state with
  | zero => rfl
  | succ fuel ih =>
    have hnext := toNat_add_64 i
    have hlt := i.toNat_lt
    have htest : i + 64 ≤ inputlen := by
      rw [UInt32.le_iff_toNat_le, hnext]
      omega
    rw [blockLoop, if_pos htest, ih (by omega)]
    rfl

theorem blockLoop_mono {e : LoopEnd} {fuel' : ℕ} (hle : fuel ≤ fuel')
    (h : blockLoop input inputlen fuel i state = some e) :
    blockLoop input inputlen fuel' i state = some e := by
  induction fuel generalizing i state e fuel' with
  | zero => cases h
  | succ fuel ih =>
    obtain ⟨fuel', rfl⟩ : ∃ k, fuel' = k + 1 := ⟨fuel' - 1, by omega⟩
    rw [blockLoop] at h ⊢
    by_cases htest : i + 64 ≤ inputlen
    · rw [if_pos htest] at h ⊢
      obtain ⟨e', he', rfl⟩ := Option.map_eq_some_iff.mp h
      rw [ih (by omega) he']
      rfl
    · rwa [if_neg htest] at h ⊢

end Loop

/-! ## Where an update ends -/

theorem tail_bytesAt (input : ℕ → UInt8) (start n : ℕ) :
    BlockStreams.tail 64 (bytesAt input start n) =
      bytesAt input (start + 64 * (n / 64)) (n % 64) := by
  have hsplit : bytesAt input start n =
      bytesAt input start (64 * (n / 64)) ++ bytesAt input (start + 64 * (n / 64)) (n % 64) := by
    rw [← bytesAt_add]
    congr 1
    omega
  rw [BlockStreams.tail, length_bytesAt, hsplit, List.drop_left' (length_bytesAt _ _ _)]

section Update
variable {context : Context} {input : ℕ → UInt8} {inputlen : UInt32} {fuel : ℕ}

theorem bufferIndex_lt (context : Context) : (bufferIndex context).toNat < 64 := by
  rw [bufferIndex, UInt32.toNat_and]
  exact Nat.and_lt_two_pow (n := 6) _ (by decide)

theorem toNat_partlen (context : Context) :
    (64 - bufferIndex context).toNat = 64 - (bufferIndex context).toNat := by
  have hlt := bufferIndex_lt context
  rw [UInt32.toNat_sub_of_le]
  · rfl
  · rw [UInt32.le_iff_toNat_le]
    exact hlt.le

def buffered (context : Context) : List UInt8 :=
  context.buffer.bytes.take (bufferIndex context).toNat

theorem length_buffered (context : Context) :
    (buffered context).length = (bufferIndex context).toNat := by
  have hlt := bufferIndex_lt context
  rw [buffered, List.length_take, context.buffer.length_eq]
  omega

theorem fillBuffer_bytes (context : Context) (input : ℕ → UInt8) :
    (fillBuffer context input).bytes =
      buffered context ++ bytesAt input 0 (64 - (bufferIndex context).toNat) := by
  have hlt := bufferIndex_lt context
  rw [fillBuffer, toNat_partlen, Buffer.bytes_overlay (by rw [length_bytesAt]; omega),
    length_bytesAt, List.drop_of_length_le (by rw [context.buffer.length_eq]; omega),
    List.append_nil]
  rfl

theorem buffered_append (h : 64 - (bufferIndex context).toNat ≤ inputlen.toNat) :
    buffered context ++ bytesAt input 0 inputlen.toNat =
      (fillBuffer context input).bytes ++ bytesAt input (64 - (bufferIndex context).toNat)
        (inputlen.toNat - (64 - (bufferIndex context).toNat)) := by
  have hadd := bytesAt_add input 0 (64 - (bufferIndex context).toNat)
    (inputlen.toNat - (64 - (bufferIndex context).toNat))
  rw [Nat.zero_add, Nat.add_sub_cancel' h] at hadd
  rw [fillBuffer_bytes, hadd, List.append_assoc]

structure Updated (context : Context) (input : ℕ → UInt8) (inputlen : UInt32) (e : UpdateEnd) :
    Prop where
  count : (e.context.count0, e.context.count1) = addCount context inputlen
  state : e.context.state = BlockStreams.absorb 64 md5Transform context.state
    (buffered context ++ bytesAt input 0 inputlen.toNat)
  buffer : e.context.buffer.bytes.take (((bufferIndex context).toNat + inputlen.toNat) % 64) =
    BlockStreams.tail 64 (buffered context ++ bytesAt input 0 inputlen.toNat)
  inside : ∀ a ∈ e.accesses, a.start + a.length ≤ inputlen.toNat
  started : (∀ a ∈ e.accesses, a.start < inputlen.toNat) ↔
    inputlen.toNat ≠ 0 ∧ ((bufferIndex context).toNat + inputlen.toNat) % 64 ≠ 0

theorem updated_withoutBlock (h : inputlen.toNat < 64 - (bufferIndex context).toNat) :
    Updated context input inputlen (withoutBlock context input inputlen) := by
  have hlen : (buffered context ++ bytesAt input 0 inputlen.toNat).length =
      (bufferIndex context).toNat + inputlen.toNat := by
    rw [List.length_append, length_buffered, length_bytesAt]
  constructor
  · rfl
  · rw [BlockStreams.absorb_short (by omega)]
    rfl
  · have htake := Buffer.take_overlay context.buffer (bufferIndex context).toNat
      (bytesAt input 0 inputlen.toNat) (by rw [length_bytesAt]; omega)
    rw [length_bytesAt] at htake
    rw [BlockStreams.tail_short (by omega), Nat.mod_eq_of_lt (by omega)]
    exact htake
  · intro a ha
    rw [List.mem_singleton.mp ha]
    exact (Nat.zero_add _).le
  · simp only [withoutBlock, List.mem_singleton, forall_eq]
    omega

section Blocks
variable {e : LoopEnd} (h : 64 - (bufferIndex context).toNat ≤ inputlen.toNat)
  (hpassed : Passed input inputlen (64 - bufferIndex context)
    (md5Transform context.state (fillBuffer context input).bytes) e)
include h hpassed

theorem toNat_rest :
    e.i.toNat + (inputlen - e.i).toNat = inputlen.toNat ∧
      ((bufferIndex context).toNat + inputlen.toNat) % 64 = (inputlen - e.i).toNat := by
  have hidx := bufferIndex_lt context
  have hindex := hpassed.index
  rw [toNat_partlen] at hindex
  have hle : e.i ≤ inputlen := by
    rw [UInt32.le_iff_toNat_le]
    omega
  have hrest : (inputlen - e.i).toNat = inputlen.toNat - e.i.toNat := UInt32.toNat_sub_of_le _ _ hle
  omega

theorem buffer_afterBlocks :
    (afterBlocks context input inputlen e).context.buffer.bytes.take
        (((bufferIndex context).toNat + inputlen.toNat) % 64) =
      BlockStreams.tail 64 (buffered context ++ bytesAt input 0 inputlen.toNat) := by
  obtain ⟨hend, hmod⟩ := toNat_rest h hpassed
  have hidx := bufferIndex_lt context
  have hindex := hpassed.index
  rw [toNat_partlen] at hindex
  have htake := Buffer.take_overlay (fillBuffer context input) 0
    (bytesAt input e.i.toNat (inputlen - e.i).toNat) (by rw [length_bytesAt]; omega)
  rw [length_bytesAt, List.take_zero, List.nil_append, Nat.zero_add] at htake
  have hmod' : (inputlen.toNat - (64 - (bufferIndex context).toNat)) % 64 =
      (inputlen - e.i).toNat := by
    omega
  rw [buffered_append h, BlockStreams.tail_block_append (by omega) (Buffer.length_eq _),
    tail_bytesAt, ← hindex, hmod, hmod']
  exact htake

theorem inside_afterBlocks :
    ∀ a ∈ (afterBlocks context input inputlen e).accesses,
      a.start + a.length ≤ inputlen.toNat := by
  obtain ⟨hend, -⟩ := toNat_rest h hpassed
  have hpart := toNat_partlen context
  intro a ha
  rcases List.mem_append.mp ha with ha | ha
  · rcases List.mem_cons.mp ha with rfl | ha
    · show 0 + (64 - bufferIndex context).toNat ≤ inputlen.toNat
      omega
    · have hinside := hpassed.inside a ha
      omega
  · rw [List.mem_singleton.mp ha]
    exact hend.le

theorem started_afterBlocks :
    (∀ a ∈ (afterBlocks context input inputlen e).accesses, a.start < inputlen.toNat) ↔
      inputlen.toNat ≠ 0 ∧ ((bufferIndex context).toNat + inputlen.toNat) % 64 ≠ 0 := by
  obtain ⟨hend, hmod⟩ := toNat_rest h hpassed
  have hblocks : ∀ a ∈ e.accesses, a.start < inputlen.toNat := fun a ha => by
    have hinside := hpassed.inside a ha
    omega
  have hall : (∀ a ∈ (afterBlocks context input inputlen e).accesses, a.start < inputlen.toNat) ↔
      0 < inputlen.toNat ∧ e.i.toNat < inputlen.toNat := by
    simp only [afterBlocks, List.cons_append, List.forall_mem_cons, List.forall_mem_append,
      List.mem_singleton, forall_eq]
    constructor
    · rintro ⟨h0, -, hlast⟩
      exact ⟨h0, hlast⟩
    · rintro ⟨h0, hlast⟩
      exact ⟨h0, hblocks, hlast⟩
  rw [hall]
  omega

theorem updated_afterBlocks :
    Updated context input inputlen (afterBlocks context input inputlen e) := by
  refine ⟨rfl, ?_, buffer_afterBlocks h hpassed, inside_afterBlocks h hpassed,
    started_afterBlocks h hpassed⟩
  rw [buffered_append h, BlockStreams.absorb_block_append (by omega) (Buffer.length_eq _),
    ← toNat_partlen]
  exact hpassed.state

end Blocks

theorem md5Update_ends (context : Context) (input : ℕ → UInt8) (inputlen : UInt32) (fuel : ℕ)
    (htop : inputlen.toNat < 2 ^ 32 - 64 + (64 - (bufferIndex context).toNat) % 64)
    (hfuel : inputlen.toNat / 64 < fuel) :
    ∃ e, md5Update fuel context input inputlen = some e ∧ Updated context input inputlen e := by
  have hpart := toNat_partlen context
  by_cases h : 64 - (bufferIndex context).toNat ≤ inputlen.toNat
  · obtain ⟨e, he, hpassed⟩ := @blockLoop_ends input inputlen (64 - bufferIndex context)
      (md5Transform context.state (fillBuffer context input).bytes) fuel
      (by omega) (by omega) (by omega)
    refine ⟨afterBlocks context input inputlen e, ?_, updated_afterBlocks h hpassed⟩
    rw [md5Update, if_pos (by rwa [UInt32.le_iff_toNat_le, hpart]), he]
    rfl
  · refine ⟨withoutBlock context input inputlen, ?_, updated_withoutBlock (by omega)⟩
    rw [md5Update, if_neg (by rwa [UInt32.le_iff_toNat_le, hpart])]

theorem md5Update_diverges (context : Context) (input : ℕ → UInt8) (inputlen : UInt32) (fuel : ℕ)
    (htop : 2 ^ 32 - 64 + (64 - (bufferIndex context).toNat) % 64 ≤ inputlen.toNat) :
    md5Update fuel context input inputlen = none := by
  have hpart := toNat_partlen context
  have hle : 64 - bufferIndex context ≤ inputlen := by
    rw [UInt32.le_iff_toNat_le, hpart]
    omega
  rw [md5Update, if_pos hle, blockLoop_diverges (by rw [hpart]; exact htop)]
  rfl

theorem md5Update_mono {e : UpdateEnd} {fuel' : ℕ} (hle : fuel ≤ fuel')
    (h : md5Update fuel context input inputlen = some e) :
    md5Update fuel' context input inputlen = some e := by
  rw [md5Update] at h ⊢
  by_cases htest : 64 - bufferIndex context ≤ inputlen
  · rw [if_pos htest] at h ⊢
    obtain ⟨l, hl, rfl⟩ := Option.map_eq_some_iff.mp h
    rw [blockLoop_mono hle hl]
    rfl
  · rwa [if_neg htest] at h ⊢

theorem updated_of_ends {e : UpdateEnd}
    (htop : inputlen.toNat < 2 ^ 32 - 64 + (64 - (bufferIndex context).toNat) % 64)
    (h : md5Update fuel context input inputlen = some e) : Updated context input inputlen e := by
  obtain ⟨e', he', hright⟩ := md5Update_ends context input inputlen
    (fuel + inputlen.toNat / 64 + 1) htop (by omega)
  have hsame : md5Update (fuel + inputlen.toNat / 64 + 1) context input inputlen = some e :=
    md5Update_mono (by omega) h
  rw [hsame] at he'
  rwa [Option.some.inj he']

/-- When the block loop ends with every byte it took inside the input; and when every pointer it
passed on points to a byte of the input: the last copy then has to be a copy of something. -/
theorem md5Update_inBounds_iff (context : Context) (input : ℕ → UInt8) (inputlen : UInt32) :
    ((∃ fuel e, md5Update fuel context input inputlen = some e ∧
        ∀ a ∈ e.accesses, a.start + a.length ≤ inputlen.toNat) ↔
      inputlen.toNat < 2 ^ 32 - 64 + (64 - (bufferIndex context).toNat) % 64) ∧
    ((∃ fuel e, md5Update fuel context input inputlen = some e ∧
        ∀ a ∈ e.accesses, a.start < inputlen.toNat) ↔
      inputlen.toNat < 2 ^ 32 - 64 + (64 - (bufferIndex context).toNat) % 64 ∧
        inputlen.toNat ≠ 0 ∧ ((bufferIndex context).toNat + inputlen.toNat) % 64 ≠ 0) := by
  by_cases htop : inputlen.toNat < 2 ^ 32 - 64 + (64 - (bufferIndex context).toNat) % 64
  · constructor
    · obtain ⟨e, he, hright⟩ := md5Update_ends context input inputlen _ htop (Nat.lt_succ_self _)
      exact iff_of_true ⟨_, e, he, hright.inside⟩ htop
    · constructor
      · rintro ⟨fuel, e, he, hstart⟩
        exact ⟨htop, (updated_of_ends htop he).started.mp hstart⟩
      · rintro ⟨-, h⟩
        obtain ⟨e, he, hright⟩ := md5Update_ends context input inputlen _ htop (Nat.lt_succ_self _)
        exact ⟨_, e, he, hright.started.mpr h⟩
  · have hnone : ∀ fuel, md5Update fuel context input inputlen = none := fun fuel =>
      md5Update_diverges context input inputlen fuel (by omega)
    simp only [hnone, htop, reduceCtorEq, false_and, exists_false, and_self]

end Update

/-- With a fresh context and the longest input the loop never ends. -/
theorem md5Update_endless :
    ¬ ∃ fuel e, md5Update fuel (md5Init ⟨0, 0, ⟨0, 0, 0, 0⟩, Buffer.zeroed 64⟩) (fun _ => 0)
      4294967295 = some e := by
  rintro ⟨fuel, e, he⟩
  rw [md5Update_diverges _ _ _ fuel (by decide)] at he
  cases he

end Md5
