import CloudDisk.BlockStreams
import Mathlib.Analysis.Complex.Trigonometric
import Mathlib.Algebra.Order.Floor.Semiring

/-! # The message digest of RFC 1321

Section 3 of the RFC: padding, the two words of the length, the four auxiliary functions, the
table made from the sine function, the sixty-four operations on a block, and the output. -/
namespace Rfc1321

inductive Reg where
  | A
  | B
  | C
  | D
  deriving DecidableEq

structure Registers where
  a : UInt32
  b : UInt32
  c : UInt32
  d : UInt32
  deriving DecidableEq

namespace Registers

def get (r : Registers) : Reg → UInt32
  | .A => r.a
  | .B => r.b
  | .C => r.c
  | .D => r.d

def set (r : Registers) (x : UInt32) : Reg → Registers
  | .A => { r with a := x }
  | .B => { r with b := x }
  | .C => { r with c := x }
  | .D => { r with d := x }

def add (r r' : Registers) : Registers := ⟨r.a + r'.a, r.b + r'.b, r.c + r'.c, r.d + r'.d⟩

def words (r : Registers) : List UInt32 := [r.a, r.b, r.c, r.d]

end Registers

def initial : Registers := ⟨0x67452301, 0xefcdab89, 0x98badcfe, 0x10325476⟩

/-- The names of the four auxiliary functions. -/
inductive Aux where
  | F
  | G
  | H
  | I
  deriving DecidableEq

def Aux.eval : Aux → UInt32 → UInt32 → UInt32 → UInt32
  | .F, x, y, z => (x &&& y) ||| (~~~ x &&& z)
  | .G, x, y, z => (x &&& z) ||| (y &&& ~~~ z)
  | .H, x, y, z => x ^^^ y ^^^ z
  | .I, x, y, z => y ^^^ (x ||| ~~~ z)

def rotateLeft (x : UInt32) (s : ℕ) : UInt32 := ⟨x.toBitVec.rotateLeft s⟩

/-- The integer part of 4294967296 times abs(sin(i)), where i is in radians. -/
noncomputable def T (i : ℕ) : UInt32 := UInt32.ofNat ⌊(4294967296 : ℕ) * |Real.sin i|⌋₊

/-- One entry `[abcd k s i]` of the four rounds, without its constant. -/
structure Operation where
  aux : Aux
  a : Reg
  b : Reg
  c : Reg
  d : Reg
  k : ℕ
  s : ℕ
  deriving DecidableEq

/-- The entries, numbered from 0. The registers move on by one at each entry, the four shifts
of a round are repeated, and the words are taken with the steps 1, 5, 3 and 7. -/
def operation (i : ℕ) : Operation :=
  let aux := [Aux.F, .G, .H, .I].getD (i / 16) .F
  let k := [i % 16, (5 * i + 1) % 16, (3 * i + 5) % 16, 7 * i % 16].getD (i / 16) 0
  let shifts := [[7, 12, 17, 22], [5, 9, 14, 20], [4, 11, 16, 23], [6, 10, 15, 21]]
  let s := (shifts.getD (i / 16) []).getD (i % 4) 0
  let r := fun j => [Reg.A, .B, .C, .D].getD ((j + 4 - i % 4) % 4) .A
  ⟨aux, r 0, r 1, r 2, r 3, k, s⟩

/-- `a = b + ((a + F(b,c,d) + X[k] + T[i]) <<< s)`. -/
def Operation.apply (o : Operation) (X : ℕ → UInt32) (t : UInt32) (r : Registers) : Registers :=
  r.set (r.get o.b +
    rotateLeft (r.get o.a + o.aux.eval (r.get o.b) (r.get o.c) (r.get o.d) + X o.k + t) o.s) o.a

def word (block : List UInt8) (k : ℕ) : UInt32 :=
  UInt32.ofNat ((block.getD (4 * k) 0).toNat + 2 ^ 8 * (block.getD (4 * k + 1) 0).toNat +
    2 ^ 16 * (block.getD (4 * k + 2) 0).toNat + 2 ^ 24 * (block.getD (4 * k + 3) 0).toNat)

/-- What one block of sixteen words does to the registers. -/
noncomputable def process (r : Registers) (block : List UInt8) : Registers :=
  r.add ((List.range 64).foldl (fun r i => (operation i).apply (word block) (T (i + 1)) r) r)

def bytes (k n : ℕ) : List UInt8 := (List.range k).map fun i => UInt8.ofNat (n / 256 ^ i)

/-- A one bit, zeros up to 56 modulo 64 bytes, and the number of bits modulo `2 ^ 64`. -/
def pad (message : List UInt8) : List UInt8 :=
  message ++ 0x80 :: List.replicate ((119 - message.length % 64) % 64) 0 ++
    bytes 8 (8 * message.length % 2 ^ 64)

noncomputable def md5 (message : List UInt8) : List UInt8 :=
  (BlockStreams.absorb 64 process initial (pad message)).words.flatMap fun w => bytes 4 w.toNat

end Rfc1321
