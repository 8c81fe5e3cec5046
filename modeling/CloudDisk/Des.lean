import CloudDisk.BitWirings
import CloudDisk.FeistelNetworks

/-! # The block cipher of `des.c`

`deskey` and `cookey` make thirty-two words of a key, `desfunc` runs a block of two words through
sixteen rounds with them. An `unsigned long` has 64 bits here: the rotations of `desfunc` are
written for words of 32 bits, and their upper bits are not always masked off. -/
namespace Des

open BitWirings

abbrev ULong := BitVec 64

/-! ## Tables -/

def pc1 : List ℕ :=
  [56, 48, 40, 32, 24, 16, 8, 0, 57, 49, 41, 33, 25, 17, 9, 1, 58, 50, 42, 34, 26, 18, 10, 2, 59,
    51, 43, 35, 62, 54, 46, 38, 30, 22, 14, 6, 61, 53, 45, 37, 29, 21, 13, 5, 60, 52, 44, 36, 28,
    20, 12, 4, 27, 19, 11, 3]

def pc2 : List ℕ :=
  [13, 16, 10, 23, 0, 4, 2, 27, 14, 5, 20, 9, 22, 18, 11, 3, 25, 7, 15, 6, 26, 19, 12, 1, 40, 51,
    30, 36, 46, 54, 29, 39, 50, 44, 32, 47, 43, 48, 38, 55, 33, 52, 45, 41, 49, 35, 28, 31]

def bytebit : List UInt8 :=
  [128, 64, 32, 16, 8, 4, 2, 1]

def totrot : List ℕ :=
  [1, 2, 4, 6, 8, 10, 12, 14, 15, 17, 19, 21, 23, 25, 27, 28]

def bigbyte : List ULong :=
  [0x800000, 0x400000, 0x200000, 0x100000, 0x80000, 0x40000, 0x20000, 0x10000, 0x8000, 0x4000,
    0x2000, 0x1000, 0x800, 0x400, 0x200, 0x100, 0x80, 0x40, 0x20, 0x10, 0x8, 0x4, 0x2, 0x1]

def SP1 : List ULong :=
  [0x01010400, 0x00000000, 0x00010000, 0x01010404, 0x01010004, 0x00010404, 0x00000004,
    0x00010000, 0x00000400, 0x01010400, 0x01010404, 0x00000400, 0x01000404, 0x01010004,
    0x01000000, 0x00000004, 0x00000404, 0x01000400, 0x01000400, 0x00010400, 0x00010400,
    0x01010000, 0x01010000, 0x01000404, 0x00010004, 0x01000004, 0x01000004, 0x00010004,
    0x00000000, 0x00000404, 0x00010404, 0x01000000, 0x00010000, 0x01010404, 0x00000004,
    0x01010000, 0x01010400, 0x01000000, 0x01000000, 0x00000400, 0x01010004, 0x00010000,
    0x00010400, 0x01000004, 0x00000400, 0x00000004, 0x01000404, 0x00010404, 0x01010404,
    0x00010004, 0x01010000, 0x01000404, 0x01000004, 0x00000404, 0x00010404, 0x01010400,
    0x00000404, 0x01000400, 0x01000400, 0x00000000, 0x00010004, 0x00010400, 0x00000000,
    0x01010004]

def SP2 : List ULong :=
  [0x80108020, 0x80008000, 0x00008000, 0x00108020, 0x00100000, 0x00000020, 0x80100020,
    0x80008020, 0x80000020, 0x80108020, 0x80108000, 0x80000000, 0x80008000, 0x00100000,
    0x00000020, 0x80100020, 0x00108000, 0x00100020, 0x80008020, 0x00000000, 0x80000000,
    0x00008000, 0x00108020, 0x80100000, 0x00100020, 0x80000020, 0x00000000, 0x00108000,
    0x00008020, 0x80108000, 0x80100000, 0x00008020, 0x00000000, 0x00108020, 0x80100020,
    0x00100000, 0x80008020, 0x80100000, 0x80108000, 0x00008000, 0x80100000, 0x80008000,
    0x00000020, 0x80108020, 0x00108020, 0x00000020, 0x00008000, 0x80000000, 0x00008020,
    0x80108000, 0x00100000, 0x80000020, 0x00100020, 0x80008020, 0x80000020, 0x00100020,
    0x00108000, 0x00000000, 0x80008000, 0x00008020, 0x80000000, 0x80100020, 0x80108020,
    0x00108000]

def SP3 : List ULong :=
  [0x00000208, 0x08020200, 0x00000000, 0x08020008, 0x08000200, 0x00000000, 0x00020208,
    0x08000200, 0x00020008, 0x08000008, 0x08000008, 0x00020000, 0x08020208, 0x00020008,
    0x08020000, 0x00000208, 0x08000000, 0x00000008, 0x08020200, 0x00000200, 0x00020200,
    0x08020000, 0x08020008, 0x00020208, 0x08000208, 0x00020200, 0x00020000, 0x08000208,
    0x00000008, 0x08020208, 0x00000200, 0x08000000, 0x08020200, 0x08000000, 0x00020008,
    0x00000208, 0x00020000, 0x08020200, 0x08000200, 0x00000000, 0x00000200, 0x00020008,
    0x08020208, 0x08000200, 0x08000008, 0x00000200, 0x00000000, 0x08020008, 0x08000208,
    0x00020000, 0x08000000, 0x08020208, 0x00000008, 0x00020208, 0x00020200, 0x08000008,
    0x08020000, 0x08000208, 0x00000208, 0x08020000, 0x00020208, 0x00000008, 0x08020008,
    0x00020200]

def SP4 : List ULong :=
  [0x00802001, 0x00002081, 0x00002081, 0x00000080, 0x00802080, 0x00800081, 0x00800001,
    0x00002001, 0x00000000, 0x00802000, 0x00802000, 0x00802081, 0x00000081, 0x00000000,
    0x00800080, 0x00800001, 0x00000001, 0x00002000, 0x00800000, 0x00802001, 0x00000080,
    0x00800000, 0x00002001, 0x00002080, 0x00800081, 0x00000001, 0x00002080, 0x00800080,
    0x00002000, 0x00802080, 0x00802081, 0x00000081, 0x00800080, 0x00800001, 0x00802000,
    0x00802081, 0x00000081, 0x00000000, 0x00000000, 0x00802000, 0x00002080, 0x00800080,
    0x00800081, 0x00000001, 0x00802001, 0x00002081, 0x00002081, 0x00000080, 0x00802081,
    0x00000081, 0x00000001, 0x00002000, 0x00800001, 0x00002001, 0x00802080, 0x00800081,
    0x00002001, 0x00002080, 0x00800000, 0x00802001, 0x00000080, 0x00800000, 0x00002000,
    0x00802080]

def SP5 : List ULong :=
  [0x00000100, 0x02080100, 0x02080000, 0x42000100, 0x00080000, 0x00000100, 0x40000000,
    0x02080000, 0x40080100, 0x00080000, 0x02000100, 0x40080100, 0x42000100, 0x42080000,
    0x00080100, 0x40000000, 0x02000000, 0x40080000, 0x40080000, 0x00000000, 0x40000100,
    0x42080100, 0x42080100, 0x02000100, 0x42080000, 0x40000100, 0x00000000, 0x42000000,
    0x02080100, 0x02000000, 0x42000000, 0x00080100, 0x00080000, 0x42000100, 0x00000100,
    0x02000000, 0x40000000, 0x02080000, 0x42000100, 0x40080100, 0x02000100, 0x40000000,
    0x42080000, 0x02080100, 0x40080100, 0x00000100, 0x20000000, 0x42080000, 0x42080100,
    0x00080100, 0x42000000, 0x42080100, 0x02080000, 0x02000100, 0x40000100, 0x00080000,
    0x00080100, 0x02000100, 0x40000100, 0x00080000, 0x00000000, 0x40080000, 0x02080100,
    0x40000100]

def SP6 : List ULong :=
  [0x20000010, 0x20400000, 0x00004000, 0x20404010, 0x20400000, 0x00000010, 0x20404010,
    0x00400000, 0x20004000, 0x00404010, 0x00400000, 0x20000010, 0x00400010, 0x20004000,
    0x20000000, 0x00004010, 0x00000000, 0x00400010, 0x20004010, 0x00004000, 0x00404000,
    0x20004010, 0x00000010, 0x20400010, 0x20400010, 0x00000000, 0x00404010, 0x20404000,
    0x00004010, 0x00404000, 0x20404000, 0x20000000, 0x20004000, 0x00000010, 0x20400010,
    0x00404000, 0x20404010, 0x00400000, 0x00004010, 0x20000010, 0x00400000, 0x20004000,
    0x20000000, 0x00004010, 0x20000010, 0x20404010, 0x00404000, 0x20400000, 0x00404010,
    0x20404000, 0x00000000, 0x20400010, 0x00000010, 0x00004000, 0x20400000, 0x00404010,
    0x00004000, 0x00400010, 0x20004010, 0x00000000, 0x20404000, 0x20000000, 0x00400010,
    0x20004010]

def SP7 : List ULong :=
  [0x00200000, 0x04200002, 0x04000802, 0x00000000, 0x00000800, 0x04000802, 0x00200802,
    0x04200800, 0x04200802, 0x00200000, 0x00000000, 0x04000002, 0x00000002, 0x04000000,
    0x04200002, 0x00000802, 0x04000800, 0x00200802, 0x00200002, 0x04000800, 0x04000002,
    0x04200000, 0x04200800, 0x00200002, 0x04200000, 0x00000800, 0x00000802, 0x04200802,
    0x00200800, 0x00000002, 0x04000000, 0x00200800, 0x04000000, 0x00200800, 0x00200000,
    0x04000802, 0x04000802, 0x04200002, 0x04200002, 0x00000002, 0x00200002, 0x04000000,
    0x04000800, 0x00200000, 0x04200800, 0x00000802, 0x00200802, 0x04200800, 0x00000802,
    0x04000002, 0x04200802, 0x04200000, 0x00200800, 0x00000000, 0x00000002, 0x04200802,
    0x00000000, 0x00200802, 0x04200000, 0x00000800, 0x04000002, 0x04000800, 0x00000800,
    0x00200002]

def SP8 : List ULong :=
  [0x10001040, 0x00001000, 0x00040000, 0x10041040, 0x10000000, 0x10001040, 0x00000040,
    0x10000000, 0x00040040, 0x10040000, 0x10041040, 0x00041000, 0x10041000, 0x00041040,
    0x00001000, 0x00000040, 0x10040000, 0x10000040, 0x10001000, 0x00001040, 0x00041000,
    0x00040040, 0x10040040, 0x10041000, 0x00001040, 0x00000000, 0x00000000, 0x10040040,
    0x10000040, 0x10001000, 0x00041040, 0x00040000, 0x00041040, 0x00040000, 0x10041000,
    0x00001000, 0x00000040, 0x10040040, 0x00001000, 0x00041040, 0x10001000, 0x00000040,
    0x10000040, 0x10040000, 0x10040040, 0x10000000, 0x00040000, 0x10001040, 0x00000000,
    0x10041040, 0x00040040, 0x10000040, 0x10040000, 0x10001000, 0x10001040, 0x00000000,
    0x10041040, 0x00041000, 0x00041000, 0x00001040, 0x00001040, 0x00040040, 0x10000000,
    0x10041000]

/-! ## The words of a key -/

inductive Edf where
  | EN0
  | DE1
  deriving DecidableEq

section Keys
variable (key : List UInt8)

/-- The bits that `pc1` chooses from the key. -/
def pc1m : List Bool :=
  pc1.map fun l => decide (key.getD (l >>> 3) 0 &&& bytebit.getD (l &&& 7) 0 ≠ 0)

def pcr (i : ℕ) : List Bool :=
  (List.range 56).map fun j =>
    let l := j + totrot.getD i 0
    if j < 28 then
      if l < 28 then (pc1m key).getD l false else (pc1m key).getD (l - 28) false
    else if l < 56 then (pc1m key).getD l false else (pc1m key).getD (l - 28) false

/-- `kn[m]` for `offset` 0 and `kn[n]` for `offset` 24. -/
def rawWord (i offset : ℕ) : ULong :=
  (List.range 24).foldl
    (fun kn j => if (pcr key i).getD (pc2.getD (j + offset) 0) false then
      kn ||| bigbyte.getD j 0 else kn) 0

def deskey (edf : Edf) : List ULong :=
  (List.range 16).foldl
    (fun kn i =>
      let m := if edf = .DE1 then (15 - i) <<< 1 else i <<< 1
      (kn.set m (rawWord key i 0)).set (m + 1) (rawWord key i 24))
    (List.replicate 32 0)

end Keys

section Cook
variable (raw0 raw1 : ULong)

def cook0 : ULong :=
  ((raw0 &&& 0x00fc0000) <<< 6) ||| ((raw0 &&& 0x00000fc0) <<< 10) |||
    ((raw1 &&& 0x00fc0000) >>> 10) ||| ((raw1 &&& 0x00000fc0) >>> 6)

def cook1 : ULong :=
  ((raw0 &&& 0x0003f000) <<< 12) ||| ((raw0 &&& 0x0000003f) <<< 16) |||
    ((raw1 &&& 0x0003f000) >>> 4) ||| (raw1 &&& 0x0000003f)

end Cook

def cookey : List ULong → List ULong
  | raw0 :: raw1 :: raws => cook0 raw0 raw1 :: cook1 raw0 raw1 :: cookey raws
  | _ => []

/-! ## The rounds -/

def rotl1 (x : ULong) : ULong := ((x <<< 1) ||| ((x >>> 31) &&& 1)) &&& 0xffffffff

/-- Rotates a word of 32 bits, and leaves what is shifted out above them. -/
def rotr1 (x : ULong) : ULong := (x <<< 31) ||| (x >>> 1)

/-- `leftt` and `right` before the first round. -/
def initialSteps (block : ULong × ULong) : ULong × ULong :=
  let s := exchange 4 0x0f0f0f0f block
  let s := exchange 16 0x0000ffff s
  let s := exchange 2 0x33333333 s.swap
  let s := exchange 8 0x00ff00ff s
  let s := (s.2, rotl1 s.1)
  let s := exchange 0 0xaaaaaaaa s
  (rotl1 s.1, s.2)

def finalSteps (s : ULong × ULong) : ULong × ULong :=
  let s := (s.1, rotr1 s.2)
  let s := exchange 0 0xaaaaaaaa s
  let s := (rotr1 s.1, s.2)
  let s := exchange 8 0x00ff00ff s
  let s := exchange 2 0x33333333 s
  let s := exchange 16 0x0000ffff s.swap
  exchange 4 0x0f0f0f0f s

def entry (table : List ULong) (work : ULong) : ULong := table.getD (work &&& 0x3f).toNat 0

/-- What a round adds to the other half; the table in the place of `SP5` is a parameter. -/
def fvalWith (sp5 : List ULong) (keys : ULong × ULong) (right : ULong) : ULong :=
  let work := ((right <<< 28) ||| (right >>> 4)) ^^^ keys.1
  let fval := entry SP7 work
  let fval := fval ||| entry sp5 (work >>> 8)
  let fval := fval ||| entry SP3 (work >>> 16)
  let fval := fval ||| entry SP1 (work >>> 24)
  let work := right ^^^ keys.2
  let fval := fval ||| entry SP8 work
  let fval := fval ||| entry SP6 (work >>> 8)
  let fval := fval ||| entry SP4 (work >>> 16)
  fval ||| entry SP2 (work >>> 24)

/-- `for (round = 0; round < 8; round++)`, two rounds at a time. -/
def roundLoop (sp5 : List ULong) : ℕ → List ULong → ULong × ULong → ULong × ULong
  | n + 1, k0 :: k1 :: k2 :: k3 :: keys, s =>
    let leftt := s.1 ^^^ fvalWith sp5 (k0, k1) s.2
    let right := s.2 ^^^ fvalWith sp5 (k2, k3) leftt
    roundLoop sp5 n keys (leftt, right)
  | _, _, s => s

def desfuncWith (sp5 : List ULong) (block : ULong × ULong) (keys : List ULong) : ULong × ULong :=
  finalSteps (roundLoop sp5 8 keys (initialSteps block))

def desfunc (block : ULong × ULong) (keys : List ULong) : ULong × ULong :=
  desfuncWith SP5 block keys

/-! ## Bytes of a block -/

def byteWord (outof : List UInt8) (k : ℕ) : ULong := (outof.getD k 0).toBitVec.setWidth 64 &&& 0xff

def scrunch (outof : List UInt8) : ULong × ULong :=
  ((byteWord outof 0 <<< 24) ||| (byteWord outof 1 <<< 16) ||| (byteWord outof 2 <<< 8) |||
      byteWord outof 3,
    (byteWord outof 4 <<< 24) ||| (byteWord outof 5 <<< 16) ||| (byteWord outof 6 <<< 8) |||
      byteWord outof 7)

def wordBytes (x : ULong) : List UInt8 :=
  [⟨((x >>> 24) &&& 0xff).setWidth 8⟩, ⟨((x >>> 16) &&& 0xff).setWidth 8⟩,
    ⟨((x >>> 8) &&& 0xff).setWidth 8⟩, ⟨(x &&& 0xff).setWidth 8⟩]

def unscrun (outof : ULong × ULong) : List UInt8 := wordBytes outof.1 ++ wordBytes outof.2

/-- `USER_PASSWORD_KEY`, the text `abcd1234`. -/
def userPasswordKey : List UInt8 := [97, 98, 99, 100, 49, 50, 51, 52]

end Des
