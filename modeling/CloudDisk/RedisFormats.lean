import CloudDisk.HmsetCommands
import CloudDisk.RedisRequests
import Mathlib.Algebra.GroupWithZero.Nat

/-! # The formats of Redis commands

hiredis cuts a format into arguments at its blanks and only then fills in the values, so a value
never ends an argument, whatever bytes it has. A text that is used as the format itself has no
such protection. -/
namespace RedisFormats

open ByteStrings CheckedCode ByteBuffers SqlFormats JsonBodies MyFilesPage RedisRequests

/-- What is taken from the argument list; a `block` is a pointer and a size. -/
inductive VaArg where
  | str (s : CString)
  | block (bytes : List UInt8)
  | int (n : ℤ)
  | double (bits : UInt64)
  deriving DecidableEq

/-- The C library's printing of one conversion. -/
structure Printf where
  render : List UInt8 → VaArg → List UInt8
  decimal : ∀ n : ℤ, render [37, 100] (.int n) = intText n
  long : ∀ n : ℤ, render [37, 108, 100] (.int n) = intText n
  unsigned : ∀ n : ℕ, render [37, 117] (.int n) = natText n

/-- Every conversion printed as if it had no width and no precision. -/
def plainPrintf : Printf where
  render _ arg :=
    match arg with
    | .str s => s
    | .block bytes => bytes
    | .int n => intText n
    | .double _ => []
  decimal _ := rfl
  long _ := rfl
  unsigned n := by simp [intText]

/-! ## Reading a format -/

/-- `#0-+ `. -/
def isFlag (b : UInt8) : Bool := b ∈ [35, 48, 45, 43, 32]

/-- `diouxX`. -/
def isIntFormat (b : UInt8) : Bool := b ∈ [100, 105, 111, 117, 120, 88]

/-- `eEfFgGaA`. -/
def isDoubleFormat (b : UInt8) : Bool := b ∈ [101, 69, 102, 70, 103, 71, 97, 65]

def sizedInt : List UInt8 → Bool
  | [] => false
  | b :: _ => isIntFormat b

def skipWidth (p : List UInt8) : List UInt8 :=
  let p := (p.dropWhile isFlag).dropWhile isDigit
  if p.head? = some 46 then p.tail.dropWhile isDigit else p

/-- Whether a double is printed and the number of bytes up to its letter; `none` is a format error.
`strchr` also finds the NUL at the end of the format. -/
def conversion : List UInt8 → Option (Bool × ℕ)
  | [] => some (false, 1)
  | b :: p =>
    if isIntFormat b then some (false, 1)
    else if isDoubleFormat b then some (true, 1)
    else if b = 104 ∧ p.head? = some 104 then if sizedInt p.tail then some (false, 3) else none
    else if b = 104 then if sizedInt p then some (false, 2) else none
    else if b = 108 ∧ p.head? = some 108 then if sizedInt p.tail then some (false, 3) else none
    else if b = 108 then if sizedInt p then some (false, 2) else none
    else none

def VaArg.matches (double : Bool) : VaArg → Bool
  | .int _ => !double
  | .double _ => double
  | _ => false

structure Words where
  argv : List CString
  curarg : CString
  touched : Bool

def Words.empty : Words := ⟨[], [], false⟩

def Words.add (w : Words) (s : CString) : Words := ⟨w.argv, w.curarg ++ s, true⟩

/-- The current argument ends, if it has been touched. -/
def Words.close (w : Words) : Words := if w.touched then ⟨w.argv ++ [w.curarg], [], false⟩ else w

/-- The loop of `redisvFormatCommand`; the first argument counts the bytes that `c` still has to
pass. Behind the end of the format, and for an argument that is not there, it faults. -/
def formatLoop (P : Printf) : ℕ → Words → List VaArg → List UInt8 → Checked (Option (List CString))
  | 0, w, _, [] => pure (some w.close.argv)
  | _ + 1, _, _, [] => throw .outOfBounds
  | skip + 1, w, args, _ :: f => formatLoop P skip w args f
  | 0, w, args, b :: f =>
    if b ≠ 37 ∨ f = [] then
      if b = 32 then formatLoop P 0 w.close args f else formatLoop P 0 (w.add [b]) args f
    else if f.head? = some 115 then
      match args with
      | .str s :: args => formatLoop P 1 (w.add s) args f
      | _ => throw .outOfBounds
    else if f.head? = some 98 then
      match args with
      | .block bytes :: args => formatLoop P 1 (w.add bytes) args f
      | _ => throw .outOfBounds
    else if f.head? = some 37 then formatLoop P 1 (w.add [37]) args f
    else
      match conversion (skipWidth f), args with
      | none, _ => pure none
      | some _, [] => throw .outOfBounds
      | some (double, k), arg :: args =>
        if arg.matches double then
          -- the bytes behind the percent sign, up to the letter
          let last := f.length - (skipWidth f).length + k
          if last + 1 < 14 then formatLoop P last (w.add (P.render (b :: f.take last) arg)) args f
          else formatLoop P 1 (w.add []) args f
        else throw .outOfBounds

/-! ## Writing the command -/

def countDigits (v : ℕ) : ℕ :=
  if v < 10 then 1
  else if v < 100 then 2
  else if v < 1000 then 3
  else if v < 10000 then 4
  else countDigits (v / 10000) + 4

def bulklen (len : ℕ) : ℕ := 1 + countDigits len + 2 + len + 2

/-- `sprintf` also writes a NUL, which the next bytes replace. -/
def writeArgs {n : ℕ} : Buffer n → ℕ → List CString → Checked (Buffer n × ℕ)
  | cmd, pos, [] => pure (cmd, pos)
  | cmd, pos, arg :: args => do
    let length : List UInt8 := 36 :: (natText arg.length ++ [13, 10])
    let cmd ← cmd.write pos (length ++ [0])
    let pos := pos + length.length
    let cmd ← cmd.write pos arg
    let pos := pos + arg.length
    let cmd ← cmd.put pos 13
    let cmd ← cmd.put (pos + 1) 10
    writeArgs cmd (pos + 2) args

inductive Formatted where
  | formatError
  | aborted
  | command (bytes : List UInt8)
  deriving DecidableEq

def totlen (argv : List CString) : ℕ :=
  (argv.map fun arg => bulklen arg.length).sum + (1 + countDigits argv.length + 2)

def writeCommand {n : ℕ} (cmd : Buffer n) (argv : List CString) : Checked Formatted := do
  let count : List UInt8 := 42 :: (natText argv.length ++ [13, 10])
  let cmd ← cmd.write 0 (count ++ [0])
  let (cmd, pos) ← writeArgs cmd count.length argv
  -- `assert(pos == totlen)`
  if pos ≠ totlen argv then return .aborted
  else
    let cmd ← cmd.put pos 0
    return .command (cmd.bytes.take (totlen argv))

def block (fresh : ℕ → UInt8) (n : ℕ) : Buffer n := ⟨(List.range n).map fresh, by simp⟩

/-- `totlen` is an `int`. -/
def buildCommand (fresh : ℕ → UInt8) (argv : List CString) : Checked Formatted :=
  if totlen argv + 1 < 2 ^ 31 then writeCommand (block fresh (totlen argv + 1)) argv
  else throw .overflow

/-- `redisvFormatCommand`, as long as there is memory. -/
def redisvFormatCommand (P : Printf) (fresh : ℕ → UInt8) (format : CString) (args : List VaArg) :
    Checked Formatted := do
  match ← formatLoop P 0 .empty args format with
  | none => return .formatError
  | some argv => buildCommand fresh argv

/-! ## The length of a command -/

theorem length_natText {v : ℕ} (h : v ≠ 0) : (natText v).length = (Nat.digits 10 v).length := by
  rw [natText, if_neg h, List.length_map, List.length_reverse]

theorem countDigits_eq (v : ℕ) : countDigits v = (natText v).length := by
  induction v using Nat.strongRecOn with
  | ind v ih =>
    by_cases h0 : v = 0
    · subst h0
      simp [countDigits, natText]
    · have hle : ∀ k, (Nat.digits 10 v).length ≤ k ↔ v < 10 ^ k :=
        fun k => Nat.digits_length_le_iff (by decide) v
      have h1 := hle 0
      have h2 := hle 1
      have h3 := hle 2
      have h4 := hle 3
      have h5 := hle 4
      rw [countDigits, length_natText h0]
      by_cases hbig : v < 10000
      · split
        · omega
        · split
          · omega
          · split
            · omega
            · omega
      · have hdiv : v / 10000 ≠ 0 := by omega
        have hlength : (Nat.digits 10 v).length = (Nat.digits 10 (v / 10000)).length + 4 := by
          have hstep : ∀ u, u ≠ 0 →
              (Nat.digits 10 u).length = (Nat.digits 10 (u / 10)).length + 1 := by
            intro u hu
            rw [Nat.digits_def' (by decide) (Nat.pos_of_ne_zero hu), List.length_cons]
          rw [hstep v h0, hstep (v / 10) (by omega), hstep (v / 10 / 10) (by omega),
            hstep (v / 10 / 10 / 10) (by omega)]
          simp only [Nat.div_div_eq_div_mul, Nat.reduceMul]
        rw [if_neg (by omega), if_neg (by omega), if_neg (by omega), if_neg hbig,
          ih _ (Nat.div_lt_self (by omega) (by decide)), length_natText hdiv, hlength]

theorem length_bulk (arg : CString) : (bulk arg).length = bulklen arg.length := by
  simp only [bulk, bulklen, countDigits_eq, List.length_cons, List.length_append, List.length_nil]
  omega

theorem length_request (argv : List CString) : (request argv).length = totlen argv := by
  have hbulks : (argv.flatMap bulk).length = (argv.map fun arg => bulklen arg.length).sum := by
    rw [List.length_flatMap]
    simp only [length_bulk]
  simp only [request, totlen, countDigits_eq, List.length_cons, List.length_append, hbulks]
  omega

section Writing
variable {n : ℕ}

def Written (cmd : Buffer n) (pos : ℕ) (bytes : List UInt8) : Prop :=
  pos = bytes.length ∧ cmd.bytes.take pos = bytes

theorem Written.write {cmd : Buffer n} {pos : ℕ} {bytes xs : List UInt8} (h : Written cmd pos bytes)
    (hfits : pos + xs.length ≤ n) :
    Returns (cmd.write pos xs) fun cmd => Written cmd (pos + xs.length) (bytes ++ xs) := by
  refine (Buffer.returns_write (by omega)).mpr ⟨hfits, ?_, ?_⟩
  · rw [List.length_append, ← h.1]
  · rw [Buffer.take_overlay _ _ _ hfits, h.2]

theorem Written.put {cmd : Buffer n} {pos : ℕ} {bytes : List UInt8} (h : Written cmd pos bytes)
    (hfits : pos < n) (x : UInt8) :
    Returns (cmd.put pos x) fun cmd => Written cmd (pos + 1) (bytes ++ [x]) :=
  Buffer.returns_put.mpr ⟨hfits,
    ((Buffer.returns_write (by omega)).mp (@Written.write n cmd pos bytes [x] h hfits)).2⟩

theorem Written.cut {cmd : Buffer n} {pos k : ℕ} {bytes more : List UInt8}
    (h : Written cmd pos (bytes ++ more)) (hk : pos = k + more.length) : Written cmd k bytes := by
  have hlen : k = bytes.length := by
    have hpos := h.1
    rw [List.length_append] at hpos
    omega
  refine ⟨hlen, ?_⟩
  have htake := congrArg (List.take k) h.2
  rwa [List.take_take, Nat.min_eq_left (by omega), List.take_left' hlen.symm] at htake

theorem writeArgs_spec (argv : List CString) :
    ∀ {cmd : Buffer n} {pos : ℕ} {bytes : List UInt8}, Written cmd pos bytes →
      pos + (argv.flatMap bulk).length < n →
      Returns (writeArgs cmd pos argv) fun r =>
        Written r.1 r.2 (bytes ++ argv.flatMap bulk) := by
  induction argv with
  | nil =>
    intro cmd pos bytes h _
    rw [writeArgs, returns_pure, List.flatMap_nil, List.append_nil]
    exact h
  | cons arg argv ih =>
    intro cmd pos bytes h hfits
    have hbulk : (bulk arg).length = (natText arg.length).length + arg.length + 5 := by
      simp only [bulk, List.length_cons, List.length_append, List.length_nil]
      omega
    rw [List.flatMap_cons, List.length_append, hbulk] at hfits
    simp only [writeArgs, returns_bind]
    refine (h.write ?_).mono fun cmd h => ?_
    · simp only [List.length_append, List.length_cons, List.length_nil]
      omega
    rw [← List.append_assoc] at h
    replace h := h.cut (k := pos + (36 :: (natText arg.length ++ [13, 10])).length) (by
      rw [List.length_append, Nat.add_assoc])
    simp only [List.length_append, List.length_cons, List.length_nil] at h ⊢
    apply (h.write (by omega)).mono
    intro cmd h
    apply (h.put (by omega) 13).mono
    intro cmd h
    apply (h.put (by omega) 10).mono
    intro cmd h
    apply (ih h (by omega)).mono
    intro r hr
    rw [List.flatMap_cons, bulk]
    simpa using hr

theorem writeCommand_spec {cmd : Buffer n} {argv : List CString} (hn : totlen argv < n) :
    Returns (writeCommand cmd argv) (· = .command (request argv)) := by
  have hstart : Written cmd 0 [] := ⟨rfl, rfl⟩
  have hlength := length_request argv
  have hparts : (request argv).length = (natText argv.length).length + 3 +
      (argv.flatMap bulk).length := by
    simp only [request, List.length_cons, List.length_append]
    omega
  simp only [writeCommand, returns_bind]
  refine (hstart.write ?_).mono fun cmd h => ?_
  · simp only [List.length_append, List.length_cons, List.length_nil]
    omega
  rw [List.nil_append] at h
  replace h := h.cut (k := (42 :: (natText argv.length ++ [13, 10])).length) (by
    rw [List.length_append, Nat.zero_add])
  refine (writeArgs_spec argv h ?_).mono fun r hr => ?_
  · simp only [List.length_append, List.length_cons, List.length_nil]
    omega
  have htext : 42 :: (natText argv.length ++ [13, 10]) ++ argv.flatMap bulk = request argv := by
    simp [request]
  rw [htext] at hr
  have hpos : r.2 = totlen argv := hr.1.trans hlength
  rw [if_neg (not_not_intro hpos)]
  refine returns_bind.mpr ((hr.put (by omega) 0).mono fun cmd h => ?_)
  rw [hpos] at h
  exact returns_pure.mpr (congrArg Formatted.command (h.cut rfl).2)

theorem buildCommand_spec (fresh : ℕ → UInt8) {argv : List CString}
    (h : (request argv).length + 1 < 2 ^ 31) :
    Returns (buildCommand fresh argv) (· = .command (request argv)) := by
  rw [length_request] at h
  rw [buildCommand, if_pos h]
  exact writeCommand_spec (Nat.lt_succ_self _)

end Writing

/-! ## The words of a format -/

inductive Piece where
  | byte (b : UInt8)
  | str (s : CString)
  | decimal (n : ℤ)
  | long (n : ℤ)
  | unsigned (n : ℕ)

namespace Piece

def format : Piece → List UInt8
  | byte b => [b]
  | str _ => [37, 115]
  | decimal _ => [37, 100]
  | long _ => [37, 108, 100]
  | unsigned _ => [37, 117]

def args : Piece → List VaArg
  | byte _ => []
  | str s => [.str s]
  | decimal n => [.int n]
  | long n => [.int n]
  | unsigned n => [.int n]

def text : Piece → CString
  | byte b => [b]
  | str s => s
  | decimal n => intText n
  | long n => intText n
  | unsigned n => natText n

def Plain : Piece → Prop
  | byte b => b ≠ 32 ∧ b ≠ 37
  | _ => True

instance decidablePlain : (p : Piece) → Decidable p.Plain
  | byte b => inferInstanceAs (Decidable (b ≠ 32 ∧ b ≠ 37))
  | str _ | decimal _ | long _ | unsigned _ => isTrue trivial

end Piece

abbrev Word := List Piece

def Word.text (w : Word) : CString := w.flatMap Piece.text

def Word.args (w : Word) : List VaArg := w.flatMap Piece.args

def formatOf (words : List Word) : CString :=
  List.intercalate [32] (words.map fun w => w.flatMap Piece.format)

section Formats
variable {P : Printf} {args : List VaArg} {f : List UInt8} {ws : Words}

theorem formatLoop_plain {b : UInt8} (hb : b ≠ 37) :
    formatLoop P 0 ws args (b :: f) =
      if b = 32 then formatLoop P 0 ws.close args f else formatLoop P 0 (ws.add [b]) args f := by
  simp [formatLoop, hb]

theorem formatLoop_piece {p : Piece} (hp : p.Plain) :
    formatLoop P 0 ws (p.args ++ args) (p.format ++ f) = formatLoop P 0 (ws.add p.text) args f := by
  cases p with
  | byte b => exact (formatLoop_plain hp.2).trans (if_neg hp.1)
  | str s => simp [Piece.format, Piece.args, Piece.text, formatLoop]
  | decimal n =>
    simp [Piece.format, Piece.args, Piece.text, formatLoop, skipWidth, isFlag, isDigit, conversion,
      isIntFormat, VaArg.matches, P.decimal]
  | long n =>
    simp [Piece.format, Piece.args, Piece.text, formatLoop, skipWidth, isFlag, isDigit, conversion,
      isIntFormat, isDoubleFormat, sizedInt, VaArg.matches, P.long]
  | unsigned n =>
    simp [Piece.format, Piece.args, Piece.text, formatLoop, skipWidth, isFlag, isDigit, conversion,
      isIntFormat, VaArg.matches, P.unsigned]

@[simp] theorem Words.add_add (ws : Words) (s t : CString) :
    (ws.add s).add t = ws.add (s ++ t) := by
  simp [Words.add]

theorem formatLoop_word {w : Word} (hne : w ≠ []) (hw : ∀ p ∈ w, p.Plain) :
    formatLoop P 0 ws (w.args ++ args) (w.flatMap Piece.format ++ f) =
      formatLoop P 0 (ws.add w.text) args f := by
  induction w generalizing ws with
  | nil => exact absurd rfl hne
  | cons p w ih =>
    obtain ⟨hp, hw⟩ := List.forall_mem_cons.mp hw
    simp only [Word.args, Word.text, List.flatMap_cons, List.append_assoc] at ih ⊢
    rw [formatLoop_piece hp]
    cases w with
    | nil => simp
    | cons q w => rw [ih (List.cons_ne_nil _ _) hw, Words.add_add]

theorem formatLoop_words (words : List Word) (h : ∀ w ∈ words, w ≠ [] ∧ ∀ p ∈ w, p.Plain)
    (argv : List CString) :
    formatLoop P 0 ⟨argv, [], false⟩ (words.flatMap Word.args) (formatOf words) =
      .ok (some (argv ++ words.map Word.text)) := by
  induction words generalizing argv with
  | nil => simp [formatOf, formatLoop, Words.close, pure, Except.pure]
  | cons w words ih =>
    obtain ⟨⟨hne, hw⟩, hwords⟩ := List.forall_mem_cons.mp h
    cases words with
    | nil =>
      have hword : formatLoop P 0 ⟨argv, [], false⟩ (w.args ++ []) (w.flatMap Piece.format ++ []) =
          formatLoop P 0 (Words.add ⟨argv, [], false⟩ w.text) [] [] := formatLoop_word hne hw
      simp only [List.append_nil] at hword
      simp only [formatOf, List.map_cons, List.map_nil, List.intercalate_singleton,
        List.flatMap_cons, List.flatMap_nil, List.append_nil, hword]
      simp [formatLoop, Words.close, Words.add, pure, Except.pure]
    | cons w' words =>
      have hsplit : formatOf (w :: w' :: words) =
          w.flatMap Piece.format ++ 32 :: formatOf (w' :: words) := by
        simp [formatOf, List.intercalate_cons_cons]
      rw [hsplit, List.flatMap_cons, formatLoop_word hne hw, formatLoop_plain (by decide),
        if_pos rfl, Words.close, Words.add, if_pos rfl, ih hwords]
      simp

/-! ## A text used as the format -/

def Whole (s : CString) : Prop := s ≠ [] ∧ 32 ∉ s

structure Words.Cut (ws : Words) : Prop where
  whole : ∀ s ∈ ws.argv, Whole s
  blank : 32 ∉ ws.curarg
  touched : ws.touched = true ↔ ws.curarg ≠ []

theorem Words.Cut.close (h : ws.Cut) : ws.close.Cut := by
  by_cases ht : ws.touched = true
  · rw [Words.close, if_pos ht]
    refine ⟨fun s hs => ?_, by simp, by simp⟩
    rcases List.mem_append.mp hs with hs | hs
    · exact h.whole s hs
    · obtain rfl := List.mem_singleton.mp hs
      exact ⟨h.touched.mp ht, h.blank⟩
  · rwa [Words.close, if_neg ht]

theorem Words.Cut.add {b : UInt8} (h : ws.Cut) (hb : b ≠ 32) : (ws.add [b]).Cut where
  whole := h.whole
  blank := by simp [Words.add, h.blank, hb.symm]
  touched := by simp [Words.add]

theorem formatLoop_text {text : CString} (htext : 37 ∉ text) (h : ws.Cut) :
    ∃ argv, formatLoop P 0 ws args text = .ok (some argv) ∧ ∀ s ∈ argv, Whole s := by
  induction text generalizing ws with
  | nil => exact ⟨_, rfl, h.close.whole⟩
  | cons b text ih =>
    rw [List.mem_cons, not_or] at htext
    rw [formatLoop_plain (Ne.symm htext.1)]
    by_cases hb : b = 32
    · rw [if_pos hb]
      exact ih htext.2 h.close
    · rw [if_neg hb]
      exact ih htext.2 (h.add hb)

def literal (s : CString) : Word := s.map Piece.byte

@[simp] theorem format_literal (s : CString) : (literal s).flatMap Piece.format = s := by
  induction s with
  | nil => rfl
  | cons b s ih => exact congrArg (b :: ·) ih

@[simp] theorem args_literal (s : CString) : (literal s).args = [] := by
  induction s with
  | nil => rfl
  | cons b s ih => exact ih

@[simp] theorem text_literal (s : CString) : (literal s).text = s := by
  induction s with
  | nil => rfl
  | cons b s ih => exact congrArg (b :: ·) ih

theorem literal_plain {s : CString} (h : Whole s) (h37 : 37 ∉ s) :
    literal s ≠ [] ∧ ∀ p ∈ literal s, p.Plain := by
  refine ⟨by simpa [literal] using h.1, fun p hp => ?_⟩
  obtain ⟨b, hb, rfl⟩ := List.mem_map.mp hp
  exact ⟨fun h32 => h.2 (h32 ▸ hb), fun h => h37 (h ▸ hb)⟩

theorem notMem_intercalate {argv : List CString} (h : ∀ s ∈ argv, 37 ∉ s) :
    37 ∉ List.intercalate [32] argv := by
  induction argv with
  | nil => simp
  | cons s argv ih =>
    obtain ⟨hs, hargv⟩ := List.forall_mem_cons.mp h
    cases argv with
    | nil => simpa using hs
    | cons s' argv =>
      rw [List.intercalate_cons_cons]
      simp [hs, ih hargv]

/-- A text without conversions gives the intended arguments exactly if none of them is empty or
has a blank. -/
theorem formatLoop_join_iff {argv : List CString} (hargv : ∀ s ∈ argv, 37 ∉ s) :
    formatLoop P 0 .empty [] (List.intercalate [32] argv) = .ok (some argv) ↔
      ∀ s ∈ argv, Whole s := by
  constructor
  · intro heq
    have hcut : Words.empty.Cut :=
      ⟨by simp [Words.empty], by simp [Words.empty], by simp [Words.empty]⟩
    obtain ⟨words, hwords, hwhole⟩ := formatLoop_text (P := P) (notMem_intercalate hargv) hcut
    rw [heq] at hwords
    obtain rfl : argv = words := Option.some.inj (Except.ok.inj hwords)
    exact hwhole
  · intro hwhole
    have hplain : ∀ w ∈ argv.map literal, w ≠ [] ∧ ∀ p ∈ w, p.Plain := by
      intro w hw
      obtain ⟨s, hs, rfl⟩ := List.mem_map.mp hw
      exact literal_plain (hwhole s hs) (hargv s hs)
    have hloop := formatLoop_words (P := P) _ hplain []
    have hargs : (argv.map literal).flatMap Word.args = [] := by
      simp [List.flatMap_map]
    have hformat : formatOf (argv.map literal) = List.intercalate [32] argv := by
      rw [formatOf, List.map_map]
      congr 1
      exact List.map_id'' format_literal argv
    have htexts : (argv.map literal).map Word.text = argv := by
      rw [List.map_map]
      exact List.map_id'' text_literal argv
    rwa [hargs, hformat, htexts, List.nil_append] at hloop

end Formats

/-! ## The table commands -/

section Hmset
variable (key : CString) (elements : List (CString × CString))

/-- The arguments that `rop_create_or_replace_hash_table` means to send. -/
def hmsetArgv : List CString :=
  cstr "hmset" :: key.take 200 :: elements.flatMap fun e => [e.1, e.2]

variable {key elements}

theorem intercalate_elements (s : CString) :
    List.intercalate [32] (s :: elements.flatMap fun e => [e.1, e.2]) =
      s ++ elements.flatMap fun e => cstr " " ++ e.1 ++ cstr " " ++ e.2 := by
  induction elements generalizing s with
  | nil => simp
  | cons e elements ih =>
    have hblank : cstr " " = [32] := by decide
    simp only [List.flatMap_cons, List.cons_append, List.nil_append, List.intercalate_cons_cons, ih,
      hblank, List.append_assoc]

theorem command_eq :
    HmsetCommands.command key elements = List.intercalate [32] (hmsetArgv key elements) := by
  have hname : cstr "hmset " = cstr "hmset" ++ [32] := by decide
  rw [hmsetArgv, List.intercalate_cons_cons, intercalate_elements, HmsetCommands.command, hname]
  simp only [List.append_assoc]

theorem notMem_command (hplain : ∀ s ∈ hmsetArgv key elements, 37 ∉ s) :
    37 ∉ HmsetCommands.command key elements := by
  rw [command_eq]
  exact notMem_intercalate hplain

theorem whole_hmsetArgv : (∀ s ∈ hmsetArgv key elements, Whole s) ↔
    Whole (key.take 200) ∧ ∀ e ∈ elements, Whole e.1 ∧ Whole e.2 := by
  have hname : Whole (cstr "hmset") := ⟨by decide, by decide⟩
  rw [hmsetArgv, List.forall_mem_cons, List.forall_mem_cons]
  simp only [hname, true_and, List.forall_mem_flatMap, List.forall_mem_cons, List.not_mem_nil,
    false_imp_iff, implies_true, and_true]

theorem redisvFormatCommand_command_iff (P : Printf) (fresh : ℕ → UInt8)
    (hplain : ∀ s ∈ hmsetArgv key elements, 37 ∉ s) :
    Returns (redisvFormatCommand P fresh (HmsetCommands.command key elements) [])
        (· = .command (request (hmsetArgv key elements))) ↔
      (∀ s ∈ hmsetArgv key elements, Whole s) ∧
        (request (hmsetArgv key elements)).length + 1 < 2 ^ 31 := by
  have hcut : Words.empty.Cut :=
    ⟨by simp [Words.empty], by simp [Words.empty], by simp [Words.empty]⟩
  obtain ⟨argv, hloop, hwhole⟩ :=
    @formatLoop_text P [] _ _ (notMem_command hplain) hcut
  have hrun : redisvFormatCommand P fresh (HmsetCommands.command key elements) [] =
      buildCommand fresh argv := by
    rw [redisvFormatCommand, hloop]
    rfl
  rw [hrun]
  constructor
  · rintro ⟨f, hf, hcommand⟩
    have hsize : totlen argv + 1 < 2 ^ 31 := by
      by_contra hbig
      rw [buildCommand, if_neg hbig] at hf
      cases hf
    rw [← length_request] at hsize
    obtain ⟨f', hf', heq⟩ := buildCommand_spec fresh hsize
    obtain rfl : f = f' := Except.ok.inj (hf.symm.trans hf')
    obtain rfl := request_inj (Formatted.command.inj (heq.symm.trans hcommand))
    exact ⟨hwhole, hsize⟩
  · rintro ⟨hargv, hsize⟩
    have hjoin := (formatLoop_join_iff (P := P) hplain).mpr hargv
    rw [← command_eq, hloop] at hjoin
    obtain rfl := Option.some.inj (Except.ok.inj hjoin)
    exact buildCommand_spec fresh hsize

/-- The command that `rop_create_or_replace_hash_table` hands to the connection, if there was
memory for its text. The text is used as the format. -/
def ropCreateOrReplaceHashTable (P : Printf) (memory : HmsetCommands.Allocations)
    (fresh : ℕ → UInt8) (key : CString) (elements : List (CString × CString)) :
    Checked (Option Formatted) := do
  match ← HmsetCommands.makeHmsetCommand memory key elements with
  | none => return none
  | some cmd =>
    let format ← cmd.2.text
    return some (← redisvFormatCommand P fresh format [])

/-- However the allocations end, nothing is done outside a block, and what is sent has the key and
the elements as they are. -/
def SendsElements (P : Printf) (key : CString) (elements : List (CString × CString)) : Prop :=
  ∀ memory fresh, Returns (ropCreateOrReplaceHashTable P memory fresh key elements) fun o =>
    (o = none → ∃ i, memory i = none) ∧
      ∀ f, o = some f → f = .command (request (hmsetArgv key elements))

theorem returns_ropCreate {P : Printf} {memory : HmsetCommands.Allocations} {fresh : ℕ → UInt8}
    {Q : Option Formatted → Prop} :
    Returns (ropCreateOrReplaceHashTable P memory fresh key elements) Q ↔
      Returns (HmsetCommands.makeHmsetCommand memory key elements) fun cmd =>
        (cmd = none → Q none) ∧ ∀ b, cmd = some b → Returns b.2.text fun format =>
          Returns (redisvFormatCommand P fresh format []) fun f => Q (some f) := by
  rw [ropCreateOrReplaceHashTable, returns_bind]
  refine iff_of_eq (congrArg _ (funext fun cmd => propext ?_))
  cases cmd with
  | none => simp
  | some b => simp [returns_bind]

theorem builds_of_sendsElements {P : Printf} (hkey : 0 ∉ key)
    (helements : ∀ e ∈ elements, FitsBuffer HmsetCommands.fieldIdSize e.1 ∧
      FitsBuffer HmsetCommands.valuesIdSize e.2)
    (h : SendsElements P key elements) : HmsetCommands.Builds key elements := by
  apply (HmsetCommands.builds_iff_room hkey helements).mpr
  apply HmsetCommands.room_of_returns hkey helements
  apply (returns_ropCreate.mp (h HmsetCommands.granted fun _ => 0)).mono
  intro cmd hcmd
  cases cmd with
  | none =>
    obtain ⟨i, hi⟩ := (hcmd.1 rfl).1 rfl
    exact absurd hi (Option.some_ne_none _)
  | some b =>
    obtain ⟨format, hformat, -⟩ := hcmd.2 b rfl
    exact ⟨b, rfl, Buffer.mem_of_text_eq hformat⟩

theorem sendsElements_iff (P : Printf) (hplain : ∀ s ∈ hmsetArgv key elements, 37 ∉ s)
    (hbuilds : HmsetCommands.Builds key elements) : SendsElements P key elements ↔
      (∀ s ∈ hmsetArgv key elements, Whole s) ∧
        (request (hmsetArgv key elements)).length + 1 < 2 ^ 31 := by
  constructor
  · intro h
    apply (redisvFormatCommand_command_iff P (fun _ => 0) hplain).mp
    obtain ⟨cmd, hmake, hcmd⟩ := returns_ropCreate.mp (h HmsetCommands.granted fun _ => 0)
    obtain ⟨cmd', hmake', -, htext⟩ := hbuilds HmsetCommands.granted
    obtain rfl : cmd = cmd' := Except.ok.inj (hmake.symm.trans hmake')
    cases cmd with
    | none =>
      obtain ⟨i, hi⟩ := (hcmd.1 rfl).1 rfl
      exact absurd hi (Option.some_ne_none _)
    | some b =>
      have hformat := hcmd.2 b rfl
      rw [htext b rfl, returns_ok] at hformat
      exact hformat.mono fun f hf => hf.2 f rfl
  · intro h memory fresh
    apply returns_ropCreate.mpr
    refine (hbuilds memory).mono fun cmd hcmd => ⟨fun hnone => ?_, fun b hb => ?_⟩
    · exact ⟨fun _ => hcmd.1 hnone, fun f hf => absurd hf.symm (Option.some_ne_none f)⟩
    · rw [hcmd.2 b hb, returns_ok]
      apply ((redisvFormatCommand_command_iff P fresh hplain).mpr h).mono
      intro f hf
      refine ⟨fun hnone => absurd hnone (Option.some_ne_none f), fun f' hf' => ?_⟩
      rw [← Option.some.inj hf']
      exact hf

/-- `rop_create_or_replace_hash_table` uses the text of the command as a format. When it has no
percent sign, the key and the elements are sent as they are exactly if the text is built within
its block, none of them is empty or has a blank, and the length of the command is an `int`. -/
theorem hmset_sent_iff (P : Printf) (hkey : 0 ∉ key)
    (helements : ∀ e ∈ elements, FitsBuffer HmsetCommands.fieldIdSize e.1 ∧
      FitsBuffer HmsetCommands.valuesIdSize e.2)
    (hplain : ∀ s ∈ hmsetArgv key elements, 37 ∉ s) :
    SendsElements P key elements ↔
      GrowingBlocks.Paced (2 ^ 20) (200 - key.length) (2 ^ 32) (2 ^ 20) 1
          (HmsetCommands.counted elements) ∧
        (Whole (key.take 200) ∧ ∀ e ∈ elements, Whole e.1 ∧ Whole e.2) ∧
        (request (hmsetArgv key elements)).length + 1 < 2 ^ 31 := by
  have hbuilds := (HmsetCommands.builds_iff_room hkey helements).trans
    (HmsetCommands.room_iff_counted helements)
  rw [← hbuilds, ← whole_hmsetArgv]
  constructor
  · intro h
    have hb := builds_of_sendsElements hkey helements h
    exact ⟨hb, (sendsElements_iff P hplain hb).mp h⟩
  · rintro ⟨hb, h⟩
    exact (sendsElements_iff P hplain hb).mpr h

theorem hmset_sent_iff_words : SendsElements plainPrintf [107] [([102], [118])] := by
  refine (hmset_sent_iff plainPrintf (by decide) ?_ (by decide)).mpr ⟨?_, ?_, by decide⟩
  · intro e he
    rw [List.mem_singleton.mp he]
    exact ⟨⟨by decide, by decide⟩, by decide, by decide⟩
  · exact @GrowingBlocks.paced_of_sum_lt (2 ^ 20) _ 4096 _ 1 206 _ (by decide) (by decide)
  · exact ⟨⟨by decide, by decide⟩, by simp [Whole]⟩

end Hmset
end RedisFormats
