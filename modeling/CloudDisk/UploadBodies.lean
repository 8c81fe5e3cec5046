import CloudDisk.CheckedCode
import CloudDisk.DiskHandlers

/-! # Receiving an upload

`recv_save_file` walks through the raw body of a multipart request with `strstr`, copies what
it finds into buffers of fixed size and looks for the end of the data with `memstr`. The buffer
has as many bytes as the body and no terminator, and most results are used without a look.
Positions are offsets into the body. -/
namespace UploadBodies

open ByteStrings CheckedCode DiskHandlers

def tempBufMaxLen : ℕ := 512
def userNameLen : ℕ := 128
def fileNameLen : ℕ := 256
def md5Len : ℕ := 256
def szLen : ℕ := 128

/-- What `malloc` and `open` answer, how many bytes `write` takes, and whether `LOG` is
compiled in. -/
structure Host where
  malloc : ℕ → Bool
  opens : CString → Bool
  writes : List UInt8 → ℕ
  logs : Bool

structure Info where
  user : CString
  filename : CString
  md5 : CString
  deriving DecidableEq

/-- The result 0: the filled buffers, the length given to `ftruncate` and `write`, and the bytes
written. Nothing sensible is written with a negative length. -/
structure Upload extends Info where
  length : ℤ
  data : List UInt8
  deriving DecidableEq

/-! ## The C library -/

def strstr (body : List UInt8) (p : ℕ) : Checked (Option ℕ) := do
  return (← findCrlf (body.drop p)).map (p + ·)

def notNull : Option ℕ → Checked ℕ
  | none => throw .nullPointer
  | some p => pure p

def copyBytes (size : ℕ) (text : CString) : Checked CString :=
  if text.length ≤ size then pure text else throw .overflow

def copyString (size : ℕ) (text : CString) : Checked CString :=
  if text.length < size then pure text else throw .overflow

/-- The strings that successive calls of `strtok` with the separator `|` return. -/
def tokensOf (text : CString) : List CString := (text.splitOn 124).filter (· ≠ [])

def strtok : List CString → Checked (CString × List CString)
  | [] => throw .nullPointer
  | pch :: rest => pure (pch, rest)

def mesgLen : ℕ := 4096

/-- `LOG("[%s]\n", p)` prints into a buffer of its own. -/
def logRest (p : List UInt8) : Checked Unit :=
  if 0 ∈ p then (if (untilNul p).length + 3 < mesgLen then pure () else throw .overflow)
  else throw .outOfBounds

/-- `LOG` of a buffer that may have been filled without a terminator. -/
def logBuffer (size : ℕ) (text : CString) : Checked Unit :=
  if text.length < size then pure () else throw .outOfBounds

def memstr (fullData : List UInt8) (fullDataLen : ℤ) (substr : CString) : Checked (Option ℕ) :=
  if fullDataLen ≤ 0 ∨ substr = [] then return none
  else search substr (fullDataLen - substr.length + 1).toNat fullData

/-! ## The parts of `recv_save_file` -/

def recvBoundary (body : List UInt8) : Checked (Option (CString × ℕ)) := do
  match ← strstr body 0 with
  | none => return none
  | some p => return some (← copyString tempBufMaxLen (body.take p), p + 2)

def readInfo (contentText : CString) : Checked Info := do
  let (pch, rest) ← strtok (tokensOf contentText)
  let user ← copyString userNameLen pch
  let (pch, rest) ← strtok rest
  let filename ← copyString fileNameLen pch
  let (pch, rest) ← strtok rest
  let md5 ← copyString md5Len pch
  let (pch, _) ← strtok rest
  let _ ← copyString szLen pch
  return ⟨user, filename, md5⟩

def recvHeader (host : Host) (body : List UInt8) (begin : ℕ) : Checked ℕ := do
  let p ← notNull (← strstr body begin)
  let contentText ← copyBytes tempBufMaxLen ((body.drop begin).take (p - begin))
  if host.logs then logBuffer tempBufMaxLen contentText
  return p + 2 + 2

def recvInfo (body : List UInt8) (begin : ℕ) : Checked (Option (Info × ℕ)) := do
  match ← strstr body begin with
  | none => return none
  | some p =>
    let contentText ← copyString tempBufMaxLen ((body.drop begin).take (p - begin))
    return some (← readInfo contentText, p + 2)

def skipLine (body : List UInt8) (p : ℕ) : Checked ℕ := do
  return (← notNull (← strstr body p)) + 2

def recvHead (body : List UInt8) (p : ℕ) : Checked ℕ := do
  let p ← skipLine body p
  let p ← skipLine body p
  let p ← skipLine body p
  return p + 2

/-- `open`, `ftruncate` and `write`; the results of the last two are not looked at. -/
def writeFile (host : Host) (info : Info) (begin : List UInt8) (length : ℤ) : Option Upload :=
  if host.opens info.filename then
    let text := begin.take length.toNat
    some { info with length, data := text.take (host.writes text) }
  else none

/-- The length given to `memstr` is `len - (q - p)` with `q` at the start of the body. -/
def recvData (host : Host) (body boundary : CString) (info : Info) (begin : ℕ) :
    Checked (Option Upload) := do
  match ← memstr (body.drop begin) (toInt32 (body.length + begin)) boundary with
  | none => return none
  | some m =>
    if host.logs then logRest ((body.drop begin).drop m)
    return writeFile host info (body.drop begin) (m - 2)

/-- Nothing is the result -1. The number of bytes read is kept in an `int`. -/
def recvSaveFile (host : Host) (body : List UInt8) : Checked (Option Upload) := do
  if !host.malloc body.length then return none
  if toInt32 body.length = 0 then return none
  match ← recvBoundary body with
  | none => return none
  | some (boundary, p) =>
    match ← recvInfo body (← recvHeader host body p) with
    | none => return none
    | some (info, p) => recvData host body boundary info (← recvHead body p)

/-! ## Weakest preconditions -/

section Library
variable {body l rest : List UInt8} {p : ℕ}

theorem returns_strstr {Q : Option ℕ → Prop} : Returns (strstr body p) Q ↔
    (Cut (body.drop p) ∧ Q none) ∨
      ∃ l rest, Line (body.drop p) l rest ∧ Q (some (p + l.length)) := by
  unfold strstr
  rw [returns_bind, returns_findCrlf]
  simp only [returns_pure, Option.map_none, Option.map_some]

theorem returns_notNull {o : Option ℕ} {Q : ℕ → Prop} :
    Returns (notNull o) Q ↔ ∃ p, o = some p ∧ Q p := by
  cases o <;> simp [notNull]

theorem returns_copyBytes {size : ℕ} {text : CString} {Q : CString → Prop} :
    Returns (copyBytes size text) Q ↔ text.length ≤ size ∧ Q text := by
  by_cases h : text.length ≤ size <;> simp [copyBytes, h]

theorem returns_copyString {size : ℕ} {text : CString} {Q : CString → Prop} :
    Returns (copyString size text) Q ↔ text.length < size ∧ Q text := by
  by_cases h : text.length < size <;> simp [copyString, h]

theorem returns_logBuffer {size : ℕ} {text : CString} {Q : Unit → Prop} :
    Returns (logBuffer size text) Q ↔ text.length < size ∧ Q () := by
  by_cases h : text.length < size <;> simp [logBuffer, h]

theorem returns_strtok {tokens : List CString} {Q : CString × List CString → Prop} :
    Returns (strtok tokens) Q ↔ ∃ pch rest, tokens = pch :: rest ∧ Q (pch, rest) := by
  cases tokens <;> simp [strtok]

/-- A NUL ends the text inside the buffer, and what `LOG` makes of it fits. -/
def Loggable (p : List UInt8) : Prop := 0 ∈ p ∧ (untilNul p).length + 3 < mesgLen

theorem returns_logRest {p : List UInt8} {Q : Unit → Prop} :
    Returns (logRest p) Q ↔ Loggable p ∧ Q () := by
  by_cases h0 : 0 ∈ p <;> by_cases h : (untilNul p).length + 3 < mesgLen <;>
    simp [logRest, Loggable, h0, h]

/-- What the positions tried by `memstr` amount to. -/
inductive Searched (fullData : List UInt8) (fullDataLen : ℤ) (substr : CString) :
    Option ℕ → Prop
  | nothing (h : fullDataLen ≤ 0 ∨ substr = []) : Searched fullData fullDataLen substr none
  | found (hpos : 0 < fullDataLen) (hne : substr ≠ []) (m : ℕ)
      (hm : m + substr.length ≤ fullDataLen) (h : FirstAt substr fullData m) :
      Searched fullData fullDataLen substr (some m)
  | missing (hpos : 0 < fullDataLen) (hne : substr ≠ [])
      (h : Missing substr (fullDataLen - substr.length + 1).toNat fullData) :
      Searched fullData fullDataLen substr none

theorem returns_memstr {n : ℤ} {w : CString} {Q : Option ℕ → Prop} :
    Returns (memstr body n w) Q ↔ ∃ o, Searched body n w o ∧ Q o := by
  unfold memstr
  by_cases h : n ≤ 0 ∨ w = []
  · rw [if_pos h, returns_pure]
    constructor
    · intro hq
      exact ⟨none, .nothing h, hq⟩
    · rintro ⟨o, ho, hq⟩
      cases ho with
      | nothing => exact hq
      | found hpos hne => exact absurd h (by simp [hne, hpos])
      | missing hpos hne => exact absurd h (by simp [hne, hpos])
  · rw [if_neg h]
    obtain ⟨hpos, hne⟩ := not_or.mp h
    rw [returns_search hne]
    constructor
    · rintro (⟨m, hm, hfirst, hq⟩ | ⟨hmiss, hq⟩)
      · exact ⟨some m, .found (by omega) hne m (by omega) hfirst, hq⟩
      · exact ⟨none, .missing (by omega) hne hmiss, hq⟩
    · rintro ⟨o, ho, hq⟩
      cases ho with
      | nothing h' => exact absurd h' h
      | found _ _ m hm hfirst => exact Or.inl ⟨m, by omega, hfirst, hq⟩
      | missing _ _ hmiss => exact Or.inr ⟨hmiss, hq⟩

end Library

/-! Where a line of the body ends is determined by what follows it. -/

section Lines
variable {body l rest : List UInt8} {p : ℕ}

theorem line_end (h : Line (body.drop p) l rest) :
    p + l.length + 2 = body.length - rest.length := by
  have hlen := congrArg List.length h.text
  simp only [List.length_drop, List.length_append, List.length_cons] at hlen
  omega

theorem drop_suffix {s : List UInt8} (h : s <:+ body) : body.drop (body.length - s.length) = s :=
  (List.suffix_iff_eq_drop.mp h).symm

theorem drop_line (h : Line (body.drop p) l rest) :
    body.drop (body.length - rest.length) = rest :=
  drop_suffix (h.suffix.trans (List.drop_suffix p body))

theorem take_line (h : Line (body.drop p) l rest) :
    (body.drop p).take (p + l.length - p) = l := by
  rw [Nat.add_sub_cancel_left, h.text, List.take_left]

theorem first_end (h : Line body l rest) : l.length + 2 = body.length - rest.length := by
  have hend := line_end (p := 0) h
  omega

theorem take_first (h : Line body l rest) : body.take l.length = l := by
  rw [h.text, List.take_left]

theorem returns_skipLine {Q : ℕ → Prop} : Returns (skipLine body p) Q ↔
    ∃ l rest, Line (body.drop p) l rest ∧ Q (body.length - rest.length) := by
  unfold skipLine
  simp only [returns_bind, returns_pure, returns_strstr, returns_notNull]
  constructor
  · rintro (⟨-, q, hq, -⟩ | ⟨l, rest, hl, q, hq, h⟩)
    · cases hq
    · cases hq
      exact ⟨l, rest, hl, line_end hl ▸ h⟩
  · rintro ⟨l, rest, hl, h⟩
    exact Or.inr ⟨l, rest, hl, _, rfl, (line_end hl).symm ▸ h⟩

end Lines

/-! ## What has to hold of the parts -/

/-- The tokens of the line with the fields, and that they fit. -/
inductive Fields : CString → Info → Prop
  | intro {text user filename md5 sz : CString} {rest : List CString}
      (tokens : tokensOf text = user :: filename :: md5 :: sz :: rest)
      (huser : user.length < userNameLen) (hfilename : filename.length < fileNameLen)
      (hmd5 : md5.length < md5Len) (hsz : sz.length < szLen) : Fields text ⟨user, filename, md5⟩

/-- A header line that is copied and, if at all, printed. -/
def HeaderFits (host : Host) (h : CString) : Prop :=
  h.length ≤ tempBufMaxLen ∧ (host.logs = true → h.length < tempBufMaxLen)

section Parts
variable {host : Host} {body : List UInt8} {p : ℕ}

theorem returns_recvBoundary {Q : Option (CString × ℕ) → Prop} : Returns (recvBoundary body) Q ↔
    (Cut body ∧ Q none) ∨ ∃ b rest, Line body b rest ∧ b.length < tempBufMaxLen ∧
      Q (some (b, body.length - rest.length)) := by
  unfold recvBoundary
  rw [returns_bind, returns_strstr, List.drop_zero]
  simp only [returns_bind, returns_pure, returns_copyString, Nat.zero_add]
  apply or_congr Iff.rfl
  constructor
  · rintro ⟨b, rest, hb, hlen, hq⟩
    rw [take_first hb] at hlen hq
    exact ⟨b, rest, hb, hlen, first_end hb ▸ hq⟩
  · rintro ⟨b, rest, hb, hlen, hq⟩
    refine ⟨b, rest, hb, ?_⟩
    rw [take_first hb, first_end hb]
    exact ⟨hlen, hq⟩

theorem returns_readInfo {text : CString} {Q : Info → Prop} :
    Returns (readInfo text) Q ↔ ∃ info, Fields text info ∧ Q info := by
  unfold readInfo
  simp only [returns_bind, returns_strtok, returns_copyString, returns_pure]
  constructor
  · rintro ⟨user, _, hu, hul, filename, _, rfl, hfl, md5, _, rfl, hml, sz, rest, rfl, hsl, hq⟩
    exact ⟨_, .intro hu hul hfl hml hsl, hq⟩
  · rintro ⟨info, hf, hq⟩
    cases hf with
    | intro tokens hul hfl hml hsl =>
      exact ⟨_, _, tokens, hul, _, _, rfl, hfl, _, _, rfl, hml, _, _, rfl, hsl, hq⟩

theorem returns_recvHeader {Q : ℕ → Prop} : Returns (recvHeader host body p) Q ↔
    ∃ h s, Line (body.drop p) h s ∧ HeaderFits host h ∧ Q (body.length - s.length + 2) := by
  unfold recvHeader
  simp only [returns_bind, returns_strstr, returns_notNull, returns_copyBytes, returns_ite,
    returns_logBuffer, returns_pure]
  constructor
  · rintro (⟨-, q, hq, -⟩ | ⟨h, s, hl, q, hq, hfit, hrest⟩)
    · cases hq
    · cases hq
      rw [take_line hl] at hfit hrest
      rw [line_end hl] at hrest
      have hlog : host.logs = true → h.length < tempBufMaxLen := fun hlogs => (hrest.1 hlogs).1
      refine ⟨h, s, hl, ⟨hfit, hlog⟩, ?_⟩
      by_cases hlogs : host.logs = true
      · exact (hrest.1 hlogs).2
      · exact hrest.2 hlogs
  · rintro ⟨h, s, hl, ⟨hfit, hlog⟩, hq⟩
    refine Or.inr ⟨h, s, hl, _, rfl, ?_⟩
    rw [take_line hl, line_end hl]
    exact ⟨hfit, fun hlogs => ⟨hlog hlogs, hq⟩, fun _ => hq⟩

theorem returns_recvInfo {Q : Option (Info × ℕ) → Prop} : Returns (recvInfo body p) Q ↔
    (Cut (body.drop p) ∧ Q none) ∨ ∃ t s info, Line (body.drop p) t s ∧
      t.length < tempBufMaxLen ∧ Fields t info ∧ Q (some (info, body.length - s.length)) := by
  unfold recvInfo
  rw [returns_bind, returns_strstr]
  simp only [returns_bind, returns_copyString, returns_readInfo, returns_pure]
  apply or_congr Iff.rfl
  constructor
  · rintro ⟨t, s, hl, hlen, info, hf, hq⟩
    rw [take_line hl] at hlen hf
    exact ⟨t, s, info, hl, hlen, hf, line_end hl ▸ hq⟩
  · rintro ⟨t, s, info, hl, hlen, hf, hq⟩
    refine ⟨t, s, hl, ?_⟩
    rw [take_line hl, line_end hl]
    exact ⟨hlen, info, hf, hq⟩

theorem returns_recvHead {Q : ℕ → Prop} : Returns (recvHead body p) Q ↔
    ∃ l₁ s₁ l₂ s₂ l₃ s₃, Line (body.drop p) l₁ s₁ ∧ Line s₁ l₂ s₂ ∧ Line s₂ l₃ s₃ ∧
      Q (body.length - s₃.length + 2) := by
  unfold recvHead
  simp only [returns_bind, returns_skipLine, returns_pure]
  constructor
  · rintro ⟨l₁, s₁, h₁, l₂, s₂, h₂, l₃, s₃, h₃, hq⟩
    have h₃' := h₃
    rw [drop_line h₂] at h₃'
    rw [drop_line h₁] at h₂
    exact ⟨l₁, s₁, l₂, s₂, l₃, s₃, h₁, h₂, h₃', hq⟩
  · rintro ⟨l₁, s₁, l₂, s₂, l₃, s₃, h₁, h₂, h₃, hq⟩
    have h₂' : Line (body.drop (body.length - s₁.length)) l₂ s₂ := (drop_line h₁).symm ▸ h₂
    exact ⟨l₁, s₁, h₁, l₂, s₂, h₂', l₃, s₃, (drop_line h₂').symm ▸ h₃, hq⟩

/-- The rest of the text, if it is printed. -/
def LogSafe (host : Host) (begin : List UInt8) (o : Option ℕ) : Prop :=
  host.logs = true → ∀ m, o = some m → Loggable (begin.drop m)

theorem returns_recvData {b : CString} {info : Info} {Q : Option Upload → Prop} :
    Returns (recvData host body b info p) Q ↔
      ∃ o, Searched (body.drop p) (toInt32 (body.length + p)) b o ∧
        LogSafe host (body.drop p) o ∧
        Q (o.bind fun m => writeFile host info (body.drop p) (m - 2)) := by
  unfold recvData
  rw [returns_bind, returns_memstr]
  apply exists_congr
  intro o
  apply and_congr_right
  intro _
  cases o with
  | none => simp [LogSafe]
  | some m =>
    by_cases hlogs : host.logs = true
    · simp [LogSafe, hlogs, returns_logRest]
    · simp [LogSafe, hlogs]

end Parts

/-! ## The whole function -/

/-- The boundary, a header line that fits, and what follows after two more bytes. -/
inductive Headed (host : Host) (body : List UInt8) : CString → List UInt8 → Prop
  | intro {b h s₁ s₂ : List UInt8} (hb : Line body b s₁) (hlen : b.length < tempBufMaxLen)
      (hh : Line s₁ h s₂) (hfit : HeaderFits host h) : Headed host body b (s₂.drop 2)

/-- All lines up to the data, which starts after two more bytes. -/
inductive Layout (host : Host) (body : List UInt8) : CString → Info → List UInt8 → Prop
  | intro {b s t s₁ l₁ s₂ l₂ s₃ l₃ s₄ : List UInt8} {info : Info}
      (hd : Headed host body b s) (ht : Line s t s₁) (hlen : t.length < tempBufMaxLen)
      (hinfo : Fields t info) (h₁ : Line s₁ l₁ s₂) (h₂ : Line s₂ l₂ s₃) (h₃ : Line s₃ l₃ s₄) :
      Layout host body b info s₄

def Accepted (host : Host) (body : List UInt8) : Prop :=
  host.malloc body.length = true ∧ toInt32 body.length ≠ 0

/-- The length that `memstr` is told, for data two bytes into the rest `s`. -/
def searchLength (body s : List UInt8) : ℤ :=
  toInt32 (body.length + (body.length - s.length + 2 : ℕ))

/-- All the ways in which `recv_save_file` returns, with what it returns. -/
inductive Recv (host : Host) (body : List UInt8) : Option Upload → Prop
  | refused (h : ¬ Accepted host body) : Recv host body none
  | unmarked (ha : Accepted host body) (cut : Cut body) : Recv host body none
  | uninformed {b s : List UInt8} (ha : Accepted host body) (hd : Headed host body b s)
      (cut : Cut s) : Recv host body none
  | searched {b s : List UInt8} {info : Info} {o : Option ℕ} (ha : Accepted host body)
      (hl : Layout host body b info s) (ho : Searched (s.drop 2) (searchLength body s) b o)
      (hlog : LogSafe host (s.drop 2) o) :
      Recv host body (o.bind fun m => writeFile host info (s.drop 2) (m - 2))

section Whole
variable {host : Host} {body : List UInt8}

theorem Headed.suffix {b s : List UInt8} (h : Headed host body b s) : s <:+ body := by
  cases h with
  | intro hb _ hh _ => exact (List.drop_suffix _ _).trans (hh.suffix.trans hb.suffix)

theorem Layout.suffix {b s : List UInt8} {info : Info} (h : Layout host body b info s) :
    s <:+ body := by
  cases h with
  | intro hd ht _ _ h₁ h₂ h₃ =>
    exact h₃.suffix.trans (h₂.suffix.trans (h₁.suffix.trans (ht.suffix.trans hd.suffix)))

theorem Headed.unique {b s b' s' : List UInt8} (h : Headed host body b s)
    (h' : Headed host body b' s') : b = b' ∧ s = s' := by
  cases h with
  | intro hb _ hh _ =>
    cases h' with
    | intro hb' _ hh' _ =>
      obtain ⟨rfl, rfl⟩ := hb.unique hb'
      obtain ⟨-, rfl⟩ := hh.unique hh'
      exact ⟨rfl, rfl⟩

theorem Fields.unique {text : CString} {info info' : Info} (h : Fields text info)
    (h' : Fields text info') : info = info' := by
  cases h with
  | intro tokens _ _ _ _ =>
    cases h' with
    | intro tokens' _ _ _ _ =>
      simp only [tokens, List.cons.injEq] at tokens'
      obtain ⟨rfl, rfl, rfl, -⟩ := tokens'
      rfl

theorem Layout.unique {b s b' s' : List UInt8} {info info' : Info}
    (h : Layout host body b info s) (h' : Layout host body b' info' s') :
    b = b' ∧ info = info' ∧ s = s' := by
  cases h with
  | intro hd ht _ hf h₁ h₂ h₃ =>
    cases h' with
    | intro hd' ht' _ hf' h₁' h₂' h₃' =>
      obtain ⟨rfl, rfl⟩ := hd.unique hd'
      obtain ⟨rfl, rfl⟩ := ht.unique ht'
      obtain ⟨-, rfl⟩ := h₁.unique h₁'
      obtain ⟨-, rfl⟩ := h₂.unique h₂'
      obtain ⟨-, rfl⟩ := h₃.unique h₃'
      exact ⟨rfl, hf.unique hf', rfl⟩

theorem drop_data {s : List UInt8} (h : s <:+ body) :
    body.drop (body.length - s.length + 2) = s.drop 2 := by
  rw [← List.drop_drop, drop_suffix h]

theorem returns_refused {Q : Option Upload → Prop} (ha : ¬ Accepted host body) :
    Returns (recvSaveFile host body) Q ↔ Q none := by
  unfold recvSaveFile
  by_cases hm : host.malloc body.length = true
  · have hr : toInt32 body.length = 0 := by_contra fun h => ha ⟨hm, h⟩
    simp [hm, hr]
  · simp [hm]

theorem recv_of_returns {Q : Option Upload → Prop} (ha : Accepted host body)
    (h : Returns (recvSaveFile host body) Q) : ∃ r, Recv host body r ∧ Q r := by
  simp only [recvSaveFile, ha.1, ha.2, Bool.not_true, Bool.false_eq_true, if_false, returns_bind,
    returns_recvBoundary, returns_recvHeader, returns_recvInfo, returns_recvHead,
    returns_recvData, returns_pure] at h
  rcases h with ⟨hcut, hq⟩ | ⟨b, s₁, hb, hblen, h, s₂, hh, hfit, hinfo⟩
  · exact ⟨none, .unmarked ha hcut, hq⟩
  · rw [drop_suffix hb.suffix] at hh
    have hd : Headed host body b (s₂.drop 2) := .intro hb hblen hh hfit
    rw [drop_data (hh.suffix.trans hb.suffix)] at hinfo
    rcases hinfo with ⟨hcut, hq⟩ | ⟨t, s₃, info, ht, htlen, hf, hhead⟩
    · exact ⟨none, .uninformed ha hd hcut, hq⟩
    · rw [drop_suffix (ht.suffix.trans hd.suffix)] at hhead
      obtain ⟨l₁, s₄, l₂, s₅, l₃, s₆, h₁, h₂, h₃, o, ho, hlog, hq⟩ := hhead
      have hl : Layout host body b info s₆ := .intro hd ht htlen hf h₁ h₂ h₃
      rw [drop_data hl.suffix] at ho hlog hq
      exact ⟨_, .searched ha hl ho hlog, hq⟩

theorem returns_of_recv {r : Option Upload} (hr : Recv host body r) :
    recvSaveFile host body = .ok r := by
  rw [eq_ok_iff]
  cases hr with
  | refused h => exact (returns_refused h).mpr rfl
  | unmarked ha hcut =>
    simp only [recvSaveFile, ha.1, ha.2, Bool.not_true, Bool.false_eq_true, if_false, returns_bind,
      returns_recvBoundary]
    exact Or.inl ⟨hcut, returns_pure.mpr rfl⟩
  | uninformed ha hd hcut =>
    cases hd with
    | intro hb hblen hh hfit =>
      simp only [recvSaveFile, ha.1, ha.2, Bool.not_true, Bool.false_eq_true, if_false,
        returns_bind, returns_recvBoundary, returns_recvHeader, returns_recvInfo]
      refine Or.inr ⟨_, _, hb, hblen, _, _, (drop_suffix hb.suffix).symm ▸ hh, hfit, ?_⟩
      rw [drop_data (hh.suffix.trans hb.suffix)]
      exact Or.inl ⟨hcut, returns_pure.mpr rfl⟩
  | @searched _ _ _ o ha hl ho hlog =>
    have hlsuffix := hl.suffix
    cases hl with
    | intro hd ht htlen hf h₁ h₂ h₃ =>
      have hdsuffix := hd.suffix
      cases hd with
      | intro hb hblen hh hfit =>
        simp only [recvSaveFile, ha.1, ha.2, Bool.not_true, Bool.false_eq_true, if_false,
          returns_bind, returns_recvBoundary, returns_recvHeader, returns_recvInfo,
          returns_recvHead, returns_recvData]
        refine Or.inr ⟨_, _, hb, hblen, _, _, (drop_suffix hb.suffix).symm ▸ hh, hfit, ?_⟩
        rw [drop_data (hh.suffix.trans hb.suffix)]
        refine Or.inr ⟨_, _, _, ht, htlen, hf, ?_⟩
        rw [drop_suffix (ht.suffix.trans hdsuffix)]
        refine ⟨_, _, _, _, _, _, h₁, h₂, h₃, o, ?_⟩
        rw [drop_data hlsuffix]
        exact ⟨ho, hlog, rfl⟩

theorem returns_recvSaveFile {Q : Option Upload → Prop} :
    Returns (recvSaveFile host body) Q ↔ ∃ r, Recv host body r ∧ Q r := by
  constructor
  · intro h
    by_cases ha : Accepted host body
    · exact recv_of_returns ha h
    · exact ⟨none, .refused ha, (returns_refused ha).mp h⟩
  · rintro ⟨r, hr, hq⟩
    exact ⟨r, returns_of_recv hr, hq⟩

end Whole

/-! ## Bodies that are safe to receive -/

/-- No undefined access, and no negative length with the result 0. -/
def Safe (host : Host) (body : List UInt8) : Prop :=
  Returns (recvSaveFile host body) fun r => ∀ u ∈ r, 0 ≤ u.length

instance decidableSafe (host : Host) (body : List UInt8) : Decidable (Safe host body) :=
  inferInstanceAs (Decidable (Returns _ _))

/-- A NUL stands where a check notices it, or the lines are there and `memstr` can stop before
the end of the body. The two bytes before the place it finds must belong to the data. -/
inductive Handled (host : Host) (body : List UInt8) : Prop
  | refused (h : ¬ Accepted host body)
  | unmarked (cut : Cut body)
  | uninformed {b s : List UInt8} (hd : Headed host body b s) (cut : Cut s)
  | missed {b s : List UInt8} {info : Info} (hl : Layout host body b info s)
      (h : Searched (s.drop 2) (searchLength body s) b none)
  | found {b s : List UInt8} {info : Info} (hl : Layout host body b info s) (m : ℕ)
      (h : Searched (s.drop 2) (searchLength body s) b (some m))
      (hlog : LogSafe host (s.drop 2) (some m)) (hm : host.opens info.filename = true → 2 ≤ m)

section Safety
variable {host : Host} {body : List UInt8}

theorem mem_writeFile {info : Info} {begin : List UInt8} {length : ℤ} {u : Upload}
    (h : writeFile host info begin length = some u) :
    host.opens info.filename = true ∧ u.toInfo = info ∧ u.length = length := by
  unfold writeFile at h
  split at h
  · cases h
    exact ⟨‹_›, rfl, rfl⟩
  · cases h

theorem handled_of_recv {r : Option Upload} (hr : Recv host body r)
    (hpos : ∀ u ∈ r, 0 ≤ u.length) : Handled host body := by
  cases hr with
  | refused h => exact .refused h
  | unmarked _ hcut => exact .unmarked hcut
  | uninformed _ hd hcut => exact .uninformed hd hcut
  | @searched b s info o _ hl ho hlog =>
    cases o with
    | none => exact .missed hl ho
    | some m =>
      refine .found hl m ho hlog fun hopens => ?_
      have hlen := hpos _ (by simp [writeFile, hopens]; rfl)
      simp only at hlen
      omega

theorem recv_of_handled (h : Handled host body) :
    ∃ r, Recv host body r ∧ ∀ u ∈ r, 0 ≤ u.length := by
  by_cases ha : Accepted host body
  · cases h with
    | refused h => exact absurd ha h
    | unmarked hcut => exact ⟨none, .unmarked ha hcut, by simp⟩
    | uninformed hd hcut => exact ⟨none, .uninformed ha hd hcut, by simp⟩
    | missed hl h => exact ⟨_, .searched ha hl h (by simp [LogSafe]), by simp⟩
    | found hl m h hlog hm =>
      refine ⟨_, .searched ha hl h hlog, fun u hu => ?_⟩
      obtain ⟨hopens, -, hlen⟩ := mem_writeFile hu
      have := hm hopens
      omega
  · exact ⟨none, .refused ha, by simp⟩

end Safety

theorem recv_safe_iff (host : Host) (body : List UInt8) :
    Safe host body ↔ Handled host body := by
  unfold Safe
  rw [returns_recvSaveFile]
  constructor
  · rintro ⟨r, hr, hpos⟩
    exact handled_of_recv hr hpos
  · exact recv_of_handled

/-- A host on which nothing fails, with `LOG` compiled out. -/
def quiet : Host := ⟨fun _ => true, fun _ => true, List.length, false⟩

def textOf (lines : List String) : CString := lines.flatMap fun l => cstr l ++ [13, 10]

/-- No line end; no fourth field; nothing after the fields; data that is not closed; and data
that starts with the boundary. -/
def faultyBodies : List (List UInt8) :=
  [cstr "x", textOf ["--x", "h", "", "u|f|m"], textOf ["--x", "h", "", "u|f|m|1"] ++ [0],
    textOf ["--x", "h", "", "u|f|m|1", "--x", "h", "h", "", "d"],
    textOf ["--x", "h", "", "u|f|m|1", "--x", "h", "h", "", "--x"]]

theorem recv_faults :
    (∀ body ∈ faultyBodies, 1 ≤ body.length ∧ ¬ Safe quiet body) ∧
      faultyBodies.map (recvSaveFile quiet) =
        [.error .outOfBounds, .error .nullPointer, .error .nullPointer, .error .outOfBounds,
          .ok (some ⟨⟨cstr "u", cstr "f", cstr "m"⟩, -2, []⟩)] := by
  decide +kernel

end UploadBodies
