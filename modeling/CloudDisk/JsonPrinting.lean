import CloudDisk.HmsetCommands
import CloudDisk.JsonTexts
import CloudDisk.SqlFormats

/-! # The JSON printer of `cJSON.c`

A value is printed into a block that grows as it is filled. `ensure` reserves the bytes of the
next piece; the piece is written behind `offset`, and `offset` is moved on by the writer itself or
by `update_offset`, which looks for the NUL that the writer has left. Every write is checked
against the block, and so is the search for the NUL. Without room the printer gives up. -/
namespace JsonPrinting

open ByteStrings CheckedCode ByteBuffers JsonBodies JsonTexts SqlFormats
open HmsetCommands (Allocations realloc)

/-! ## Items -/

structure Text where
  bytes : CString
  plain : 0 ∉ bytes

/-- A `valuedouble` that `%1.15g` prints in full, and that the items of the programs have. -/
structure Whole where
  value : ℤ
  below : value.natAbs < 10 ^ 15

inductive Item where
  | null
  | bool (b : Bool)
  | number (valuedouble : Whole)
  | string (valuestring : Text)
  | array (items : List Item)
  | object (members : List (Text × Item))

@[elab_as_elim]
theorem Item.tree_induction {P : Item → Prop} (null : P .null) (bool : ∀ b, P (.bool b))
    (number : ∀ n, P (.number n)) (string : ∀ s, P (.string s))
    (array : ∀ items : List Item, (∀ i ∈ items, P i) → P (.array items))
    (object : ∀ members : List (Text × Item), (∀ m ∈ members, P m.2) → P (.object members))
    (i : Item) : P i :=
  @Item.rec P (fun items => ∀ i ∈ items, P i) (fun members => ∀ m ∈ members, P m.2) (fun m => P m.2)
    null bool number string array object (fun _ hi => absurd hi List.not_mem_nil)
    (fun _ _ hhead htail => List.forall_mem_cons.mpr ⟨hhead, htail⟩)
    (fun _ hm => absurd hm List.not_mem_nil)
    (fun _ _ hhead htail => List.forall_mem_cons.mpr ⟨hhead, htail⟩) (fun _ _ h => h) i

/-! ## The block -/

def intMax : ℕ := 2 ^ 31 - 1

/-- `printbuffer`, with the number of allocations that have been made. Its `length` is the number
of bytes of the block. -/
structure PrintBuffer where
  length : ℕ
  buffer : Buffer length
  offset : ℕ
  depth : ℕ
  noalloc : Bool
  format : Bool
  allocations : ℕ

def PrintBuffer.resize (memory : Allocations) (p : PrintBuffer) (newsize : ℕ) :
    Option PrintBuffer :=
  (realloc (memory p.allocations) p.buffer newsize).map fun buffer =>
    { p with length := newsize, buffer, allocations := p.allocations + 1 }

/-- Nothing when there is no room to be had. A block that could not be resized is freed, and
nothing is printed after that. -/
def ensure (memory : Allocations) (p : PrintBuffer) (needed : ℕ) : Option PrintBuffer :=
  if 0 < p.length ∧ p.length ≤ p.offset then none
  else if intMax < needed then none
  else
    let needed := needed + (p.offset + 1)
    if needed ≤ p.length then some p
    else if p.noalloc then none
    else if intMax / 2 < needed then
      if needed ≤ intMax then p.resize memory intMax else none
    else p.resize memory (needed * 2)

def updateOffset (p : PrintBuffer) : Checked PrintBuffer :=
  if 0 ∈ p.buffer.bytes.drop p.offset then
    pure { p with offset := p.offset + (untilNul (p.buffer.bytes.drop p.offset)).length }
  else throw .outOfBounds

def reserve (memory : Allocations) (p : PrintBuffer) (needed : ℕ) : Attempt PrintBuffer :=
  OptionT.mk (pure (ensure memory p needed))

/-- What most writers do: reserve, write behind `offset`, and move it on. -/
def emit (memory : Allocations) (p : PrintBuffer) (needed : ℕ) (bytes : List UInt8)
    (length : ℕ) : Attempt PrintBuffer := do
  let p ← reserve memory p needed
  let buffer ← p.buffer.write p.offset bytes
  return { p with buffer, offset := p.offset + length }

/-! ## Scalars -/

/-- The digits go through `number_buffer`, which has 26 bytes. -/
def printNumber (memory : Allocations) (n : Whole) (p : PrintBuffer) : Attempt PrintBuffer := do
  let numberBuffer ← (Buffer.zeroed 26).strcpy (intText n.value)
  let length := (intText n.value).length
  if 26 - 1 < length then failure
  else emit memory p (length + 1) (numberBuffer.bytes.take length ++ [0]) length

/-- The bytes that an escape needs beyond the one it stands for. -/
def escapeCharacters (b : UInt8) : ℕ :=
  if b = quote ∨ b = backslash ∨ b = 8 ∨ b = 12 ∨ b = 10 ∨ b = 13 ∨ b = 9 then 1
  else if b < 32 then 5
  else 0

/-- The last loop of `print_string_ptr`, with its output pointer as a position. `sprintf` leaves a
NUL behind the digits. -/
def escapeLoop {n : ℕ} : CString → Buffer n → ℕ → Checked (Buffer n)
  | [], output, _ => pure output
  | b :: input, output, pos => do
    if 31 < b ∧ b ≠ quote ∧ b ≠ backslash then
      escapeLoop input (← output.put pos b) (pos + 1)
    else
      let output ← output.put pos backslash
      match shortEscape b with
      | some letter => escapeLoop input (← output.put (pos + 1) letter) (pos + 2)
      | none =>
        let digits := [48, 48, hexLower (b.toNat / 16), hexLower (b.toNat % 16)]
        escapeLoop input (← output.write (pos + 1) (letterU :: digits ++ [0])) (pos + 6)

/-- What stands between the quotes: a copy when no byte has to be escaped. -/
def writeBody {n : ℕ} (input : CString) (output : Buffer n) (pos outputLength : ℕ) :
    Checked (Buffer n) :=
  if (input.map escapeCharacters).sum = 0 then output.write pos (input.take outputLength)
  else escapeLoop input output pos

/-- The closing quote and the NUL, at the end of both branches of `print_string_ptr`. -/
def closeString (p : PrintBuffer) (output : Buffer p.length) (outputLength : ℕ) :
    Checked PrintBuffer := do
  let output ← output.put (p.offset + (outputLength + 1)) quote
  let buffer ← output.put (p.offset + (outputLength + 2)) 0
  return { p with buffer }

/-- A missing string is printed as an empty one. -/
def printStringPtr (memory : Allocations) (input : Option Text) (p : PrintBuffer) :
    Attempt PrintBuffer :=
  match input with
  | none => emit memory p 3 [quote, quote, 0] 0
  | some ⟨input, _⟩ => do
    let outputLength := input.length + (input.map escapeCharacters).sum
    let p ← reserve memory p (outputLength + 3)
    let output ← p.buffer.put p.offset quote
    let output ← writeBody input output (p.offset + 1) outputLength
    closeString p output outputLength

/-! ## Arrays and objects -/

def tab : UInt8 := 9
def newline : UInt8 := 10
def blank : UInt8 := 32

def whenFormat (format : Bool) (l : List UInt8) : List UInt8 := if format then l else []

def printIndent (memory : Allocations) (p : PrintBuffer) : Attempt PrintBuffer :=
  if p.format then emit memory p p.depth (List.replicate p.depth tab) p.depth else pure p

mutual

def printValue (memory : Allocations) : Item → PrintBuffer → Attempt PrintBuffer
  | .null, p => emit memory p 5 (cstr "null" ++ [0]) 0
  | .bool false, p => emit memory p 6 (cstr "false" ++ [0]) 0
  | .bool true, p => emit memory p 5 (cstr "true" ++ [0]) 0
  | .number n, p => printNumber memory n p
  | .string s, p => printStringPtr memory (some s) p
  | .array items, p => do
    let p ← emit memory p 1 [openBracket] 1
    let p ← printElements memory items { p with depth := p.depth + 1 }
    let p ← emit memory p 2 [closeBracket, 0] 0
    return { p with depth := p.depth - 1 }
  | .object members, p => do
    let start := openBrace :: whenFormat p.format [newline]
    let p ← emit memory p (start.length + 1) start start.length
    let p ← printMembers memory members { p with depth := p.depth + 1 }
    let stop := whenFormat p.format (List.replicate (p.depth - 1) tab) ++ [closeBrace, 0]
    let p ← emit memory p (if p.format then p.depth + 1 else 2) stop 0
    return { p with depth := p.depth - 1 }

def printElements (memory : Allocations) : List Item → PrintBuffer → Attempt PrintBuffer
  | [], p => return p
  | i :: next, p => do
    let p ← printValue memory i p
    let p ← updateOffset p
    if next.isEmpty then return p
    else
      let separator := comma :: whenFormat p.format [blank]
      let p ← emit memory p (separator.length + 1) (separator ++ [0]) separator.length
      printElements memory next p

def printMembers (memory : Allocations) : List (Text × Item) → PrintBuffer → Attempt PrintBuffer
  | [], p => return p
  | (name, i) :: next, p => do
    let p ← printIndent memory p
    let p ← printStringPtr memory (some name) p
    let p ← updateOffset p
    let separator := colon :: whenFormat p.format [tab]
    let p ← emit memory p separator.length separator separator.length
    let p ← printValue memory i p
    let p ← updateOffset p
    let stop := (if next.isEmpty then [] else [comma]) ++ whenFormat p.format [newline]
    let p ← emit memory p (stop.length + 1) (stop ++ [0]) stop.length
    printMembers memory next p

end

def allocate (found : Option (ℕ → UInt8)) (size : ℕ) : Option (Buffer size) :=
  found.map fun fresh => ⟨(List.range size).map fresh, by rw [List.length_map, List.length_range]⟩

/-- The block is cut down to the text and its NUL at the end. -/
def print (memory : Allocations) (item : Item) (format : Bool) : Attempt (Σ n, Buffer n) := do
  let buffer ← OptionT.mk (pure (allocate (memory 0) 256))
  let p ← printValue memory item ⟨_, buffer, 0, 0, false, format, 1⟩
  let p ← updateOffset p
  let printed ← OptionT.mk (pure (realloc (memory p.allocations) p.buffer (p.offset + 1)))
  return ⟨_, printed⟩

def cJsonPrint (memory : Allocations) (item : Item) : Attempt (Σ n, Buffer n) :=
  print memory item true

def cJsonPrintUnformatted (memory : Allocations) (item : Item) : Attempt (Σ n, Buffer n) :=
  print memory item false

/-- The block is of the size asked for at first, and is not cut down. -/
def cJsonPrintBuffered (memory : Allocations) (item : Item) (prebuffer : ℤ) (format : Bool) :
    Attempt (Σ n, Buffer n) :=
  if prebuffer < 0 then failure
  else do
    let buffer ← OptionT.mk (pure (allocate (memory 0) prebuffer.toNat))
    let p ← printValue memory item ⟨_, buffer, 0, 0, false, format, 1⟩
    return ⟨_, p.buffer⟩

/-- The block is the caller's. -/
def cJsonPrintPreallocated {n : ℕ} (item : Item) (buffer : Buffer n) (format : Bool) :
    Attempt (Σ n, Buffer n) := do
  let p ← printValue (fun _ => none) item ⟨_, buffer, 0, 0, true, format, 0⟩
  return ⟨_, p.buffer⟩

/-! ## The text that is meant -/

mutual

def Item.text (format : Bool) : ℕ → Item → List UInt8
  | _, .null => cstr "null"
  | _, .bool false => cstr "false"
  | _, .bool true => cstr "true"
  | _, .number n => intText n.value
  | _, .string s => stringText s.bytes
  | depth, .array items => openBracket :: (elementsText format (depth + 1) items ++ [closeBracket])
  | depth, .object members => openBrace :: (whenFormat format [newline] ++
      (objectText format (depth + 1) members ++
        (whenFormat format (List.replicate depth tab) ++ [closeBrace])))

def elementsText (format : Bool) : ℕ → List Item → List UInt8
  | _, [] => []
  | depth, i :: next => i.text format depth ++
      if next.isEmpty then []
      else comma :: (whenFormat format [blank] ++ elementsText format depth next)

def objectText (format : Bool) : ℕ → List (Text × Item) → List UInt8
  | _, [] => []
  | depth, (name, i) :: next => whenFormat format (List.replicate depth tab) ++
      (stringText name.bytes ++ (colon :: (whenFormat format [tab] ++ (i.text format depth ++
        ((if next.isEmpty then [] else [comma]) ++ (whenFormat format [newline] ++
          objectText format depth next))))))

end

/-! ## The states of the block -/

section Block
variable {memory : Allocations} {p p' : PrintBuffer} {text xs tail : List UInt8} {needed : ℕ}

def PrintBuffer.limit (p : PrintBuffer) : ℕ := if p.noalloc then p.length else intMax

structure Ready (p : PrintBuffer) (text : List UInt8) : Prop where
  starts : text <+: p.buffer.bytes
  offset : p.offset = text.length
  room : p.offset < p.length ∨ p.length = 0
  bounded : p.length ≤ intMax

structure Printed (p : PrintBuffer) (text : List UInt8) : Prop where
  starts : text ++ [0] <+: p.buffer.bytes
  offset : p.offset ≤ text.length
  fits : text.length + 2 ≤ p.length
  bounded : p.length ≤ intMax

theorem Ready.at_depth {p : PrintBuffer} {text : List UInt8} (h : Ready p text) (depth : ℕ) :
    Ready { p with depth } text := ⟨h.starts, h.offset, h.room, h.bounded⟩

theorem Printed.at_depth {p : PrintBuffer} {text : List UInt8} (h : Printed p text) (depth : ℕ) :
    Printed { p with depth } text := ⟨h.starts, h.offset, h.fits, h.bounded⟩

structure SameSettings (p p' : PrintBuffer) : Prop where
  format : p'.format = p.format
  noalloc : p'.noalloc = p.noalloc
  limit : p'.limit = p.limit

/-- The block may be resized, and there is an allocation that fails. -/
def Refused (memory : Allocations) (p : PrintBuffer) : Prop :=
  p.noalloc = false ∧ ∃ i, memory i = none

/-- Why a text is not printed: an allocation has failed, or the text and two more bytes are more
than the block can have. -/
def Fails (memory : Allocations) (p : PrintBuffer) (text : List UInt8) : Prop :=
  Refused memory p ∨ p.limit < text.length + 2

/-- The block is in a state with this text and depth, unless the text is not printed. -/
def Yields (memory : Allocations) (p : PrintBuffer) (P : PrintBuffer → List UInt8 → Prop)
    (depth : ℕ) (text : List UInt8) : Option PrintBuffer → Prop
  | none => Fails memory p text
  | some p' => P p' text ∧ p'.depth = depth ∧ SameSettings p p'

theorem SameSettings.rfl : SameSettings p p := ⟨Eq.refl _, Eq.refl _, Eq.refl _⟩

theorem SameSettings.at_depth (depth : ℕ) : SameSettings p { p with depth } :=
  ⟨Eq.refl _, Eq.refl _, Eq.refl _⟩

theorem SameSettings.trans {p₁ p₂ p₃ : PrintBuffer} (h : SameSettings p₁ p₂)
    (h' : SameSettings p₂ p₃) : SameSettings p₁ p₃ :=
  ⟨h'.format.trans h.format, h'.noalloc.trans h.noalloc, h'.limit.trans h.limit⟩

theorem Fails.longer {text' : List UInt8} (h : Fails memory p text)
    (hle : text.length ≤ text'.length) : Fails memory p text' :=
  h.imp_right fun hlt => by omega

theorem Fails.of_same (hsame : SameSettings p p') (h : Fails memory p' text) :
    Fails memory p text := by
  refine h.imp (fun hrefused => ?_) fun hlt => ?_
  · rwa [Refused, hsame.noalloc] at hrefused
  · rwa [hsame.limit] at hlt

theorem Yields.of_same {P : PrintBuffer → List UInt8 → Prop} {depth : ℕ} {o : Option PrintBuffer}
    (hsame : SameSettings p p') (h : Yields memory p' P depth text o) :
    Yields memory p P depth text o := by
  cases o with
  | none => exact Fails.of_same hsame h
  | some p'' => exact ⟨h.1, h.2.1, hsame.trans h.2.2⟩

theorem starts_resize {newsize : ℕ} (hstarts : text <+: p.buffer.bytes)
    (hsize : text.length < newsize) :
    (p.resize memory newsize = none ∧ memory p.allocations = none) ∨
      ∃ p', p.resize memory newsize = some p' ∧ text <+: p'.buffer.bytes ∧
        p'.length = newsize ∧ p'.offset = p.offset ∧ p'.depth = p.depth ∧ p'.format = p.format ∧
        p'.noalloc = p.noalloc := by
  rw [PrintBuffer.resize, realloc, if_neg (by omega)]
  cases hfound : memory p.allocations with
  | none => exact Or.inl ⟨rfl, rfl⟩
  | some fresh =>
    refine Or.inr ⟨_, rfl, ?_, rfl, rfl, rfl, rfl, rfl⟩
    have htake : text <+: p.buffer.bytes.take newsize :=
      (List.prefix_take_iff).mpr ⟨hstarts, hsize.le⟩
    exact htake.trans (List.prefix_append _ _)

theorem ensure_spec (h : Ready p text) (needed : ℕ) :
    (ensure memory p needed = none ∧
        (Refused memory p ∨ p.limit < text.length + needed + 1)) ∨
      ∃ p', ensure memory p needed = some p' ∧ Ready p' text ∧
        text.length + needed + 1 ≤ p'.length ∧ p'.depth = p.depth ∧ SameSettings p p' := by
  have hoffset := h.offset
  have hroom := h.room
  have hbounded := h.bounded
  have hlimit : p.limit ≤ intMax := by
    rw [PrintBuffer.limit]
    split
    · exact hbounded
    · exact Nat.le_refl _
  rw [ensure, if_neg (by omega)]
  by_cases hlarge : intMax < needed
  · rw [if_pos hlarge]
    exact Or.inl ⟨rfl, Or.inr (by omega)⟩
  rw [if_neg hlarge]
  by_cases hfits : needed + (p.offset + 1) ≤ p.length
  · rw [if_pos hfits]
    exact Or.inr ⟨p, rfl, h, by omega, rfl, .rfl⟩
  rw [if_neg hfits]
  by_cases hfixed : p.noalloc = true
  · rw [if_pos hfixed]
    refine Or.inl ⟨rfl, Or.inr ?_⟩
    rw [PrintBuffer.limit, if_pos hfixed]
    omega
  rw [if_neg hfixed]
  -- both sizes that are asked for have the room and stay inside the range
  have hresize : ∀ newsize, needed + (p.offset + 1) ≤ newsize → newsize ≤ intMax →
      (p.resize memory newsize = none ∧
          (Refused memory p ∨ p.limit < text.length + needed + 1)) ∨
        ∃ p', p.resize memory newsize = some p' ∧ Ready p' text ∧
          text.length + needed + 1 ≤ p'.length ∧ p'.depth = p.depth ∧ SameSettings p p' := by
    intro newsize hle hmax
    rcases @starts_resize memory p text newsize h.starts (by omega) with
      ⟨hnone, hrefused⟩ | ⟨p', hsome, hstarts, hlength, hoff, hdepth, hformat, hnoalloc⟩
    · exact Or.inl ⟨hnone, Or.inl ⟨Bool.eq_false_of_not_eq_true hfixed, _, hrefused⟩⟩
    · refine Or.inr ⟨p', hsome, ⟨hstarts, by omega, Or.inl (by omega), by omega⟩, by omega, hdepth,
        hformat, hnoalloc, ?_⟩
      rw [PrintBuffer.limit, PrintBuffer.limit, hnoalloc, if_neg hfixed, if_neg hfixed]
  by_cases hhalf : intMax / 2 < needed + (p.offset + 1)
  · rw [if_pos hhalf]
    by_cases hmax : needed + (p.offset + 1) ≤ intMax
    · rw [if_pos hmax]
      exact hresize intMax hmax (Nat.le_refl _)
    · rw [if_neg hmax]
      exact Or.inl ⟨rfl, Or.inr (by omega)⟩
  · rw [if_neg hhalf]
    exact hresize _ (by omega) (by omega)

theorem returns_write_behind {n : ℕ} {b : Buffer n} {text xs : List UInt8}
    (h : text <+: b.bytes) (hfits : text.length + xs.length ≤ n) {Q : Buffer n → Prop}
    (hQ : ∀ b' : Buffer n, text ++ xs <+: b'.bytes → Q b') :
    Returns (b.write text.length xs) Q := by
  refine (Buffer.returns_write (by omega)).mpr ⟨hfits, hQ _ ?_⟩
  have htake := b.take_overlay text.length xs hfits
  rw [← List.prefix_iff_eq_take.mp h] at htake
  rw [← htake]
  exact List.take_prefix _ _

theorem returns_put_behind {n : ℕ} {b : Buffer n} {text : List UInt8} {x : UInt8}
    (h : text <+: b.bytes) (hfits : text.length < n) {Q : Buffer n → Prop}
    (hQ : ∀ b' : Buffer n, text ++ [x] <+: b'.bytes → Q b') : Returns (b.put text.length x) Q := by
  have hwrite := @returns_write_behind n b text [x] h hfits Q hQ
  simpa only [Buffer.write, returns_bind, returns_pure] using hwrite

theorem returns_reserve_bind (h : Ready p text) {f : PrintBuffer → Attempt PrintBuffer}
    {Q : Option PrintBuffer → Prop}
    (hfail : Refused memory p ∨ p.limit < text.length + needed + 1 → Q none)
    (hok : ∀ p', Ready p' text → text.length + needed + 1 ≤ p'.length → p'.depth = p.depth →
      SameSettings p p' → Returns (f p').run Q) :
    Returns (reserve memory p needed >>= f).run Q := by
  rw [reserve, returns_option_bind]
  rcases @ensure_spec memory p text h needed with
    ⟨hnone, hwhy⟩ | ⟨p', hsome, hready, hfits, hdepth, hsame⟩
  · rw [hnone]
    exact ⟨fun _ => hfail hwhy, fun a ha => absurd ha (by simp)⟩
  · rw [hsome]
    refine ⟨fun hnone => absurd hnone (by simp), fun a ha => ?_⟩
    obtain rfl := Option.some.inj ha
    exact hok p' hready hfits hdepth hsame

theorem Yields.bind {x : Attempt PrintBuffer} {f : PrintBuffer → Attempt PrintBuffer}
    {P P' : PrintBuffer → List UInt8 → Prop} {depth depth' : ℕ} {text text' : List UInt8}
    (hx : Returns x.run (Yields memory p P depth text)) (hle : text.length ≤ text'.length)
    (hf : ∀ p', P p' text → p'.depth = depth → SameSettings p p' →
      Returns (f p').run (Yields memory p' P' depth' text')) :
    Returns (x >>= f).run (Yields memory p P' depth' text') := by
  rw [returns_attempt_bind]
  refine hx.mono fun o ho => ⟨?_, ?_⟩
  · rintro rfl
    exact Fails.longer ho hle
  · rintro p' rfl
    obtain ⟨hp', hdepth, hsame⟩ := ho
    exact (hf p' hp' hdepth hsame).mono fun o' ho' => ho'.of_same hsame

theorem emit_spec (h : Ready p text) (hroom : xs.length ≤ needed) {Q : Option PrintBuffer → Prop}
    {length : ℕ} (hfail : Refused memory p ∨ p.limit < text.length + needed + 1 → Q none)
    (hok : ∀ p', text ++ xs <+: p'.buffer.bytes → text.length + needed + 1 ≤ p'.length →
      p'.length ≤ intMax → p'.offset = text.length + length → p'.depth = p.depth →
      SameSettings p p' → Q (some p')) :
    Returns (emit memory p needed xs length).run Q := by
  rw [emit]
  apply returns_reserve_bind h hfail
  intro p' hready hfits hdepth hsame
  rw [returns_lift_bind, hready.offset]
  apply returns_write_behind hready.starts (by omega)
  intro b hb
  refine returns_attempt_pure.mpr (hok _ hb hfits hready.bounded rfl hdepth ?_)
  exact ⟨hsame.format, hsame.noalloc, hsame.limit⟩

theorem emit_appends (h : Ready p text) (xs tail : List UInt8) {bytes : List UInt8} {length : ℕ}
    (hbytes : bytes = xs ++ tail) (hlength : length = xs.length) (hroom : bytes.length ≤ needed)
    (hneeded : needed ≤ xs.length + 1) :
    Returns (emit memory p needed bytes length).run
      (Yields memory p Ready p.depth (text ++ xs)) := by
  subst hbytes hlength
  apply emit_spec h hroom
  · apply Or.imp_right
    intro hlt
    rw [List.length_append]
    omega
  · intro p' hstarts hfits hbounded hoffset hdepth hsame
    refine ⟨⟨?_, ?_, Or.inl ?_, hbounded⟩, hdepth, hsame⟩
    · rw [← List.append_assoc] at hstarts
      exact (List.prefix_append _ _).trans hstarts
    · rw [hoffset, List.length_append]
    · rw [List.length_append] at hroom
      omega

theorem emit_prints (h : Ready p text) {length : ℕ} (hlength : length ≤ xs.length)
    (hneeded : needed = xs.length + 1) :
    Returns (emit memory p needed (xs ++ [0]) length).run
      (Yields memory p Printed p.depth (text ++ xs)) := by
  apply emit_spec h (by rw [hneeded, List.length_append, List.length_singleton])
  · apply Or.imp_right
    intro hlt
    rw [List.length_append]
    omega
  · intro p' hstarts hfits hbounded hoffset hdepth hsame
    refine ⟨⟨?_, ?_, ?_, hbounded⟩, hdepth, hsame⟩
    · rwa [List.append_assoc]
    · rw [hoffset, List.length_append]
      omega
    · rw [List.length_append]
      omega

theorem updateOffset_spec (h : Printed p text) (hplain : 0 ∉ text) :
    ∃ p', updateOffset p = .ok p' ∧ Ready p' text ∧ p'.depth = p.depth ∧ SameSettings p p' ∧
      text ++ [0] <+: p'.buffer.bytes ∧ p'.offset + 2 ≤ p'.length := by
  obtain ⟨junk, hbytes⟩ := h.starts
  have hdrop : p.buffer.bytes.drop p.offset = text.drop p.offset ++ 0 :: junk := by
    rw [← hbytes, List.append_assoc, List.drop_append_of_le_length h.offset]
    rfl
  have hstrlen : p.offset + (untilNul (p.buffer.bytes.drop p.offset)).length = text.length := by
    have hplain' : 0 ∉ text.drop p.offset := fun h0 => hplain (List.mem_of_mem_drop h0)
    rw [hdrop, Buffer.untilNul_append, untilNul_of_notMem hplain', List.length_drop]
    have := h.offset
    omega
  rw [updateOffset, if_pos (by rw [hdrop]; simp), hstrlen]
  have hfits := h.fits
  refine ⟨_, rfl, ⟨?_, rfl, Or.inl ?_, h.bounded⟩, rfl, ⟨rfl, rfl, rfl⟩, h.starts, hfits⟩
  · exact (List.prefix_append _ _).trans h.starts
  · change text.length < p.length
    omega

theorem updateOffset_yields (h : Printed p text) (hplain : 0 ∉ text) :
    Returns (liftM (updateOffset p) : Attempt PrintBuffer).run
      (Yields memory p Ready p.depth text) := by
  obtain ⟨p', hp', hready, hdepth, hsame, -⟩ := updateOffset_spec h hplain
  rw [returns_attempt_lift, hp', returns_ok]
  exact ⟨hready, hdepth, hsame⟩

end Block

/-! ## Strings -/

section Strings
variable {memory : Allocations} {p : PrintBuffer} {text : List UInt8}

theorem escapeByte_length (b : UInt8) : (escapeByte b).length = 1 + escapeCharacters b := by
  unfold escapeByte shortEscape escapeCharacters
  split_ifs <;> simp_all

theorem escape_length (input : CString) :
    (escape input).length = input.length + (input.map escapeCharacters).sum := by
  induction input with
  | nil => rfl
  | cons b input ih =>
    rw [escape, List.flatMap_cons, List.length_append, escapeByte_length, ← escape, ih]
    simp only [List.length_cons, List.map_cons, List.sum_cons]
    omega

theorem escapeByte_plain {b : UInt8} (hb : 31 < b) (hquote : b ≠ quote) (hslash : b ≠ backslash) :
    escapeByte b = [b] := by
  have hne : ∀ c : UInt8, c ≤ 31 → b ≠ c := by
    rintro c hc rfl
    exact UInt8.not_le.mpr hb hc
  have hshort : shortEscape b = none := by
    rw [shortEscape, if_neg (hne 8 (by decide)), if_neg (hne 9 (by decide)),
      if_neg (hne 10 (by decide)), if_neg (hne 12 (by decide)), if_neg (hne 13 (by decide)),
      if_neg (not_or.mpr ⟨hquote, hslash⟩)]
  have hlt : ¬ b < 32 := by
    intro hlt
    have h1 := UInt8.lt_iff_toNat_lt.mp hlt
    have h2 := UInt8.lt_iff_toNat_lt.mp hb
    simp only [UInt8.reduceToNat] at h1 h2
    omega
  simp only [escapeByte, hshort, hlt, if_false]

theorem escape_eq_self {input : CString} (h : (input.map escapeCharacters).sum = 0) :
    escape input = input := by
  induction input with
  | nil => rfl
  | cons b input ih =>
    rw [List.map_cons, List.sum_cons] at h
    have hb : escapeCharacters b = 0 := by omega
    have hplain : escapeByte b = [b] := by
      rw [escapeCharacters] at hb
      split_ifs at hb with hshort hlt
      rw [not_or, not_or] at hshort
      refine escapeByte_plain ?_ hshort.1 hshort.2.1
      have := UInt8.le_iff_toNat_le.mp (UInt8.not_lt.mp hlt)
      simp only [UInt8.reduceToNat] at this
      exact UInt8.lt_iff_toNat_lt.mpr (by simp only [UInt8.reduceToNat]; omega)
    rw [escape, List.flatMap_cons, hplain, ← escape, ih (by omega)]
    rfl

theorem escapeByte_control {b : UInt8} (h : ¬ (31 < b ∧ b ≠ quote ∧ b ≠ backslash))
    (hshort : shortEscape b = none) : escapeByte b =
      [backslash, letterU, 48, 48, hexLower (b.toNat / 16), hexLower (b.toNat % 16)] := by
  obtain ⟨hquote, hslash⟩ := plain_of_shortEscape hshort
  have hle : ¬ 31 < b := fun hb => h ⟨hb, hquote, hslash⟩
  have hlt : b < 32 := UInt8.lt_of_le_of_lt (UInt8.not_lt.mp hle) (by decide)
  simp only [escapeByte, hshort, hlt, if_true]

theorem escapeLoop_spec {n : ℕ} {input : CString} {output : Buffer n}
    (h : text <+: output.bytes) (hfits : text.length + (escape input).length < n) :
    Returns (escapeLoop input output text.length) fun b => text ++ escape input <+: b.bytes := by
  induction input generalizing output text with
  | nil =>
    rw [escapeLoop, returns_pure]
    simpa [escape] using h
  | cons b input ih =>
    have hcons : escape (b :: input) = escapeByte b ++ escape input := rfl
    rw [hcons, List.length_append] at hfits
    rw [hcons, ← List.append_assoc, escapeLoop]
    -- the rest of the string, behind what the first byte has become
    have hrest : ∀ (output : Buffer n) (bytes : List UInt8), escapeByte b = bytes →
        ∀ tail, text ++ (bytes ++ tail) <+: output.bytes →
        ∀ pos, pos = text.length + bytes.length → Returns (escapeLoop input output pos) fun b' =>
          text ++ escapeByte b ++ escape input <+: b'.bytes := by
      rintro output bytes rfl tail hstarts pos rfl
      rw [← List.append_assoc] at hstarts
      rw [← List.length_append]
      apply ih ((List.prefix_append _ _).trans hstarts)
      rw [List.length_append]
      omega
    by_cases hplain : 31 < b ∧ b ≠ quote ∧ b ≠ backslash
    · rw [if_pos hplain, returns_bind]
      have hbyte := escapeByte_plain hplain.1 hplain.2.1 hplain.2.2
      rw [hbyte] at hfits
      apply returns_put_behind h (by omega)
      intro b' hb'
      exact hrest b' [b] hbyte [] (by simpa using hb') _ rfl
    · rw [if_neg hplain, returns_bind]
      apply returns_put_behind h (by omega)
      intro b₁ hb₁
      have hlength : (text ++ [backslash]).length = text.length + 1 := by simp
      rw [← hlength]
      cases hshort : shortEscape b with
      | some letter =>
        have hbyte : escapeByte b = [backslash, letter] := by simp [escapeByte, hshort]
        rw [hbyte, List.length_cons, List.length_singleton] at hfits
        simp only [returns_bind]
        apply returns_put_behind hb₁ (by omega)
        intro b₂ hb₂
        exact hrest b₂ _ hbyte [] (by simpa using hb₂) _ rfl
      | none =>
        have hbyte := escapeByte_control hplain hshort
        rw [hbyte] at hfits
        simp only [List.length_cons, List.length_nil] at hfits
        simp only [returns_bind]
        refine returns_write_behind hb₁ ?_ fun b₂ hb₂ => ?_
        · simp only [hlength, List.length_append, List.length_cons, List.length_nil]
          omega
        · exact hrest b₂ _ hbyte [0] (by simpa using hb₂) _ rfl

theorem stringText_length (s : CString) : (stringText s).length = (escape s).length + 2 := by
  simp [stringText]

theorem closeString_spec {s : CString} {output : Buffer p.length} (h : Ready p text)
    (houtput : text ++ [quote] ++ escape s <+: output.bytes)
    (hfits : text.length + ((escape s).length + 3) + 1 ≤ p.length) :
    Returns (closeString p output (escape s).length) fun p' =>
      Printed p' (text ++ stringText s) ∧ p'.depth = p.depth ∧ SameSettings p p' := by
  have hoffset := h.offset
  have hquote : p.offset + ((escape s).length + 1) = (text ++ [quote] ++ escape s).length := by
    simp only [hoffset, List.length_append, List.length_singleton]
    omega
  have hnul : p.offset + ((escape s).length + 2) =
      (text ++ [quote] ++ escape s ++ [quote]).length := by
    simp only [hoffset, List.length_append, List.length_singleton]
    omega
  have htext : text ++ stringText s = text ++ [quote] ++ escape s ++ [quote] := by
    simp [stringText]
  have hsize := stringText_length s
  rw [closeString, returns_bind, hquote]
  apply returns_put_behind houtput (by omega)
  intro b₁ hb₁
  rw [returns_bind, hnul]
  refine returns_put_behind hb₁ (by omega) fun b₂ hb₂ => returns_pure.mpr ?_
  refine ⟨⟨?_, ?_, ?_, h.bounded⟩, rfl, rfl, rfl, rfl⟩
  · rwa [htext]
  · change p.offset ≤ _
    rw [hoffset, List.length_append]
    omega
  · change _ ≤ p.length
    rw [List.length_append]
    omega

theorem writeBody_spec {input : CString} {n : ℕ} {output : Buffer n}
    (h : text <+: output.bytes) (hfits : text.length + (escape input).length < n) :
    Returns (writeBody input output text.length (escape input).length)
      fun b => text ++ escape input <+: b.bytes := by
  rw [writeBody]
  split
  next hzero =>
    rw [escape_eq_self hzero] at hfits ⊢
    rw [List.take_length]
    exact returns_write_behind h hfits.le fun b hb => hb
  next => exact escapeLoop_spec h hfits

theorem printStringPtr_spec (h : Ready p text) (s : Text) :
    Returns (printStringPtr memory (some s) p).run
      (Yields memory p Printed p.depth (text ++ stringText s.bytes)) := by
  obtain ⟨input, hplain⟩ := s
  have hsize := stringText_length input
  simp only [printStringPtr, ← escape_length input]
  refine returns_reserve_bind h (Or.imp_right fun hlt => ?_) fun p' hready hfits hdepth hsame => ?_
  · rw [List.length_append]
    omega
  have hoffset := hready.offset
  have hstart : p'.offset + 1 = (text ++ [quote]).length := by
    rw [hoffset, List.length_append, List.length_singleton]
  rw [returns_lift_bind, hoffset]
  apply returns_put_behind hready.starts (by omega)
  intro b hb
  rw [returns_lift_bind, ← hoffset, hstart]
  apply (writeBody_spec hb (by omega)).mono
  intro b' hb'
  rw [returns_attempt_lift]
  apply (closeString_spec hready hb' hfits).mono
  intro p'' hp''
  exact ⟨hp''.1, hp''.2.1.trans hdepth, hsame.trans hp''.2.2⟩

end Strings

/-! ## Values -/

section Values
variable {memory : Allocations} {p : PrintBuffer} {text : List UInt8}

theorem intText_length (n : Whole) : (intText n.value).length ≤ 16 := by
  have hdigits : (natText n.value.natAbs).length ≤ 15 := length_natText_le (by decide) n.below
  rw [intText]
  split
  · rw [List.length_cons]
    omega
  · omega

theorem printNumber_spec (h : Ready p text) (n : Whole) :
    Returns (printNumber memory n p).run
      (Yields memory p Printed p.depth (text ++ intText n.value)) := by
  have hlength := intText_length n
  have hcopy : ((Buffer.zeroed 26).overlay 0 (intText n.value ++ [0])).bytes.take
      (intText n.value).length = intText n.value := by
    have htake := (Buffer.zeroed 26).take_overlay 0 (intText n.value ++ [0]) (by
      rw [List.length_append, List.length_singleton]
      omega)
    rw [List.take_zero, List.nil_append] at htake
    generalize (Buffer.zeroed 26).overlay 0 (intText n.value ++ [0]) = b at htake
    have hstarts : intText n.value ++ [0] <+: b.bytes := by
      rw [← htake]
      exact List.take_prefix _ _
    exact (List.prefix_iff_eq_take.mp ((List.prefix_append _ [0]).trans hstarts)).symm
  rw [printNumber, returns_lift_bind, Buffer.returns_strcpy]
  refine ⟨by omega, ?_⟩
  rw [if_neg (by omega), hcopy]
  exact emit_prints h (Nat.le_refl _) rfl

theorem intText_plain (n : ℤ) : 0 ∉ intText n := by
  have hnat : ∀ k, 0 ∉ natText k := by
    intro k h0
    obtain ⟨d, hd, h0⟩ := mem_natText h0
    interval_cases d <;> simp at h0
  rw [intText]
  split
  · simp [hnat]
  · exact hnat _

theorem whenFormat_plain {format : Bool} {l : List UInt8} (h : 0 ∉ l) :
    0 ∉ whenFormat format l := by
  rw [whenFormat]
  split
  · exact h
  · exact List.not_mem_nil

theorem stringText_plain (s : CString) : 0 ∉ stringText s := by
  simp [stringText, escape_visible, quote]

theorem elementsText_plain {format : Bool} {depth : ℕ} {items : List Item}
    (h : ∀ i ∈ items, 0 ∉ i.text format depth) : 0 ∉ elementsText format depth items := by
  induction items with
  | nil => simp [elementsText]
  | cons i next ih =>
    obtain ⟨hi, hnext⟩ := List.forall_mem_cons.mp h
    have hrest := ih hnext
    have hblank : 0 ∉ whenFormat format [blank] := whenFormat_plain (by decide)
    rw [elementsText]
    split <;> simp [hi, hrest, hblank, comma]

theorem objectText_plain {format : Bool} {depth : ℕ} {members : List (Text × Item)}
    (h : ∀ m ∈ members, 0 ∉ m.2.text format depth) : 0 ∉ objectText format depth members := by
  induction members with
  | nil => simp [objectText]
  | cons m next ih =>
    obtain ⟨hi, hnext⟩ := List.forall_mem_cons.mp h
    have hrest := ih hnext
    have htabs : 0 ∉ whenFormat format (List.replicate depth tab) :=
      whenFormat_plain (by simp [tab])
    have htab : 0 ∉ whenFormat format [tab] := whenFormat_plain (by decide)
    have hline : 0 ∉ whenFormat format [newline] := whenFormat_plain (by decide)
    rw [objectText]
    split <;> simp [hi, hrest, htabs, htab, hline, stringText_plain, colon, comma]

theorem text_plain (format : Bool) (depth : ℕ) (i : Item) : 0 ∉ i.text format depth := by
  induction i using Item.tree_induction generalizing depth with
  | null => rw [Item.text]; decide
  | bool b => cases b <;> rw [Item.text] <;> decide
  | number n => rw [Item.text]; exact intText_plain _
  | string s => rw [Item.text]; exact stringText_plain _
  | array items ih =>
    have helements := @elementsText_plain format (depth + 1) items fun i hi => ih i hi (depth + 1)
    simp [Item.text, helements, openBracket, closeBracket]
  | object members ih =>
    have hmembers := @objectText_plain format (depth + 1) members fun m hm => ih m hm (depth + 1)
    have htabs : 0 ∉ whenFormat format (List.replicate depth tab) :=
      whenFormat_plain (by simp [tab])
    have hline : 0 ∉ whenFormat format [newline] := whenFormat_plain (by decide)
    simp [Item.text, hmembers, htabs, hline, openBrace, closeBrace]

def Prints (memory : Allocations) (i : Item) : Prop :=
  ∀ p text, Ready p text → 0 ∉ text →
    Returns (printValue memory i p).run
      (Yields memory p Printed p.depth (text ++ i.text p.format p.depth))

theorem printElements_spec {items : List Item} (hitems : ∀ i ∈ items, Prints memory i)
    (h : Ready p text) (hplain : 0 ∉ text) :
    Returns (printElements memory items p).run
      (Yields memory p Ready p.depth (text ++ elementsText p.format p.depth items)) := by
  induction items generalizing p text with
  | nil =>
    rw [printElements, elementsText, List.append_nil, returns_attempt_pure]
    exact ⟨h, rfl, .rfl⟩
  | cons i next ih =>
    obtain ⟨hi, hnext⟩ := List.forall_mem_cons.mp hitems
    have hplain₁ : 0 ∉ text ++ i.text p.format p.depth := by simp [hplain, text_plain]
    rw [printElements, elementsText]
    apply Yields.bind (hi p text h hplain) (by simp)
    intro p₁ h₁ hdepth₁ hsame₁
    apply Yields.bind (updateOffset_yields h₁ hplain₁) (by simp)
    intro p₂ h₂ hdepth₂ hsame₂
    have hdepth := hdepth₂.trans hdepth₁
    have hformat := (hsame₁.trans hsame₂).format
    split
    next hlast =>
      rw [List.append_nil, returns_attempt_pure]
      exact ⟨h₂, hdepth, .rfl⟩
    next hmore =>
      rw [hformat]
      refine Yields.bind (emit_appends h₂ _ [0] rfl rfl (by simp) (by simp)) (by simp)
        fun p₃ h₃ hdepth₃ hsame₃ => ?_
      have hplain₃ : 0 ∉ text ++ i.text p.format p.depth ++
          comma :: whenFormat p.format [blank] := by
        simp [hplain, text_plain, comma, whenFormat_plain, blank]
      have hrest := ih hnext h₃ hplain₃
      rw [hsame₃.format, hdepth₃, hformat, hdepth] at hrest
      simpa using hrest

theorem printIndent_spec (h : Ready p text) : Returns (printIndent memory p).run
    (Yields memory p Ready p.depth
      (text ++ whenFormat p.format (List.replicate p.depth tab))) := by
  rw [printIndent, whenFormat]
  split
  · exact emit_appends h _ [] (by simp) (by simp) (by simp) (by simp)
  · rw [List.append_nil, returns_attempt_pure]
    exact ⟨h, rfl, .rfl⟩

theorem printMembers_spec {members : List (Text × Item)}
    (hitems : ∀ m ∈ members, Prints memory m.2) (h : Ready p text) (hplain : 0 ∉ text) :
    Returns (printMembers memory members p).run
      (Yields memory p Ready p.depth (text ++ objectText p.format p.depth members)) := by
  induction members generalizing p text with
  | nil =>
    rw [printMembers, objectText, List.append_nil, returns_attempt_pure]
    exact ⟨h, rfl, .rfl⟩
  | cons m next ih =>
    obtain ⟨name, i⟩ := m
    obtain ⟨hi, hnext⟩ := List.forall_mem_cons.mp hitems
    rw [printMembers, objectText]
    generalize htabs : whenFormat p.format (List.replicate p.depth tab) = tabs
    have htabs0 : 0 ∉ tabs := by
      rw [← htabs]
      exact whenFormat_plain (by simp [tab])
    generalize hstop : (if next.isEmpty = true then [] else [comma]) = stop
    have hstop0 : 0 ∉ stop := by
      rw [← hstop]
      split <;> simp [comma]
    apply Yields.bind (printIndent_spec h) (by simp [htabs])
    intro p₁ h₁ hd₁ hs₁
    rw [htabs] at h₁
    apply Yields.bind (printStringPtr_spec h₁ name) (by simp)
    intro p₂ h₂ hd₂ hs₂
    refine Yields.bind (updateOffset_yields h₂ (by simp [hplain, htabs0, stringText_plain]))
      (by simp) fun p₃ h₃ hd₃ hs₃ => ?_
    have hs := (hs₁.trans hs₂).trans hs₃
    rw [hs.format]
    refine Yields.bind (emit_appends h₃ _ [] (by simp) rfl (by simp) (by simp)) (by simp)
      fun p₄ h₄ hd₄ hs₄ => ?_
    have hs := hs.trans hs₄
    have hd := hd₄.trans (hd₃.trans (hd₂.trans hd₁))
    have hvalue := hi _ _ h₄ (by
      simp [hplain, htabs0, stringText_plain, colon, whenFormat_plain, tab])
    rw [hs.format, hd] at hvalue
    apply Yields.bind hvalue (by simp)
    intro p₅ h₅ hd₅ hs₅
    refine Yields.bind (updateOffset_yields h₅ (by
      simp [hplain, htabs0, stringText_plain, colon, whenFormat_plain, tab, text_plain]))
      (by simp) fun p₆ h₆ hd₆ hs₆ => ?_
    have hs := (hs.trans hs₅).trans hs₆
    have hd := hd₆.trans hd₅
    rw [hs.format]
    refine Yields.bind (emit_appends h₆ _ [0] rfl rfl (by simp [Nat.add_assoc]) (by simp)) (by simp)
      fun p₇ h₇ hd₇ hs₇ => ?_
    have hrest := ih hnext h₇ (by
      simp [hplain, htabs0, stringText_plain, colon, whenFormat_plain, tab, text_plain, hstop0,
        newline])
    rw [(hs.trans hs₇).format, hd₇.trans hd] at hrest
    simpa using hrest

theorem printValue_spec (i : Item) : Prints memory i := by
  induction i using Item.tree_induction with
  | null =>
    intro p text h hplain
    rw [printValue, Item.text]
    exact emit_prints h (Nat.zero_le _) (by decide)
  | bool b =>
    intro p text h hplain
    cases b <;> rw [printValue, Item.text] <;> exact emit_prints h (Nat.zero_le _) (by decide)
  | number n =>
    intro p text h hplain
    rw [printValue, Item.text]
    exact printNumber_spec h n
  | string s =>
    intro p text h hplain
    rw [printValue, Item.text]
    exact printStringPtr_spec h s
  | array items ih =>
    intro p text h hplain
    rw [printValue, Item.text]
    refine Yields.bind (emit_appends h [openBracket] [] rfl rfl (by simp) (by simp)) (by simp)
      fun p₁ h₁ hd₁ hs₁ => ?_
    have helements : Returns (printElements memory items { p₁ with depth := p₁.depth + 1 }).run
        (Yields memory p₁ Ready (p.depth + 1)
          (text ++ [openBracket] ++ elementsText p.format (p.depth + 1) items)) := by
      rw [← hs₁.format, ← hd₁]
      exact (printElements_spec ih (h₁.at_depth _) (by simp [hplain, openBracket])).mono
        fun o ho => ho.of_same (.at_depth _)
    apply Yields.bind helements (by simp)
    intro p₂ h₂ hd₂ hs₂
    refine Yields.bind (emit_prints h₂ (Nat.zero_le [closeBracket].length) rfl) (by simp)
      fun p₃ h₃ hd₃ hs₃ => ?_
    have hdepth : p₃.depth - 1 = p.depth := by omega
    rw [returns_attempt_pure]
    exact ⟨by simpa using h₃.at_depth _, hdepth, .at_depth _⟩
  | object members ih =>
    intro p text h hplain
    have hline : 0 ∉ whenFormat p.format [newline] := whenFormat_plain (by decide)
    rw [printValue, Item.text]
    refine Yields.bind (emit_appends h (openBrace :: whenFormat p.format [newline]) []
      (by simp) rfl (by simp) (by simp)) (by simp) fun p₁ h₁ hd₁ hs₁ => ?_
    have hmembers : Returns (printMembers memory members { p₁ with depth := p₁.depth + 1 }).run
        (Yields memory p₁ Ready (p.depth + 1) (text ++ openBrace :: whenFormat p.format [newline] ++
          objectText p.format (p.depth + 1) members)) := by
      rw [← hs₁.format] at h₁ hline ⊢
      rw [← hd₁]
      exact (printMembers_spec ih (h₁.at_depth _) (by simp [hplain, openBrace, hline])).mono
        fun o ho => ho.of_same (.at_depth _)
    apply Yields.bind hmembers (by simp)
    intro p₂ h₂ hd₂ hs₂
    have hstop : whenFormat p₂.format (List.replicate (p₂.depth - 1) tab) ++ [closeBrace, 0] =
        whenFormat p.format (List.replicate p.depth tab) ++ [closeBrace] ++ [0] := by
      rw [(hs₁.trans hs₂).format, hd₂]
      simp
    have hneeded : (if p₂.format = true then p₂.depth + 1 else 2) =
        (whenFormat p.format (List.replicate p.depth tab) ++ [closeBrace]).length + 1 := by
      rw [(hs₁.trans hs₂).format, hd₂, whenFormat]
      split <;> simp
    rw [hstop, hneeded]
    apply Yields.bind (emit_prints h₂ (Nat.zero_le _) rfl) (by simp)
    intro p₃ h₃ hd₃ hs₃
    have hdepth : p₃.depth - 1 = p.depth := by omega
    rw [returns_attempt_pure]
    exact ⟨by simpa using h₃.at_depth _, hdepth, .at_depth _⟩

end Values

/-! ## Whole texts -/

section Texts
variable {memory : Allocations}

/-- What the printers return: nothing for the reason given, or a block. -/
def Gives (why : Prop) (P : (Σ n, Buffer n) → Prop) : Option (Σ n, Buffer n) → Prop
  | none => why
  | some b => P b

theorem ready_nil {n : ℕ} {b : Buffer n} {noalloc format : Bool} {allocations : ℕ}
    (hn : n ≤ intMax) : Ready ⟨n, b, 0, 0, noalloc, format, allocations⟩ [] :=
  ⟨List.nil_prefix, rfl, (Nat.eq_zero_or_pos n).symm, hn⟩

theorem printValue_nil (item : Item) {n : ℕ} {b : Buffer n} {noalloc format : Bool}
    {allocations : ℕ} (hn : n ≤ intMax) :
    Returns (printValue memory item ⟨n, b, 0, 0, noalloc, format, allocations⟩).run
      (Yields memory ⟨n, b, 0, 0, noalloc, format, allocations⟩ Printed 0 (item.text format 0)) :=
  printValue_spec item _ [] (ready_nil hn) List.not_mem_nil

theorem realloc_whole {n : ℕ} {b : Buffer n} {text : List UInt8} {found : Option (ℕ → UInt8)}
    (h : text <+: b.bytes) (hpos : 0 < text.length) {b' : Buffer text.length}
    (hb' : realloc found b text.length = some b') : b'.bytes = text := by
  rw [realloc, if_neg (by omega)] at hb'
  obtain ⟨fresh, -, rfl⟩ := Option.map_eq_some_iff.mp hb'
  have hle : text.length ≤ n := by
    have := h.length_le
    rwa [b.length_eq] at this
  simp only [Nat.sub_eq_zero_of_le hle, List.range_zero, List.map_nil, List.append_nil]
  exact (List.prefix_iff_eq_take.mp h).symm

/-- Whatever the allocations do, nothing outside the block is read or written, and the block that
is returned is the text and its NUL. -/
theorem print_spec (memory : Allocations) (item : Item) (format : Bool) :
    Returns (print memory item format).run
      (Gives ((∃ i, memory i = none) ∨ intMax < (item.text format 0).length + 2)
        fun b => b.2.bytes = item.text format 0 ++ [0]) := by
  rw [print, returns_option_bind]
  refine ⟨fun hnone => Or.inl ⟨0, by simpa [allocate] using hnone⟩, fun buffer hbuffer => ?_⟩
  rw [returns_attempt_bind]
  refine (printValue_nil item (by decide)).mono fun o ho => ⟨?_, ?_⟩
  · rintro rfl
    exact ho.imp_left And.right
  · rintro p rfl
    obtain ⟨p', hp', hready, -, -, hstarts, -⟩ := updateOffset_spec ho.1 (text_plain format 0 item)
    rw [returns_lift_bind, hp', returns_ok, returns_option_bind]
    have hlength : p'.offset + 1 = (item.text format 0 ++ [0]).length := by
      rw [hready.offset, List.length_append, List.length_singleton]
    rw [hlength]
    refine ⟨fun hnone => Or.inl ⟨p'.allocations, ?_⟩, fun b hb => ?_⟩
    · rw [realloc, if_neg (by simp)] at hnone
      simpa using hnone
    · exact returns_attempt_pure.mpr (realloc_whole hstarts (by simp) hb)

/-- The caller's block is filled exactly when it has two bytes more than the text. -/
theorem printPreallocated_spec (item : Item) {n : ℕ} (buffer : Buffer n) (format : Bool)
    (hn : n ≤ intMax) :
    Returns (cJsonPrintPreallocated item buffer format).run
      (Gives (n < (item.text format 0).length + 2) fun b =>
        (item.text format 0).length + 2 ≤ n ∧ b.1 = n ∧
          item.text format 0 ++ [0] <+: b.2.bytes) := by
  rw [cJsonPrintPreallocated, returns_attempt_bind]
  refine (printValue_nil item hn).mono fun o ho => ⟨?_, ?_⟩
  · rintro rfl
    rcases ho with hrefused | hlt
    · exact absurd hrefused.1 (by simp)
    · exact hlt
  · rintro p rfl
    obtain ⟨hprinted, -, hsame⟩ := ho
    have hlength : p.length = n := by
      have hlimit := hsame.limit
      rwa [PrintBuffer.limit, hsame.noalloc] at hlimit
    refine returns_attempt_pure.mpr ⟨?_, hlength, hprinted.starts⟩
    rw [← hlength]
    exact hprinted.fits

/-- Six bytes are just enough for `null`. -/
theorem printPreallocated_null :
    Returns (cJsonPrintPreallocated .null (Buffer.zeroed 6) false).run
      (Gives (6 < (Item.null.text false 0).length + 2) fun b =>
        (Item.null.text false 0).length + 2 ≤ 6 ∧ b.1 = 6 ∧
          Item.null.text false 0 ++ [0] <+: b.2.bytes) :=
  printPreallocated_spec .null (Buffer.zeroed 6) false (by decide)

theorem printBuffered_spec (memory : Allocations) (item : Item) {prebuffer : ℤ} (format : Bool)
    (hlow : 0 ≤ prebuffer) (hhigh : prebuffer ≤ intMax) :
    Returns (cJsonPrintBuffered memory item prebuffer format).run
      (Gives ((∃ i, memory i = none) ∨ intMax < (item.text format 0).length + 2)
        fun b => item.text format 0 ++ [0] <+: b.2.bytes) := by
  rw [cJsonPrintBuffered, if_neg (by omega), returns_option_bind]
  refine ⟨fun hnone => Or.inl ⟨0, by simpa [allocate] using hnone⟩, fun buffer hbuffer => ?_⟩
  rw [returns_attempt_bind]
  refine (printValue_nil item (by omega)).mono fun o ho => ⟨?_, ?_⟩
  · rintro rfl
    exact ho.imp_left And.right
  · rintro p rfl
    exact returns_attempt_pure.mpr ho.1.starts

end Texts

end JsonPrinting
