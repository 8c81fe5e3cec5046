import CloudDisk.ByteBuffers
import CloudDisk.GrowingBlocks

/-! # Building a command in a block that grows

`make_hmset_command` puts a command together in a block of one MiB. `use_size` counts what has
been appended, and the key always as 200 bytes; `buf_size` counts the MiBs. They are compared after
each append, and a block that is found full is resized to `use_size` and another MiB. The block, and
not `buf_size`, is what the next append has to fit. -/
namespace HmsetCommands

open ByteStrings CheckedCode ByteBuffers GrowingBlocks

/-- How the allocations end, by their number: the bytes that are found there, or NULL. -/
abbrev Allocations := ℕ → Option (ℕ → UInt8)

/-- `realloc`; with the size zero it frees the block. -/
def realloc {n : ℕ} (found : Option (ℕ → UInt8)) (b : Buffer n) (size : ℕ) :
    Option (Buffer size) :=
  if size = 0 then none
  else found.map fun fresh => ⟨b.bytes.take size ++ (List.range (size - n)).map fresh, by
    rw [List.length_append, List.length_take, List.length_map, List.length_range, b.length_eq]
    omega⟩

/-- The variables of the function, and the number of allocations it has made. -/
structure Cmd where
  size : ℕ
  cmd : Buffer size
  useSize : ℕ
  bufSize : ℕ
  allocations : ℕ

/-- `if (use_size >= buf_size)`, which follows every append of the loop. -/
def Cmd.grow (memory : Allocations) (c : Cmd) : Option Cmd :=
  if c.bufSize ≤ c.useSize then
    (realloc (memory c.allocations) c.cmd ((c.useSize + 1024 * 1024) % 2 ^ 32)).map fun cmd =>
      ⟨_, cmd, c.useSize, (c.bufSize + 1024 * 1024) % 2 ^ 32, c.allocations + 1⟩
  else some c

def Cmd.append (memory : Allocations) (c : Cmd) (s : CString) (limit : ℕ) :
    Checked (Option Cmd) := do
  let cmd ← c.cmd.strncat s limit
  return Cmd.grow memory { c with cmd, useSize := (c.useSize + s.length) % 2 ^ 32 }

def fieldIdSize : ℕ := 100

def valuesIdSize : ℕ := 1024

def elementsLoop (memory : Allocations) : Cmd → List (CString × CString) → Checked (Option Cmd)
  | c, [] => pure (some c)
  | c, (field, value) :: elements => do
    let some c ← c.append memory (cstr " ") 1 | return none
    let some c ← c.append memory field fieldIdSize | return none
    let some c ← c.append memory (cstr " ") 1 | return none
    let some c ← c.append memory value valuesIdSize | return none
    elementsLoop memory c elements

def makeHmsetCommand (memory : Allocations) (key : CString) (elements : List (CString × CString)) :
    Checked (Option (Σ n, Buffer n)) :=
  match memory 0 with
  | none => pure none
  | some _ => do
    let cmd := Buffer.zeroed (1024 * 1024)
    let cmd ← cmd.strncat (cstr "hmset") 6
    let cmd ← cmd.strncat (cstr " ") 1
    let cmd ← cmd.strncat key 200
    -- the key counts as 200 bytes, however short it is
    let c ← elementsLoop memory ⟨_, cmd, 5 + 1 + 200, 1024 * 1024, 1⟩ elements
    return c.map fun c => ⟨c.size, c.cmd⟩

/-! ## The appends one by one -/

/-- What the loop appends, each with the most that is copied of it. -/
def pieces (elements : List (CString × CString)) : List (CString × ℕ) :=
  elements.flatMap fun e =>
    [(cstr " ", 1), (e.1, fieldIdSize), (cstr " ", 1), (e.2, valuesIdSize)]

def Cmd.appendAll (memory : Allocations) : Cmd → List (CString × ℕ) → Checked (Option Cmd)
  | c, [] => pure (some c)
  | c, (s, limit) :: ps => do
    let some c ← c.append memory s limit | return none
    c.appendAll memory ps

theorem elementsLoop_eq (memory : Allocations) (elements : List (CString × CString)) (c : Cmd) :
    elementsLoop memory c elements = c.appendAll memory (pieces elements) := by
  induction elements generalizing c with
  | nil => rfl
  | cons e elements ih =>
    rw [pieces, List.flatMap_cons, ← pieces]
    simp only [elementsLoop, ih, List.cons_append, List.nil_append, Cmd.appendAll]

section Appends
variable {memory : Allocations} {c : Cmd} {surplus limit : ℕ} {text s : CString}
  {ps : List (CString × ℕ)}

theorem returns_appendAll_cons {Q : Option Cmd → Prop} :
    Returns (c.appendAll memory ((s, limit) :: ps)) Q ↔
      Returns (c.append memory s limit) fun o =>
        (o = none → Q none) ∧ ∀ c', o = some c' → Returns (c'.appendAll memory ps) Q := by
  rw [Cmd.appendAll, returns_bind]
  refine iff_of_eq (congrArg _ (funext fun o => propext ?_))
  cases o with
  | none => simp
  | some c' => simp

/-- The string is shorter than `use_size` by what the key does not have of its 200 bytes. -/
structure Keeps (c : Cmd) (surplus : ℕ) (text : CString) : Prop where
  holds : c.cmd.Holds text
  plain : 0 ∉ text
  used : c.useSize = text.length + surplus

structure Ready (c : Cmd) (surplus : ℕ) (text : CString) : Prop extends Keeps c surplus text where
  below : c.useSize < c.bufSize
  marked : ∃ g < 4096, c.bufSize = g * 2 ^ 20

structure Piece (p : CString × ℕ) : Prop where
  plain : 0 ∉ p.1
  whole : p.1.length ≤ p.2
  short : p.1.length ≤ 2 ^ 20

/-- The string with the piece at its end, before the sizes are compared. -/
def Cmd.appended (c : Cmd) (text s : CString) : Cmd :=
  { c with cmd := c.cmd.overlay text.length (s ++ [0]), useSize := c.useSize + s.length }

theorem Ready.sum_lt (h : Ready c surplus text) (hs : Piece (s, limit)) :
    c.useSize + s.length < 2 ^ 32 := by
  obtain ⟨g, hg, hmark⟩ := h.marked
  have hbelow := h.below
  have hshort : s.length ≤ 2 ^ 20 := hs.short
  omega

theorem returns_append {Q : Option Cmd → Prop} (h : Ready c surplus text)
    (hs : Piece (s, limit)) : Returns (c.append memory s limit) Q ↔
      c.useSize + s.length < c.size + surplus ∧ Q ((c.appended text s).grow memory) := by
  have hused := h.used
  have hfits : text.length + s.length < c.size ↔ c.useSize + s.length < c.size + surplus := by
    omega
  have htake : s.take limit = s := List.take_of_length_le hs.whole
  rw [Cmd.append, returns_bind, Buffer.returns_strncat h.holds h.plain, htake, returns_pure,
    Nat.mod_eq_of_lt (h.sum_lt hs), hfits, Cmd.appended]

theorem Ready.appended (h : Ready c surplus text) (hs : Piece (s, limit))
    (hfits : c.useSize + s.length < c.size + surplus) :
    Keeps (c.appended text s) surplus (text ++ s) := by
  have hused := h.used
  have hholds : c.cmd.Holds (text ++ []) := by
    rw [List.append_nil]
    exact h.holds
  refine ⟨hholds.overlay (by omega), ?_, ?_⟩
  · rw [List.mem_append]
    rintro (h0 | h0)
    · exact h.plain h0
    · exact hs.plain h0
  · rw [List.length_append]
    change c.useSize + s.length = _
    omega

theorem grow_below (h : c.useSize < c.bufSize) : c.grow memory = some c := by
  rw [Cmd.grow, if_neg (Nat.not_le.mpr h)]

theorem holds_realloc {n size : ℕ} {b : Buffer n} {fresh : ℕ → UInt8} (h : b.Holds text)
    (hsize : text.length < size) :
    ∃ b', realloc (some fresh) b size = some b' ∧ b'.Holds text := by
  obtain ⟨junk, hbytes⟩ := h
  obtain ⟨k, rfl⟩ : ∃ k, size = text.length + (k + 1) := ⟨size - text.length - 1, by omega⟩
  refine ⟨_, if_neg (by omega),
    junk.take k ++ (List.range (text.length + (k + 1) - n)).map fresh, ?_⟩
  simp only [hbytes, List.take_length_add_append, List.take_succ_cons, List.append_assoc,
    List.cons_append]

theorem Keeps.grow (h : Keeps c surplus text) (hreach : c.bufSize ≤ c.useSize)
    (hbound : c.useSize + 2 ^ 20 < 2 ^ 32) {fresh : ℕ → UInt8}
    (hmemory : memory c.allocations = some fresh) :
    ∃ c', c.grow memory = some c' ∧ Keeps c' surplus text ∧ c'.useSize = c.useSize ∧
      c'.bufSize = c.bufSize + 2 ^ 20 ∧ c'.size = c.useSize + 2 ^ 20 := by
  have hused := h.used
  have hsize : (c.useSize + 1024 * 1024) % 2 ^ 32 = c.useSize + 2 ^ 20 := by omega
  have hbuf : (c.bufSize + 1024 * 1024) % 2 ^ 32 = c.bufSize + 2 ^ 20 := by omega
  obtain ⟨cmd, hcmd, hholds⟩ : ∃ cmd, realloc (some fresh) c.cmd (c.useSize + 2 ^ 20) = some cmd ∧
      cmd.Holds text := holds_realloc h.holds (by omega)
  refine ⟨⟨_, cmd, c.useSize, c.bufSize + 2 ^ 20, c.allocations + 1⟩, ?_,
    ⟨hholds, h.plain, hused⟩, rfl, rfl, rfl⟩
  rw [Cmd.grow, if_pos hreach, hmemory, hsize, hbuf, hcmd, Option.map_some]

theorem grow_failed (hreach : c.bufSize ≤ c.useSize) (hmemory : memory c.allocations = none) :
    c.grow memory = none := by
  rw [Cmd.grow, if_pos hreach, hmemory, realloc]
  split <;> rfl

theorem Keeps.lost (h : Keeps c surplus text) (hsurplus : surplus ≤ 200)
    (hreach : c.bufSize ≤ c.useSize) (hlt : c.useSize < 2 ^ 32)
    (hwrap : 2 ^ 32 ≤ c.useSize + 2 ^ 20) {c' : Cmd} (hgrow : c.grow memory = some c') :
    0 ∉ c'.cmd.bytes := by
  have hused := h.used
  have hsize : (c.useSize + 1024 * 1024) % 2 ^ 32 ≤ text.length := by omega
  obtain ⟨junk, hbytes⟩ := h.holds
  have hroom := h.holds.length_lt
  rw [Cmd.grow, if_pos hreach] at hgrow
  obtain ⟨cmd, hcmd, rfl⟩ := Option.map_eq_some_iff.mp hgrow
  rw [realloc] at hcmd
  split at hcmd
  · cases hcmd
  · obtain ⟨fresh, -, rfl⟩ := Option.map_eq_some_iff.mp hcmd
    have hnone : (c.useSize + 1024 * 1024) % 2 ^ 32 - c.size = 0 := by omega
    simp only [hnone, List.range_zero, List.map_nil, List.append_nil, hbytes,
      List.take_append_of_le_length hsize]
    exact fun h0 => h.plain (List.mem_of_mem_take h0)

theorem lost_fails (h : 0 ∉ c.cmd.bytes) :
    ¬ Returns (c.appendAll memory ps) fun o => ∃ c', o = some c' ∧ 0 ∈ c'.cmd.bytes := by
  cases ps with
  | nil =>
    rw [Cmd.appendAll, returns_pure]
    rintro ⟨c', hc, h0⟩
    cases hc
    exact h h0
  | cons p ps =>
    rw [returns_appendAll_cons, Cmd.append, Buffer.strncat, Buffer.text, if_neg h, returns_bind,
      returns_bind]
    exact returns_throw

/-! ## A whole run -/

theorem Ready.append_below (h : Ready c surplus text) (hs : Piece (s, limit))
    (hfits : c.useSize + s.length < c.size + surplus) (hbelow : c.useSize + s.length < c.bufSize) :
    (c.appended text s).grow memory = some (c.appended text s) ∧
      Ready (c.appended text s) surplus (text ++ s) :=
  ⟨grow_below hbelow, h.appended hs hfits, hbelow, h.marked⟩

theorem Ready.append_reaching (h : Ready c surplus text) (hs : Piece (s, limit))
    (hfits : c.useSize + s.length < c.size + surplus) (hreach : c.bufSize ≤ c.useSize + s.length)
    (hbound : c.useSize + s.length + 2 ^ 20 < 2 ^ 32) {fresh : ℕ → UInt8}
    (hmemory : memory c.allocations = some fresh) :
    ∃ c', (c.appended text s).grow memory = some c' ∧ Ready c' surplus (text ++ s) ∧
      c'.useSize = c.useSize + s.length ∧ c'.bufSize = c.bufSize + 2 ^ 20 ∧
      c'.size = c.useSize + s.length + 2 ^ 20 := by
  obtain ⟨c', hgrow, hkeeps, hused, hbuf, hsize⟩ :=
    (h.appended hs hfits).grow hreach hbound hmemory
  obtain ⟨g, hg, hmark⟩ := h.marked
  have hbelow := h.below
  have hshort : s.length ≤ 2 ^ 20 := hs.short
  change c'.useSize = c.useSize + s.length at hused
  change c'.bufSize = c.bufSize + 2 ^ 20 at hbuf
  exact ⟨c', hgrow, ⟨hkeeps, by omega, g + 1, by omega, by omega⟩, hused, hbuf, hsize⟩

/-- One append of pieces that have room: it fits, it fails only with the memory, and the pieces that
are left have room again. -/
theorem Ready.step {lengths : List ℕ} (h : Ready c surplus text) (hs : Piece (s, limit))
    (hroom : Room (2 ^ 20) surplus (2 ^ 32) c.size c.bufSize c.useSize (s.length :: lengths)) :
    c.useSize + s.length < c.size + surplus ∧
      ((c.appended text s).grow memory = none → memory c.allocations = none) ∧
      ∀ c', (c.appended text s).grow memory = some c' → Ready c' surplus (text ++ s) ∧
        Room (2 ^ 20) surplus (2 ^ 32) c'.size c'.bufSize c'.useSize lengths := by
  rw [Room] at hroom
  obtain ⟨hfits, hroom⟩ := hroom
  refine ⟨hfits, ?_⟩
  by_cases hreach : c.bufSize ≤ c.useSize + s.length
  · rw [if_pos hreach] at hroom
    obtain ⟨hbound, hroom⟩ := hroom
    cases hmemory : memory c.allocations with
    | none =>
      have hgrow : (c.appended text s).grow memory = none := grow_failed hreach hmemory
      rw [hgrow]
      exact ⟨fun _ => rfl, fun c' hc => absurd hc.symm (Option.some_ne_none c')⟩
    | some fresh =>
      obtain ⟨c', hgrow, hready, hused, hbuf, hsize⟩ :=
        h.append_reaching hs hfits hreach hbound hmemory
      rw [hgrow]
      refine ⟨fun hnone => absurd hnone (Option.some_ne_none c'), fun c'' hc => ?_⟩
      cases hc
      rw [hsize, hbuf, hused]
      exact ⟨hready, hroom⟩
  · rw [if_neg hreach] at hroom
    obtain ⟨hgrow, hready⟩ : (c.appended text s).grow memory = _ ∧ _ :=
      h.append_below hs hfits (Nat.not_le.mp hreach)
    rw [hgrow]
    refine ⟨fun hnone => absurd hnone (Option.some_ne_none _), fun c' hc => ?_⟩
    cases hc
    exact ⟨hready, hroom⟩

theorem appendAll_returns (h : Ready c surplus text) (hps : ∀ p ∈ ps, Piece p)
    (hroom : Room (2 ^ 20) surplus (2 ^ 32) c.size c.bufSize c.useSize
      (ps.map fun p => p.1.length)) :
    Returns (c.appendAll memory ps) fun o => (o = none → ∃ i, memory i = none) ∧
      ∀ c', o = some c' → Keeps c' surplus (text ++ ps.flatMap Prod.fst) := by
  induction ps generalizing c text with
  | nil =>
    rw [Cmd.appendAll, returns_pure, List.flatMap_nil, List.append_nil]
    refine ⟨fun hnone => absurd hnone (Option.some_ne_none c), fun c' hc => ?_⟩
    cases hc
    exact h.toKeeps
  | cons p ps ih =>
    obtain ⟨s, limit⟩ := p
    have hs : Piece (s, limit) := hps _ List.mem_cons_self
    have hrest : ∀ p ∈ ps, Piece p := fun p hp => hps p (List.mem_cons_of_mem _ hp)
    obtain ⟨hfits, hfailed, hgrown⟩ := @Ready.step memory _ _ _ _ _ _ h hs hroom
    rw [returns_appendAll_cons, returns_append h hs, List.flatMap_cons, ← List.append_assoc]
    refine ⟨hfits, fun hgrow => ?_, fun c' hgrow => ?_⟩
    · exact ⟨fun _ => ⟨_, hfailed hgrow⟩, fun c' hc => absurd hc.symm (Option.some_ne_none c')⟩
    · obtain ⟨hready, hroom⟩ := hgrown c' hgrow
      exact ih hready hrest hroom

theorem room_of_appendAll {fresh : ℕ → UInt8} (hsurplus : surplus ≤ 200)
    (h : Ready c surplus text) (hps : ∀ p ∈ ps, Piece p) (hmemory : ∀ i, memory i = some fresh)
    (hrun : Returns (c.appendAll memory ps) fun o => ∃ c', o = some c' ∧ 0 ∈ c'.cmd.bytes) :
    Room (2 ^ 20) surplus (2 ^ 32) c.size c.bufSize c.useSize (ps.map fun p => p.1.length) := by
  induction ps generalizing c text with
  | nil => trivial
  | cons p ps ih =>
    obtain ⟨s, limit⟩ := p
    have hs : Piece (s, limit) := hps _ List.mem_cons_self
    have hrest : ∀ p ∈ ps, Piece p := fun p hp => hps p (List.mem_cons_of_mem _ hp)
    rw [returns_appendAll_cons, returns_append h hs] at hrun
    obtain ⟨hfits, hnone, hrun⟩ := hrun
    rw [List.map_cons, Room]
    refine ⟨hfits, ?_⟩
    by_cases hreach : c.bufSize ≤ c.useSize + s.length
    · rw [if_pos hreach]
      by_cases hbound : c.useSize + s.length + 2 ^ 20 < 2 ^ 32
      · obtain ⟨c', hgrow, hready, hused, hbuf, hsize⟩ :=
          h.append_reaching hs hfits hreach hbound (hmemory c.allocations)
        have hroom := ih hready hrest (hrun c' hgrow)
        rw [hsize, hbuf, hused] at hroom
        exact ⟨hbound, hroom⟩
      · -- the new size has wrapped around: NULL, or a block too small for the string
        exfalso
        have hlt : c.useSize + s.length < 2 ^ 32 := h.sum_lt hs
        cases hgrow : (c.appended text s).grow memory with
        | none =>
          obtain ⟨c', hc, -⟩ := hnone hgrow
          exact Option.some_ne_none c' hc.symm
        | some c' =>
          have hlost := (h.appended hs hfits).lost hsurplus hreach hlt (Nat.not_lt.mp hbound) hgrow
          exact lost_fails hlost (hrun c' hgrow)
    · rw [if_neg hreach]
      obtain ⟨hgrow, hready⟩ : (c.appended text s).grow memory = _ ∧ _ :=
        h.append_below hs hfits (Nat.not_le.mp hreach)
      exact ih hready hrest (hrun _ hgrow)

end Appends

/-! ## The command -/

/-- `hmset`, the key of which 200 bytes are used, and the elements. -/
def command (key : CString) (elements : List (CString × CString)) : CString :=
  cstr "hmset " ++ key.take 200 ++
    elements.flatMap fun e => cstr " " ++ e.1 ++ cstr " " ++ e.2

/-- However the allocations end, nothing is done outside the block. What is returned is the whole
command, unless there was no memory. -/
def Builds (key : CString) (elements : List (CString × CString)) : Prop :=
  ∀ memory, Returns (makeHmsetCommand memory key elements) fun cmd =>
    (cmd = none → ∃ i, memory i = none) ∧
      ∀ b, cmd = some b → b.2.text = .ok (command key elements)

def lengths (elements : List (CString × CString)) : List ℕ :=
  elements.flatMap fun e => [1, e.1.length, 1, e.2.length]

def counted (elements : List (CString × CString)) : ℕ → ℕ := totals 206 (lengths elements)

section Command
variable {memory : Allocations} {key : CString} {elements : List (CString × CString)}

theorem pieces_lengths : (pieces elements).map (fun p => p.1.length) = lengths elements := by
  rw [pieces, List.map_flatMap]
  rfl

theorem pieces_text : cstr "hmset " ++ key.take 200 ++ (pieces elements).flatMap Prod.fst =
    command key elements := by
  rw [pieces, List.flatMap_assoc, command]
  congr 2
  funext e
  simp

theorem pieces_pieces
    (h : ∀ e ∈ elements, FitsBuffer fieldIdSize e.1 ∧ FitsBuffer valuesIdSize e.2) :
    ∀ p ∈ pieces elements, Piece p := by
  intro p hp
  obtain ⟨e, he, hp⟩ := List.mem_flatMap.mp hp
  obtain ⟨⟨hfield, hfield0⟩, hvalue, hvalue0⟩ := h e he
  have hblank : Piece (cstr " ", 1) := ⟨by decide, by decide, by decide⟩
  rw [fieldIdSize] at hfield
  rw [valuesIdSize] at hvalue
  simp only [List.mem_cons, List.not_mem_nil, or_false] at hp
  rcases hp with rfl | rfl | rfl | rfl
  · exact hblank
  · exact ⟨hfield0, hfield.le, by change e.1.length ≤ _; omega⟩
  · exact hblank
  · exact ⟨hvalue0, hvalue.le, by change e.2.length ≤ _; omega⟩

theorem makeHmsetCommand_loop (elements : List (CString × CString)) (hkey : 0 ∉ key) :
    ∃ c, Ready c (200 - key.length) (cstr "hmset " ++ key.take 200) ∧
      c.size = 2 ^ 20 ∧ c.bufSize = 2 ^ 20 ∧ c.useSize = 206 ∧
      ∀ memory fresh, memory 0 = some fresh → ∀ Q,
        (Returns (makeHmsetCommand memory key elements) Q ↔
          Returns (c.appendAll memory (pieces elements)) fun o =>
            Q (o.map fun c => ⟨c.size, c.cmd⟩)) := by
  have hmib : 1024 * 1024 = 2 ^ 20 := by decide
  have hmark : 1024 * 1024 = 1 * 2 ^ 20 := by decide
  have hbelow : 5 + 1 + 200 < 1024 * 1024 := by decide
  have hlen : (key.take 200).length ≤ 200 := List.length_take_le 200 key
  have hplain : 0 ∉ key.take 200 := fun h0 => hkey (List.mem_of_mem_take h0)
  obtain ⟨b₁, hb₁, h₁⟩ := (Buffer.holds_zeroed (n := 1024 * 1024) (by decide)).strncat
    (s := cstr "hmset") (k := 6) (by decide) (by decide)
  obtain ⟨b₂, hb₂, h₂⟩ := h₁.strncat (s := cstr " ") (k := 1) (by decide) (by decide)
  obtain ⟨b₃, hb₃, h₃⟩ := h₂.strncat (s := key) (k := 200) (by decide) (by
    change 6 + (key.take 200).length < _
    omega)
  refine ⟨⟨_, b₃, 5 + 1 + 200, 1024 * 1024, 1⟩, ⟨⟨h₃, ?_, ?_⟩, hbelow, 1, by decide, hmark⟩, hmib,
    hmib, rfl, fun memory fresh hmemory Q => ?_⟩
  · rw [List.mem_append]
    rintro (h0 | h0)
    · exact absurd h0 (by decide)
    · exact hplain h0
  · rw [List.length_append, List.length_take]
    change 206 = 6 + _ + _
    omega
  · simp only [makeHmsetCommand, hmemory]
    rw [returns_bind, hb₁, returns_ok, returns_bind, hb₂, returns_ok, returns_bind, hb₃, returns_ok,
      returns_bind, elementsLoop_eq]
    simp only [returns_pure]

def granted : Allocations := fun _ => some fun _ => 0

theorem room_of_returns (hkey : 0 ∉ key)
    (helements : ∀ e ∈ elements, FitsBuffer fieldIdSize e.1 ∧ FitsBuffer valuesIdSize e.2)
    (h : Returns (makeHmsetCommand granted key elements) fun cmd =>
      ∃ b, cmd = some b ∧ 0 ∈ b.2.bytes) :
    Room (2 ^ 20) (200 - key.length) (2 ^ 32) (2 ^ 20) (2 ^ 20) 206 (lengths elements) := by
  obtain ⟨c, hready, hsize, hbuf, hused, hloop⟩ := makeHmsetCommand_loop elements hkey
  rw [hloop _ _ rfl] at h
  obtain ⟨o, hrun, b, hb, hnul⟩ := h
  obtain ⟨c', rfl, rfl⟩ := Option.map_eq_some_iff.mp hb
  have hroom := room_of_appendAll (by omega) hready (pieces_pieces helements) (fun _ => rfl)
    ⟨_, hrun, c', rfl, hnul⟩
  rwa [hsize, hbuf, hused, pieces_lengths] at hroom

theorem builds_iff_room (hkey : 0 ∉ key)
    (helements : ∀ e ∈ elements, FitsBuffer fieldIdSize e.1 ∧ FitsBuffer valuesIdSize e.2) :
    Builds key elements ↔
      Room (2 ^ 20) (200 - key.length) (2 ^ 32) (2 ^ 20) (2 ^ 20) 206 (lengths elements) := by
  constructor
  · intro h
    apply room_of_returns hkey helements
    apply (h granted).mono
    intro cmd hcmd
    cases cmd with
    | none =>
      obtain ⟨i, hi⟩ := hcmd.1 rfl
      exact absurd hi (Option.some_ne_none _)
    | some b => exact ⟨b, rfl, Buffer.mem_of_text_eq (hcmd.2 b rfl)⟩
  · obtain ⟨c, hready, hsize, hbuf, hused, hloop⟩ := makeHmsetCommand_loop elements hkey
    have hps := pieces_pieces helements
    intro hcounted memory
    have hroom : Room (2 ^ 20) (200 - key.length) (2 ^ 32) c.size c.bufSize c.useSize
        ((pieces elements).map fun p => p.1.length) := by
      rwa [hsize, hbuf, hused, pieces_lengths]
    cases hmemory : memory 0 with
    | none =>
      simp only [makeHmsetCommand, hmemory, returns_pure]
      exact ⟨fun _ => ⟨0, hmemory⟩, fun b hb => absurd hb.symm (Option.some_ne_none b)⟩
    | some fresh =>
      rw [hloop memory fresh hmemory]
      obtain ⟨o, hrun, hnone, hkeeps⟩ := @appendAll_returns memory c _ _ _ hready hps hroom
      refine ⟨o, hrun, fun ho => hnone (Option.map_eq_none_iff.mp ho), fun b hb => ?_⟩
      obtain ⟨c', rfl, rfl⟩ := Option.map_eq_some_iff.mp hb
      have hend := hkeeps c' rfl
      rw [pieces_text] at hend
      exact hend.holds.text_eq hend.plain

theorem lengths_short
    (helements : ∀ e ∈ elements, FitsBuffer fieldIdSize e.1 ∧ FitsBuffer valuesIdSize e.2) :
    ∀ a ∈ lengths elements, a ≤ 2 ^ 20 := by
  rw [← pieces_lengths]
  intro a ha
  obtain ⟨p, hp, rfl⟩ := List.mem_map.mp ha
  exact (pieces_pieces helements p hp).short

theorem room_iff_counted
    (helements : ∀ e ∈ elements, FitsBuffer fieldIdSize e.1 ∧ FitsBuffer valuesIdSize e.2)
    {surplus : ℕ} : Room (2 ^ 20) surplus (2 ^ 32) (2 ^ 20) (2 ^ 20) 206 (lengths elements) ↔
      Paced (2 ^ 20) surplus (2 ^ 32) (2 ^ 20) 1 (counted elements) :=
  @room_iff_paced (2 ^ 20) surplus 4096 (2 ^ 20) 1 206 _ (by decide) (by decide) (by decide)
    (lengths_short helements)

/-- The condition is on the lengths alone. `use_size` has to stay a MiB below 4 GiB. The append that
takes it to the first MiB has to stay within what the key leaves of its 200 bytes, and the append
that takes it to another MiB within that of where it was at the MiB before. -/
theorem makeHmsetCommand_iff (key : CString) (elements : List (CString × CString))
    (hkey : 0 ∉ key)
    (helements : ∀ e ∈ elements, FitsBuffer fieldIdSize e.1 ∧ FitsBuffer valuesIdSize e.2) :
    Builds key elements ↔
      Paced (2 ^ 20) (200 - key.length) (2 ^ 32) (2 ^ 20) 1 (counted elements) :=
  (builds_iff_room hkey helements).trans (room_iff_counted helements)

theorem makeHmsetCommand_iff_k : Builds [107] [([102], [118])] := by
  refine (makeHmsetCommand_iff [107] [([102], [118])] (by decide) ?_).mpr ?_
  · intro e he
    rw [List.mem_singleton.mp he]
    exact ⟨⟨by decide, by decide⟩, by decide, by decide⟩
  · exact @paced_of_sum_lt (2 ^ 20) _ 4096 _ 1 206 _ (by decide) (by decide)

theorem lengths_replicate_succ (n : ℕ) (e : CString × CString) :
    lengths (List.replicate (n + 1) e) =
      lengths (List.replicate n e) ++ [1, e.1.length, 1] ++ [e.2.length] := by
  rw [lengths, List.replicate_succ', List.flatMap_append, List.flatMap_singleton, ← lengths,
    List.append_assoc]
  rfl

theorem sum_lengths_replicate (n : ℕ) (e : CString × CString) :
    (lengths (List.replicate n e)).sum = n * (2 + e.1.length + e.2.length) := by
  induction n with
  | zero => rw [Nat.zero_mul, List.replicate_zero, lengths, List.flatMap_nil, List.sum_nil]
  | succ n ih =>
    rw [lengths_replicate_succ, List.sum_append, List.sum_append, ih, Nat.succ_mul]
    simp only [List.sum_cons, List.sum_nil]
    omega

/-- Values of 1023 bytes and an empty key: the 1022nd value takes `use_size` 202 bytes over the
MiB, and the string with its NUL three bytes over the block. -/
theorem makeHmsetCommand_overrun :
    (∀ e ∈ List.replicate 1022 (([102], List.replicate 1023 118) : CString × CString),
      FitsBuffer fieldIdSize e.1 ∧ FitsBuffer valuesIdSize e.2) ∧
    ¬ Builds [] (List.replicate 1022 ([102], List.replicate 1023 118)) := by
  have hvalue : (List.replicate 1023 118 : CString).length = 1023 := List.length_replicate
  have hfield : FitsBuffer fieldIdSize [102] := ⟨by decide, by decide⟩
  have hplain : (0 : UInt8) ∉ List.replicate 1023 118 := fun h0 =>
    absurd (List.eq_of_mem_replicate h0) (by decide)
  generalize (List.replicate 1023 118 : CString) = value at hvalue hplain ⊢
  have helements : ∀ e ∈ List.replicate 1022 (([102], value) : CString × CString),
      FitsBuffer fieldIdSize e.1 ∧ FitsBuffer valuesIdSize e.2 := by
    intro e he
    rw [List.eq_of_mem_replicate he]
    exact ⟨hfield, hvalue ▸ Nat.lt_succ_self 1023, hplain⟩
  have hbefore : (lengths (List.replicate 1021 (([102], value) : CString × CString)) ++
      [1, 1, 1]).sum = 1047549 := by
    rw [List.sum_append, sum_lengths_replicate, hvalue]
    simp only [List.length_singleton, List.sum_cons, List.sum_nil]
    omega
  refine ⟨helements, fun h => ?_⟩
  rw [builds_iff_room (by decide) helements, room_iff_counted helements, counted,
    lengths_replicate_succ] at h
  change Paced _ _ _ _ 1 (totals 206 (lengths (List.replicate 1021 ([102], value)) ++ [1, 1, 1] ++
    [value.length])) at h
  rw [paced_append (by rw [hbefore]; decide), hbefore, hvalue,
    paced_reaching (by decide) (by decide)] at h
  exact absurd h.1 (by decide)

end Command

end HmsetCommands
