import CloudDisk.ByteStrings

/-! # Formatted statements and how they are read

A statement is a format string filled with arguments, read by the string-literal rules of
MySQL: a literal opens with either quote and ends at the next one of its kind, a doubled quote
stands for one, and a backslash escapes the byte after it. Comments and quoted names are not
told apart from other bytes: formats have none, and an argument only gets there after its own
literal has already been misread.

An argument is read back as it was written exactly when it contains neither the quote around
it nor a backslash that escapes something. -/
namespace SqlTexts

open ByteStrings

def isQuote (b : UInt8) : Bool := b = 39 ∨ b = 34

def backslash : UInt8 := 92

/-! ## Tokens -/

inductive Token where
  | word (s : CString)
  | literal (s : CString)
  | mark (b : UInt8)
  deriving DecidableEq

def isWordByte (b : UInt8) : Bool :=
  (48 ≤ b ∧ b ≤ 57) ∨ (65 ≤ b ∧ b ≤ 90) ∨ (97 ≤ b ∧ b ≤ 122) ∨ b = 95 ∨ b = 36 ∨ 128 ≤ b

def isBlank (b : UInt8) : Bool := b = 32 ∨ (9 ≤ b ∧ b ≤ 13)

/-- The bytes that an escaped byte stands for; `\%` and `\_` keep their backslash. -/
def unescape (b : UInt8) : CString :=
  if b = 48 then [0] else if b = 98 then [8] else if b = 110 then [10] else if b = 114 then [13]
  else if b = 116 then [9] else if b = 90 then [26]
  else if b = 37 ∨ b = 95 then [backslash, b] else [b]

/-- Between tokens, in a word, in a literal, after a backslash in it, and after a quote that
ends it unless it is doubled. -/
inductive Mode where
  | gap
  | word (s : CString)
  | inside (q : UInt8) (s : CString)
  | escaped (q : UInt8) (s : CString)
  | closing (q : UInt8) (s : CString)

def Mode.open (b : UInt8) : List Token × Mode :=
  if isQuote b then ([], .inside b [])
  else if isWordByte b then ([], .word [b])
  else if isBlank b then ([], .gap)
  else ([.mark b], .gap)

def Mode.step : Mode → UInt8 → List Token × Mode
  | .gap, b => Mode.open b
  | .word s, b => if isWordByte b then ([], .word (s ++ [b]))
      else (.word s :: (Mode.open b).1, (Mode.open b).2)
  | .inside q s, b => if b = q then ([], .closing q s)
      else if b = backslash then ([], .escaped q s) else ([], .inside q (s ++ [b]))
  | .escaped q s, b => ([], .inside q (s ++ unescape b))
  | .closing q s, b => if b = q then ([], .inside q (s ++ [q]))
      else (.literal s :: (Mode.open b).1, (Mode.open b).2)

def Mode.finish : Mode → Option (List Token)
  | .gap => some []
  | .word s => some [.word s]
  | .closing _ s => some [.literal s]
  | _ => none

/-- No tokens when a literal is left open. -/
def lex : Mode → CString → Option (List Token)
  | m, [] => m.finish
  | m, b :: s => (lex (m.step b).2 s).map ((m.step b).1 ++ ·)

theorem lex_cons (m : Mode) (b : UInt8) (s : CString) :
    lex m (b :: s) = (lex (m.step b).2 s).map ((m.step b).1 ++ ·) := rfl

section Literals
variable {q b : UInt8} {s t rest acc : CString}

theorem lex_inside_end : lex (.inside q acc) (q :: rest) = lex (.closing q acc) rest := by
  simp [lex_cons, Mode.step]

theorem lex_inside_plain (hq : b ≠ q) (hb : b ≠ backslash) :
    lex (.inside q acc) (b :: rest) = lex (.inside q (acc ++ [b])) rest := by
  simp [lex_cons, Mode.step, hq, hb]

theorem lex_inside_escape (hq : q ≠ backslash) :
    lex (.inside q acc) (backslash :: b :: rest) = lex (.inside q (acc ++ unescape b)) rest := by
  simp [lex_cons, Mode.step, hq.symm]

theorem lex_closing_doubled :
    lex (.closing q acc) (q :: rest) = lex (.inside q (acc ++ [q])) rest := by
  simp [lex_cons, Mode.step]

theorem lex_closing (h : rest.head? ≠ some q) :
    lex (.closing q acc) rest = (lex .gap rest).map (.literal acc :: ·) := by
  cases rest with
  | nil => rfl
  | cons b rest =>
    have hb : b ≠ q := by simpa using h
    simp [lex_cons, Mode.step, hb, Function.comp_def]

theorem lex_inside_extends {ts : List Token}
    (h : lex (.inside q acc) rest = some (.literal s :: ts)) :
    acc <+: s := by
  have hall : ∀ rest acc, (lex (.inside q acc) rest = some (.literal s :: ts) → acc <+: s) ∧
      (lex (.escaped q acc) rest = some (.literal s :: ts) → acc <+: s) ∧
      (lex (.closing q acc) rest = some (.literal s :: ts) → acc <+: s) := by
    intro rest
    induction rest with
    | nil => simp [lex, Mode.finish]
    | cons b rest ih =>
      intro acc
      refine ⟨fun h => ?_, fun h => ?_, fun h => ?_⟩
      · rw [lex_cons] at h
        simp only [Mode.step] at h
        split at h
        · exact (ih acc).2.2 (by simpa using h)
        · split at h
          · exact (ih acc).2.1 (by simpa using h)
          · exact (List.prefix_append _ _).trans ((ih _).1 (by simpa using h))
      · rw [lex_cons] at h
        exact (List.prefix_append _ _).trans ((ih _).1 (by simpa [Mode.step] using h))
      · rw [lex_cons] at h
        simp only [Mode.step] at h
        split at h
        · exact (List.prefix_append _ _).trans ((ih _).1 (by simpa using h))
        · obtain ⟨ts', -, heq⟩ := Option.map_eq_some_iff.mp h
          simp only [List.cons_append, List.cons.injEq, Token.literal.injEq] at heq
          exact heq.1 ▸ List.prefix_refl acc
  exact (hall rest acc).1 h

def clean (q : UInt8) : CString → Bool
  | [] => true
  | b :: s => b ≠ q ∧ (b = backslash → s.head? = some 37 ∨ s.head? = some 95) ∧ clean q s

theorem unescape_kept (h : b = 37 ∨ b = 95) : unescape b = [backslash, b] := by
  rcases h with rfl | rfl <;> rfl

theorem quote_ne_backslash (hq : isQuote q) : q ≠ backslash := by
  rintro rfl
  exact absurd hq (by decide)

theorem quote_ne_kept (hq : isQuote q) (hb : b = 37 ∨ b = 95) : b ≠ q := by
  rintro rfl
  rcases hb with rfl | rfl <;> exact absurd hq (by decide)

/-- A kept pair is read as its two bytes, as if the backslash escaped nothing. -/
theorem lex_kept (hq : isQuote q) (hb : b = 37 ∨ b = 95) :
    lex (.inside q acc) (backslash :: b :: rest) =
      lex (.inside q (acc ++ [backslash])) (b :: rest) := by
  have hbb : b ≠ backslash := by rcases hb with rfl | rfl <;> decide
  rw [lex_inside_escape (quote_ne_backslash hq), lex_inside_plain (quote_ne_kept hq hb) hbb,
    unescape_kept hb]
  simp

theorem lex_clean (hq : isQuote q) (h : clean q s) :
    lex (.inside q acc) (s ++ q :: rest) = lex (.closing q (acc ++ s)) rest := by
  induction s generalizing acc with
  | nil => simp [lex_inside_end]
  | cons b s ih =>
    simp only [clean, decide_eq_true_eq] at h
    obtain ⟨hb, hesc, hs⟩ := h
    by_cases hbs : b = backslash
    · subst hbs
      cases s with
      | nil => simp at hesc
      | cons c s =>
        have hc : c = 37 ∨ c = 95 := by simpa using hesc rfl
        rw [List.cons_append, List.cons_append, lex_kept hq hc, ← List.cons_append, ih hs]
        simp
    · rw [List.cons_append, lex_inside_plain hb hbs, ih hs]
      simp

def Special (q : UInt8) (b : UInt8) : Prop := b = q ∨ b = backslash

def Apart (q : UInt8) (rest : CString) : Prop := ∀ b ∈ rest.head?, ¬ Special q b

theorem Apart.head_ne (h : Apart q rest) : rest.head? ≠ some q := by
  intro heq
  exact h q heq (Or.inl rfl)

theorem unescape_cases (b : UInt8) : ((b = 37 ∨ b = 95) ∧ unescape b = [backslash, b]) ∨
    ∃ x, unescape b = [x] ∧ (x = 39 ∨ x = 34 ∨ x = backslash → b = x) := by
  by_cases hk : b = 37 ∨ b = 95
  · exact Or.inl ⟨hk, unescape_kept hk⟩
  · unfold unescape
    split_ifs
    all_goals first
      | exact Or.inr ⟨_, rfl, fun _ => rfl⟩
      | exact Or.inr ⟨_, rfl, fun h => absurd h (by decide)⟩

theorem special_of_unescape (hq : isQuote q) {x : UInt8} (hx : Special q x)
    (h : unescape b = [x]) : b = x := by
  rcases unescape_cases b with ⟨-, hb⟩ | ⟨y, hy, hback⟩
  · rw [hb] at h
    simp at h
  · rw [hy, List.cons.injEq] at h
    obtain ⟨rfl, -⟩ := h
    apply hback
    rcases hx with rfl | rfl
    · have hy : y = 39 ∨ y = 34 := by simpa [isQuote] using hq
      exact hy.elim Or.inl fun h => Or.inr (Or.inl h)
    · exact Or.inr (Or.inr rfl)

theorem mem_of_prefix_append {x r : UInt8} {w : CString} (h : acc ++ [x] ++ [r] <+: acc ++ w) :
    r ∈ w := by
  rw [List.append_assoc, List.prefix_append_right_inj] at h
  exact h.subset (by simp)

theorem lex_past_end (hr : Apart q rest) {x : UInt8} {w : CString} (hw : ∀ b ∈ w, Special q b)
    (ts : List Token) : lex (.inside q (acc ++ [x])) rest ≠ some (.literal (acc ++ w) :: ts) := by
  intro h
  cases rest with
  | nil => simp [lex, Mode.finish] at h
  | cons r rest =>
    have hplain : ¬ Special q r := hr r rfl
    rw [lex_inside_plain (fun h => hplain (Or.inl h)) fun h => hplain (Or.inr h)] at h
    exact hplain (hw r (mem_of_prefix_append (lex_inside_extends h)))

theorem head_of_lex {x y : UInt8} {w : CString} {ts : List Token}
    (h : lex (.inside q (acc ++ [x])) rest = some (.literal (acc ++ y :: w) :: ts)) : x = y := by
  have hp := lex_inside_extends h
  rw [List.prefix_append_right_inj] at hp
  simpa using hp

theorem unescape_quote (hq : isQuote q) : unescape q = [q] := by
  have hq' : q = 39 ∨ q = 34 := by simpa [isQuote] using hq
  rcases hq' with rfl | rfl <;> rfl

theorem not_lag_kept (hq : isQuote q) {d x : UInt8} {lag : CString} {ts : List Token}
    (hsp : ∀ b ∈ x :: lag, Special q b) (hk : d = 37 ∨ d = 95) :
    lex (.inside q (acc ++ [backslash, d])) s ≠
      some (.literal (acc ++ (x :: lag ++ backslash :: d :: t)) :: ts) := by
  intro h
  rw [show acc ++ [backslash, d] = acc ++ [backslash] ++ [d] by simp] at h
  have hp := lex_inside_extends h
  rw [List.append_assoc, List.prefix_append_right_inj] at hp
  have hd : d ∈ lag ++ [backslash] := by
    have hp' : backslash = x ∧ [d] <+: lag ++ backslash :: d :: t := by simpa using hp
    cases lag with
    | nil => simpa using hp'.2
    | cons l lag =>
      have hdl : d = l := by simpa using hp'.2
      exact hdl ▸ List.mem_cons_self
  have hsd : Special q d := by
    rcases List.mem_append.mp hd with hd | hd
    · exact hsp d (List.mem_cons_of_mem _ hd)
    · exact Or.inr (by simpa using hd)
  have hq' : q = 39 ∨ q = 34 := by simpa [isQuote] using hq
  rcases hsd with rfl | rfl
  · rcases hq' with rfl | rfl <;> exact absurd hk (by decide)
  · exact absurd hk (by decide)

/-- A literal that lags behind its text by quotes or backslashes needs one of them next, and
it takes two bytes of the text to make one. -/
theorem lag_step (hq : isQuote q) {c d x : UInt8} {lag : CString} {ts : List Token}
    (hsp : ∀ b ∈ x :: lag, Special q b)
    (h : lex (.inside q acc) (c :: d :: s) =
      some (.literal (acc ++ (x :: lag ++ c :: d :: t)) :: ts)) :
    Special q c ∧ Special q d ∧ lex (.inside q (acc ++ [x])) s =
      some (.literal (acc ++ [x] ++ (lag ++ [c, d] ++ t)) :: ts) := by
  have hx := hsp x List.mem_cons_self
  by_cases hcq : c = q
  · subst hcq
    rw [lex_inside_end] at h
    by_cases hd : d = c
    · subst hd
      rw [lex_closing_doubled] at h
      obtain rfl := head_of_lex h
      exact ⟨Or.inl rfl, Or.inl rfl, by simpa using h⟩
    · rw [lex_closing (by simpa using hd)] at h
      obtain ⟨ts', -, heq⟩ := Option.map_eq_some_iff.mp h
      simp only [List.cons.injEq, Token.literal.injEq] at heq
      exact absurd (List.self_eq_append_right.mp heq.1) (by simp)
  by_cases hcb : c = backslash
  · subst hcb
    rw [lex_inside_escape (quote_ne_backslash hq)] at h
    rcases unescape_cases d with ⟨hk, hesc⟩ | ⟨y, hy, -⟩
    · rw [hesc] at h
      exact absurd h (not_lag_kept hq hsp hk)
    · rw [hy] at h
      obtain rfl := head_of_lex h
      obtain rfl := special_of_unescape hq hx hy
      exact ⟨Or.inr rfl, hx, by simpa using h⟩
  · rw [lex_inside_plain hcq hcb] at h
    obtain rfl := head_of_lex h
    exact absurd hx fun hc => hc.elim hcq hcb

theorem lex_lagging (hq : isQuote q) (hr : Apart q rest) :
    ∀ (s lag acc : CString) (ts : List Token),
    lag ≠ [] → (∀ b ∈ lag, Special q b) →
      lex (.inside q acc) (s ++ q :: rest) ≠ some (.literal (acc ++ (lag ++ s)) :: ts)
  | [], lag, acc, ts, hne, hsp => by
    intro h
    rw [List.nil_append, lex_inside_end, lex_closing hr.head_ne] at h
    obtain ⟨ts', -, heq⟩ := Option.map_eq_some_iff.mp h
    simp only [List.cons.injEq, Token.literal.injEq, List.append_nil] at heq
    exact hne (List.self_eq_append_right.mp heq.1)
  | [c], x :: lag, acc, ts, _, hsp => by
    intro h
    -- the closing quote is the second byte of a pair
    have hc : Special q c ∧ lex (.inside q (acc ++ [q])) rest =
        some (.literal (acc ++ (x :: lag ++ [c])) :: ts) := by
      by_cases hcq : c = q
      · rw [hcq, List.singleton_append, lex_inside_end, lex_closing_doubled] at h
        exact ⟨Or.inl hcq, hcq ▸ h⟩
      by_cases hcb : c = backslash
      · rw [hcb, List.singleton_append, lex_inside_escape (quote_ne_backslash hq),
          unescape_quote hq] at h
        exact ⟨Or.inr hcb, hcb ▸ h⟩
      · rw [List.singleton_append, lex_inside_plain hcq hcb] at h
        have hx := hsp x List.mem_cons_self
        rw [← head_of_lex h] at hx
        exact absurd hx fun hc => hc.elim hcq hcb
    refine lex_past_end hr (fun b hb => ?_) ts hc.2
    rcases List.mem_append.mp hb with hb | hb
    · exact hsp b hb
    · exact List.mem_singleton.mp hb ▸ hc.1
  | c :: d :: s, x :: lag, acc, ts, _, hsp => by
    intro h
    obtain ⟨hc, hd, h'⟩ := lag_step hq hsp h
    refine lex_lagging hq hr s (lag ++ [c, d]) (acc ++ [x]) ts (by simp) (fun b hb => ?_) h'
    simp only [List.mem_append, List.mem_cons, List.not_mem_nil, or_false] at hb
    rcases hb with hb | rfl | rfl
    · exact hsp b (List.mem_cons_of_mem _ hb)
    · exact hc
    · exact hd

theorem lex_leading_quote (acc : CString) (hq : isQuote q) (hr : Apart q rest) (ts : List Token) :
    lex (.inside q acc) (q :: s ++ q :: rest) ≠ some (.literal (acc ++ q :: s) :: ts) := by
  intro hlex
  rw [List.cons_append, lex_inside_end] at hlex
  cases s with
  | nil =>
    rw [List.nil_append, lex_closing_doubled] at hlex
    exact lex_past_end hr (fun b hb => Or.inl (List.mem_singleton.mp hb)) ts hlex
  | cons d s =>
    by_cases hd : d = q
    · subst hd
      rw [List.cons_append, lex_closing_doubled] at hlex
      refine lex_lagging hq hr s [d] (acc ++ [d]) ts (by simp) (fun b hb => ?_)
        (by simpa using hlex)
      exact Or.inl (List.mem_singleton.mp hb)
    · rw [lex_closing (by simpa using hd)] at hlex
      obtain ⟨ts', -, heq⟩ := Option.map_eq_some_iff.mp hlex
      simp at heq

theorem lex_leading_escape (acc : CString) (hq : isQuote q) (hr : Apart q rest) {d : UInt8}
    (hk : ¬ (d = 37 ∨ d = 95)) (ts : List Token) :
    lex (.inside q acc) (backslash :: d :: (s ++ q :: rest)) ≠
      some (.literal (acc ++ backslash :: d :: s) :: ts) := by
  intro hlex
  obtain ⟨y, hy, -⟩ := (unescape_cases d).resolve_left fun h => hk h.1
  rw [lex_inside_escape (quote_ne_backslash hq), hy] at hlex
  have hyb : y = backslash := head_of_lex hlex
  have hdb : d = backslash := by
    rw [hyb] at hy
    exact special_of_unescape hq (Or.inr rfl) hy
  rw [hyb, hdb] at hlex
  refine lex_lagging hq hr s [backslash] (acc ++ [backslash]) ts (by simp) (fun b hb => ?_)
    (by simpa using hlex)
  exact Or.inr (List.mem_singleton.mp hb)

theorem lex_unclean (acc : CString) (hq : isQuote q) (hr : Apart q rest) (h : clean q s = false)
    (ts : List Token) :
    lex (.inside q acc) (s ++ q :: rest) ≠ some (.literal (acc ++ s) :: ts) := by
  induction s generalizing acc with
  | nil => simp [clean] at h
  | cons c s ih =>
    intro hlex
    by_cases hcq : c = q
    · subst hcq
      exact lex_leading_quote acc hq hr ts hlex
    by_cases hcb : c = backslash
    · subst hcb
      cases s with
      | nil =>
        rw [List.singleton_append, lex_inside_escape (quote_ne_backslash hq),
          unescape_quote hq] at hlex
        exact quote_ne_backslash hq (head_of_lex hlex)
      | cons d s =>
        rw [List.cons_append, List.cons_append] at hlex
        by_cases hk : d = 37 ∨ d = 95
        · have hs : clean q (d :: s) = false := by
            simpa [clean, hcq, hk] using h
          rw [lex_kept hq hk] at hlex
          exact ih (acc ++ [backslash]) hs (by simpa using hlex)
        · exact lex_leading_escape acc hq hr hk ts hlex
    · have hs : clean q s = false := by simpa [clean, hcq, hcb] using h
      rw [List.cons_append, lex_inside_plain hcq hcb] at hlex
      exact ih (acc ++ [c]) hs (by simpa using hlex)

end Literals

/-! ## Statements in pieces -/

inductive Piece where
  | byte (b : UInt8)
  | quoted (q : UInt8) (s : CString)
  deriving DecidableEq

def Piece.text : Piece → CString
  | .byte b => [b]
  | .quoted q s => q :: s ++ [q]

def render (ps : List Piece) : CString := ps.flatMap Piece.text

def Mode.flush : Mode → List Token
  | .word s => [.word s]
  | _ => []

/-- The tokens of the statement itself, with one literal for each quoted piece. -/
def tokens : Mode → List Piece → List Token
  | m, [] => m.flush
  | m, .byte b :: ps => (m.step b).1 ++ tokens (m.step b).2 ps
  | m, .quoted q s :: ps => (m.step q).1 ++ .literal s :: tokens .gap ps

/-- Outside of literals there are no quotes and no backslashes, and literals do not touch. -/
def Separated : List Piece → Prop
  | [] => True
  | .byte b :: ps => ¬ isQuote b ∧ b ≠ backslash ∧ Separated ps
  | .quoted q _ :: ps => isQuote q ∧ (∀ p ∈ ps.head?, ∃ b, p = .byte b) ∧ Separated ps

def Mode.Outside : Mode → Prop
  | .gap => True
  | .word _ => True
  | _ => False

section Pieces
variable {m : Mode} {b q : UInt8} {ps : List Piece}

theorem outside_step (hm : m.Outside) (hb : ¬ isQuote b) : (m.step b).2.Outside := by
  have hopen : (Mode.open b).2.Outside := by
    unfold Mode.open
    rw [if_neg hb]
    split_ifs <;> trivial
  cases m with
  | gap => exact hopen
  | word s =>
    simp only [Mode.step]
    split_ifs
    · trivial
    · exact hopen
  | inside q s => exact hm.elim
  | escaped q s => exact hm.elim
  | closing q s => exact hm.elim

theorem step_quote (hm : m.Outside) (hq : isQuote q) : (m.step q).2 = .inside q [] := by
  have hopen : (Mode.open q).2 = .inside q [] := by simp [Mode.open, hq]
  have hword : isWordByte q = false := by
    have hq' : q = 39 ∨ q = 34 := by simpa [isQuote] using hq
    rcases hq' with rfl | rfl <;> decide
  cases m with
  | gap => exact hopen
  | word s => simpa [Mode.step, hword] using hopen
  | inside q s => exact hm.elim
  | escaped q s => exact hm.elim
  | closing q s => exact hm.elim

theorem finish_outside (hm : m.Outside) : m.finish = some m.flush := by
  cases m with
  | gap => rfl
  | word s => rfl
  | inside q s => exact hm.elim
  | escaped q s => exact hm.elim
  | closing q s => exact hm.elim

theorem apart_render (hq : isQuote q) (h : Separated ps)
    (hhead : ∀ p ∈ ps.head?, ∃ b, p = .byte b) :
    Apart q (render ps) := by
  cases ps with
  | nil => simp [Apart, render]
  | cons p ps =>
    obtain ⟨b, rfl⟩ := hhead p rfl
    intro c hc
    obtain rfl : b = c := by simpa [render, Piece.text] using hc
    rintro (rfl | rfl)
    · exact h.1 hq
    · exact h.2.1 rfl

theorem lex_quoted {s : CString} (hm : m.Outside) (hq : isQuote q) :
    lex m (render (.quoted q s :: ps)) =
      (lex (.inside q []) (s ++ q :: render ps)).map ((m.step q).1 ++ ·) := by
  have htext : render (.quoted q s :: ps) = q :: (s ++ q :: render ps) := by
    simp [render, Piece.text]
  rw [htext, lex_cons, step_quote hm hq]

theorem lex_byte_iff {ps' : List Piece} :
    lex m (render (.byte b :: ps)) = some (tokens m (.byte b :: ps')) ↔
      lex (m.step b).2 (render ps) = some (tokens (m.step b).2 ps') := by
  have hcons : lex m (render (.byte b :: ps)) =
      (lex (m.step b).2 (render ps)).map ((m.step b).1 ++ ·) := rfl
  rw [hcons, tokens]
  cases lex (m.step b).2 (render ps) <;> simp

theorem lex_quoted_iff {s s' : CString} {ps' : List Piece} (hm : m.Outside) (hq : isQuote q)
    (hapart : Apart q (render ps)) (hs : clean q s) :
    lex m (render (.quoted q s :: ps)) = some (tokens m (.quoted q s' :: ps')) ↔
      s = s' ∧ lex .gap (render ps) = some (tokens .gap ps') := by
  rw [lex_quoted hm hq, tokens, lex_clean hq hs, lex_closing hapart.head_ne]
  cases lex .gap (render ps) <;> simp

theorem clean_of_lex_quoted {s : CString} {ps' : List Piece} (hm : m.Outside) (hq : isQuote q)
    (hapart : Apart q (render ps))
    (h : lex m (render (.quoted q s :: ps)) = some (tokens m (.quoted q s :: ps'))) :
    clean q s := by
  by_contra hs
  rw [lex_quoted hm hq, tokens] at h
  obtain ⟨ts, hts, heq⟩ := Option.map_eq_some_iff.mp h
  rw [List.append_cancel_left_eq] at heq
  rw [heq] at hts
  exact lex_unclean [] hq hapart (by simpa using hs) _ (by simpa using hts)

theorem lex_pieces_iff (hm : m.Outside) (h : Separated ps) :
    lex m (render ps) = some (tokens m ps) ↔ ∀ q s, .quoted q s ∈ ps → clean q s := by
  induction ps generalizing m with
  | nil => simp [render, lex, tokens, finish_outside hm]
  | cons p ps ih =>
    cases p with
    | byte b =>
      obtain ⟨hb, -, hps⟩ := h
      rw [lex_byte_iff, ih (outside_step hm hb) hps]
      simp
    | quoted q s =>
      obtain ⟨hq, hhead, hps⟩ := h
      have hapart := apart_render hq hps hhead
      constructor
      · intro hlex
        have hs := clean_of_lex_quoted hm hq hapart hlex
        have hrest := (ih (m := .gap) trivial hps).mp ((lex_quoted_iff hm hq hapart hs).mp hlex).2
        intro q' s' hmem
        rcases List.mem_cons.mp hmem with heq | hmem
        · simp only [Piece.quoted.injEq] at heq
          rw [heq.1, heq.2]
          exact hs
        · exact hrest q' s' hmem
      · intro hall
        apply (lex_quoted_iff hm hq hapart (hall q s List.mem_cons_self)).mpr
        constructor
        · rfl
        · apply (ih (m := .gap) trivial hps).mpr
          exact fun q' s' hmem => hall q' s' (List.mem_cons_of_mem _ hmem)

/-- Two statements of one form, where every literal of the first is clean unless it is also
the second's. -/
inductive Alike : List Piece → List Piece → Prop
  | nil : Alike [] []
  | byte (b : UInt8) {ps ps' : List Piece} (h : Alike ps ps') :
      Alike (.byte b :: ps) (.byte b :: ps')
  | quoted (q : UInt8) {s s' : CString} {ps ps' : List Piece} (hs : s = s' ∨ clean q s)
      (h : Alike ps ps') : Alike (.quoted q s :: ps) (.quoted q s' :: ps')

theorem alike_bytes (s : CString) {ps ps' : List Piece} (h : Alike ps ps') :
    Alike (s.map .byte ++ ps) (s.map .byte ++ ps') := by
  induction s with
  | nil => exact h
  | cons b s ih => exact .byte b ih

theorem clean_of_alike {ps' : List Piece} (halike : Alike ps ps') (hm : m.Outside)
    (hsep : Separated ps) (hlex : lex m (render ps) = some (tokens m ps')) :
    ∀ q s, .quoted q s ∈ ps → clean q s := by
  induction halike generalizing m with
  | nil => simp
  | byte b _ ih =>
    have hrest := ih (outside_step hm hsep.1) hsep.2.2 (lex_byte_iff.mp hlex)
    intro q s hmem
    exact hrest q s (by simpa using hmem)
  | @quoted q s s' ps ps' hs _ ih =>
    obtain ⟨hq, hhead, hps⟩ := hsep
    have hapart := apart_render hq hps hhead
    have hclean : clean q s := by
      rcases hs with rfl | hs
      · exact clean_of_lex_quoted hm hq hapart hlex
      · exact hs
    have hrest := ih (m := .gap) trivial hps ((lex_quoted_iff hm hq hapart hclean).mp hlex).2
    intro q' t hmem
    rcases List.mem_cons.mp hmem with heq | hmem
    · obtain ⟨rfl, rfl⟩ := Piece.quoted.inj heq
      exact hclean
    · exact hrest q' t hmem

def literals (ts : List Token) : List CString :=
  ts.filterMap fun
    | .literal s => some s
    | _ => none

def contents (ps : List Piece) : List CString :=
  ps.filterMap fun
    | .quoted _ s => some s
    | .byte _ => none

theorem literals_step (hm : m.Outside) : literals (m.step b).1 = [] := by
  have hopen : literals (Mode.open b).1 = [] := by
    unfold Mode.open
    split_ifs <;> rfl
  cases m with
  | gap => exact hopen
  | word s =>
    simp only [Mode.step]
    split_ifs
    · rfl
    · exact hopen
  | inside q s => exact hm.elim
  | escaped q s => exact hm.elim
  | closing q s => exact hm.elim

theorem literals_append (ts us : List Token) : literals (ts ++ us) = literals ts ++ literals us :=
  List.filterMap_append

theorem literals_tokens (hm : m.Outside) (h : Separated ps) :
    literals (tokens m ps) = contents ps := by
  induction ps generalizing m with
  | nil => cases m <;> rfl
  | cons p ps ih =>
    cases p with
    | byte b =>
      rw [tokens, literals_append, literals_step hm, ih (outside_step hm h.1) h.2.2]
      rfl
    | quoted q s =>
      rw [tokens, literals_append, literals_step hm]
      exact congrArg (s :: ·) (ih (m := .gap) trivial h.2.2)

theorem head_literal {s : CString} {ts : List Token} (hm : m.Outside) (h : Separated ps)
    (hlex : lex m (render ps) = some ts) (hs : (contents ps).head? = some s)
    (hc : ∀ q, .quoted q s ∈ ps → clean q s) : (literals ts).head? = some s := by
  induction ps generalizing m ts with
  | nil => simp [contents] at hs
  | cons p ps ih =>
    cases p with
    | byte b =>
      obtain ⟨hb, -, hps⟩ := h
      obtain ⟨ts', hts, rfl⟩ : ∃ ts', lex (m.step b).2 (render ps) = some ts' ∧
        (m.step b).1 ++ ts' = ts := Option.map_eq_some_iff.mp hlex
      rw [literals_append, literals_step hm]
      exact ih (outside_step hm hb) hps hts hs fun q hq => hc q (List.mem_cons_of_mem _ hq)
    | quoted q s' =>
      obtain ⟨hq, hhead, hps⟩ := h
      obtain rfl : s' = s := Option.some.inj hs
      rw [lex_quoted hm hq, lex_clean hq (hc q List.mem_cons_self),
        lex_closing (apart_render hq hps hhead).head_ne] at hlex
      obtain ⟨ts', hts, rfl⟩ := Option.map_eq_some_iff.mp hlex
      obtain ⟨ts'', -, rfl⟩ := Option.map_eq_some_iff.mp hts
      rw [literals_append, literals_step hm]
      rfl

end Pieces

/-! ## Where the bytes of a literal come from -/

section Bytes
variable {m : Mode} {b x : UInt8} {l s : CString} {ts : List Token}

end Bytes

end SqlTexts
