import CloudDisk.SqlTexts
import Mathlib.Data.Nat.Digits.Lemmas
import Mathlib.Tactic.IntervalCases

/-! # Format strings

`sprintf` with `%s`, `%d` and `%ld`. A format in which every `%s` stands alone between two
equal quotes, and which has no other quote and no backslash, fills into separated pieces. -/
namespace SqlFormats

open ByteStrings SqlTexts

inductive Kind where
  | str
  | int
  deriving DecidableEq

inductive FormatUnit where
  | byte (b : UInt8)
  | conv (k : Kind)
  deriving DecidableEq

def units : CString → List FormatUnit
  | 37 :: 115 :: s => .conv .str :: units s
  | 37 :: 100 :: s => .conv .int :: units s
  | 37 :: 108 :: 100 :: s => .conv .int :: units s
  | b :: s => .byte b :: units s
  | [] => []

def kinds (us : List FormatUnit) : List Kind :=
  us.filterMap fun
    | .conv k => some k
    | .byte _ => none

@[simp] theorem kinds_byte (b : UInt8) (us : List FormatUnit) : kinds (.byte b :: us) = kinds us :=
  rfl

@[simp] theorem kinds_conv (k : Kind) (us : List FormatUnit) :
    kinds (.conv k :: us) = k :: kinds us := rfl

def natText (n : ℕ) : CString :=
  if n = 0 then [48] else (Nat.digits 10 n).reverse.map fun k => UInt8.ofNat (48 + k)

theorem natText_ne_nil (n : ℕ) : natText n ≠ [] := by
  by_cases h0 : n = 0
  · simp [natText, h0]
  · simp [natText, h0, Nat.digits_ne_nil_iff_ne_zero]

def intText (n : ℤ) : CString := if n < 0 then 45 :: natText n.natAbs else natText n.natAbs

inductive Arg where
  | str (s : CString)
  | int (n : ℤ)
  deriving DecidableEq

def Arg.kind : Arg → Kind
  | .str _ => .str
  | .int _ => .int

def Arg.text : Arg → CString
  | .str s => s
  | .int n => intText n

/-- The arguments are taken to be of the kinds that the format asks for. -/
def sprintf : List FormatUnit → List Arg → CString
  | .byte b :: us, args => b :: sprintf us args
  | .conv _ :: us, a :: args => a.text ++ sprintf us args
  | _, _ => []

theorem length_sprintf_le (us : List FormatUnit) (args : List Arg) :
    (sprintf us args).length ≤ us.length + (args.map fun a => a.text.length).sum := by
  fun_induction sprintf us args with
  | case1 b us args ih =>
    simp only [List.length_cons]
    omega
  | case2 k us a args ih =>
    simp only [List.length_append, List.length_cons, List.map_cons, List.sum_cons]
    omega
  | case3 us args => simp

/-- The bytes of a format outside its conversions. -/
def fixedLength : List FormatUnit → ℕ
  | .byte _ :: us => fixedLength us + 1
  | .conv _ :: us => fixedLength us
  | [] => 0

theorem length_sprintf {us : List FormatUnit} {args : List Arg}
    (h : args.length = (kinds us).length) :
    (sprintf us args).length = fixedLength us + (args.map fun a => a.text.length).sum := by
  fun_induction sprintf us args with
  | case1 b us args ih =>
    rw [kinds_byte] at h
    rw [List.length_cons, ih h, fixedLength]
    ring
  | case2 k us a args ih =>
    rw [kinds_conv, List.length_cons, List.length_cons] at h
    rw [List.length_append, ih (Nat.succ.inj h), fixedLength, List.map_cons, List.sum_cons]
    ring
  | case3 us args hbyte hconv =>
    cases us with
    | nil =>
      rw [List.eq_nil_of_length_eq_zero h]
      rfl
    | cons u us =>
      cases u with
      | byte b => exact (hbyte b us rfl).elim
      | conv k =>
        cases args with
        | nil => cases h
        | cons a args => exact (hconv k us a args rfl rfl).elim

theorem length_natText_le {n k : ℕ} (hk : 0 < k) (h : n < 10 ^ k) : (natText n).length ≤ k := by
  rw [natText]
  split
  · exact hk
  · rw [List.length_map, List.length_reverse]
    exact (Nat.digits_length_le_iff (by decide) n).mpr h

theorem length_intText_le {n : ℤ} (h : -2 ^ 31 ≤ n) (h' : n < 2 ^ 31) :
    (intText n).length ≤ 11 := by
  have hdigits : (natText n.natAbs).length ≤ 10 := length_natText_le (by decide) (by omega)
  rw [intText]
  split
  · rw [List.length_cons]
    omega
  · omega

/-- A format in parts: a byte, a number by itself, or a conversion between two quotes. -/
inductive Segment where
  | byte (b : UInt8)
  | number
  | quoted (q : UInt8) (k : Kind)
  deriving DecidableEq

def segments : List FormatUnit → Option (List Segment)
  | [] => some []
  | .conv .int :: us => (segments us).map (.number :: ·)
  | .conv .str :: _ => none
  | .byte b :: .conv k :: .byte b' :: us =>
    if isQuote b then (if b' = b then (segments us).map (.quoted b k :: ·) else none)
    else if b = backslash then none
    else (segments (.conv k :: .byte b' :: us)).map (.byte b :: ·)
  | .byte b :: us =>
    if isQuote b ∨ b = backslash then none else (segments us).map (.byte b :: ·)

/-- A quoted conversion is followed by some other byte or by the end. -/
def apart : List Segment → Bool
  | [] => true
  | .quoted _ _ :: .byte b :: ss => apart (.byte b :: ss)
  | .quoted _ _ :: _ :: _ => false
  | _ :: ss => apart ss

def segmentKinds : List Segment → List Kind
  | [] => []
  | .byte _ :: ss => segmentKinds ss
  | .number :: ss => .int :: segmentKinds ss
  | .quoted _ k :: ss => k :: segmentKinds ss

def pieces : List Segment → List Arg → List Piece
  | .byte b :: ss, args => .byte b :: pieces ss args
  | .number :: ss, a :: args => a.text.map .byte ++ pieces ss args
  | .quoted q _ :: ss, a :: args => .quoted q a.text :: pieces ss args
  | _, _ => []

def quotedTexts : List Segment → List Arg → List CString
  | .byte _ :: ss, args => quotedTexts ss args
  | .number :: ss, _ :: args => quotedTexts ss args
  | .quoted _ _ :: ss, a :: args => a.text :: quotedTexts ss args
  | _, _ => []

/-! ## Formats fill into separated pieces -/

def Plain (b : UInt8) : Prop := ¬ isQuote b ∧ b ≠ backslash

def Segment.Wf : Segment → Prop
  | .byte b => Plain b
  | .number => True
  | .quoted q _ => isQuote q

theorem clean_of_plain {q : UInt8} {s : CString} (hq : isQuote q) (h : ∀ b ∈ s, Plain b) :
    clean q s := by
  induction s with
  | nil => rfl
  | cons b s ih =>
    obtain ⟨hb, hs⟩ := List.forall_mem_cons.mp h
    simp only [clean, decide_eq_true_eq]
    refine ⟨?_, fun hback => absurd hback hb.2, ih hs⟩
    rintro rfl
    exact hb.1 hq

theorem mem_natText {n : ℕ} {b : UInt8} (hb : b ∈ natText n) :
    ∃ k < 10, b = UInt8.ofNat (48 + k) := by
  unfold natText at hb
  split at hb
  · exact ⟨0, by decide, List.mem_singleton.mp hb⟩
  · obtain ⟨k, hk, rfl⟩ := List.mem_map.mp hb
    exact ⟨k, Nat.digits_lt_base (by decide) (List.mem_reverse.mp hk), rfl⟩

theorem natText_plain {n : ℕ} {b : UInt8} (hb : b ∈ natText n) : Plain b := by
  obtain ⟨k, hk, rfl⟩ := mem_natText hb
  interval_cases k <;> exact ⟨by decide, by decide⟩

theorem intText_plain {n : ℤ} {b : UInt8} (hb : b ∈ intText n) : Plain b := by
  unfold intText at hb
  split at hb
  · rcases List.mem_cons.mp hb with rfl | hb
    · exact ⟨by decide, by decide⟩
    · exact natText_plain hb
  · exact natText_plain hb

section Segments
variable {us : List FormatUnit} {ss : List Segment} {args : List Arg}

theorem segments_wf (h : segments us = some ss) : ∀ s ∈ ss, s.Wf := by
  fun_induction segments us generalizing ss with
  | case1 =>
    obtain rfl := Option.some.inj h
    simp
  | case2 us ih =>
    obtain ⟨ss', hss, rfl⟩ := Option.map_eq_some_iff.mp h
    exact List.forall_mem_cons.mpr ⟨trivial, ih hss⟩
  | case3 us => simp at h
  | case4 b k us hb ih =>
    obtain ⟨ss', hss, rfl⟩ := Option.map_eq_some_iff.mp h
    exact List.forall_mem_cons.mpr ⟨hb, ih hss⟩
  | case5 b k b' us hb hne => simp at h
  | case6 k b' us hb => simp at h
  | case7 b k b' us hb hbb ih =>
    obtain ⟨ss', hss, rfl⟩ := Option.map_eq_some_iff.mp h
    exact List.forall_mem_cons.mpr ⟨⟨hb, hbb⟩, ih hss⟩
  | case8 b us hno hb => simp at h
  | case9 b us hno hb ih =>
    obtain ⟨ss', hss, rfl⟩ := Option.map_eq_some_iff.mp h
    exact List.forall_mem_cons.mpr ⟨⟨fun h => hb (Or.inl h), fun h => hb (Or.inr h)⟩, ih hss⟩

theorem segments_kinds (h : segments us = some ss) : segmentKinds ss = kinds us := by
  fun_induction segments us generalizing ss with
  | case1 =>
    obtain rfl := Option.some.inj h
    rfl
  | case2 us ih =>
    obtain ⟨ss', hss, rfl⟩ := Option.map_eq_some_iff.mp h
    simp [segmentKinds, ih hss]
  | case3 us => simp at h
  | case4 b k us hb ih =>
    obtain ⟨ss', hss, rfl⟩ := Option.map_eq_some_iff.mp h
    simp [segmentKinds, ih hss]
  | case5 b k b' us hb hne => simp at h
  | case6 k b' us hb => simp at h
  | case7 b k b' us hb hbb ih =>
    obtain ⟨ss', hss, rfl⟩ := Option.map_eq_some_iff.mp h
    simpa [segmentKinds] using ih hss
  | case8 b us hno hb => simp at h
  | case9 b us hno hb ih =>
    obtain ⟨ss', hss, rfl⟩ := Option.map_eq_some_iff.mp h
    simpa [segmentKinds] using ih hss

theorem render_bytes (s : CString) (ps : List Piece) :
    render (s.map .byte ++ ps) = s ++ render ps := by
  induction s with
  | nil => rfl
  | cons b s ih => exact congrArg (b :: ·) ih

theorem sprintf_eq_render (h : segments us = some ss) (hk : args.map Arg.kind = kinds us) :
    sprintf us args = render (pieces ss args) := by
  fun_induction segments us generalizing ss args with
  | case1 =>
    obtain rfl := Option.some.inj h
    rfl
  | case2 us ih =>
    obtain ⟨ss', hss, rfl⟩ := Option.map_eq_some_iff.mp h
    cases args with
    | nil => simp at hk
    | cons a args =>
      simp only [List.map_cons, kinds_conv, List.cons.injEq] at hk
      simp only [sprintf, pieces, render_bytes, ih hss hk.2]
  | case3 us => simp at h
  | case4 b k us hb ih =>
    obtain ⟨ss', hss, rfl⟩ := Option.map_eq_some_iff.mp h
    cases args with
    | nil => simp at hk
    | cons a args =>
      simp only [List.map_cons, kinds_conv, kinds_byte, List.cons.injEq] at hk
      simp only [sprintf, pieces, ih hss hk.2]
      simp [render, Piece.text]
  | case5 b k b' us hb hne => simp at h
  | case6 k b' us hb => simp at h
  | case7 b k b' us hb hbb ih =>
    obtain ⟨ss', hss, rfl⟩ := Option.map_eq_some_iff.mp h
    exact congrArg (b :: ·) (ih hss hk)
  | case8 b us hno hb => simp at h
  | case9 b us hno hb ih =>
    obtain ⟨ss', hss, rfl⟩ := Option.map_eq_some_iff.mp h
    exact congrArg (b :: ·) (ih hss hk)

theorem separated_bytes {s : CString} {ps : List Piece} (hs : ∀ b ∈ s, Plain b)
    (hps : Separated ps) : Separated (s.map .byte ++ ps) := by
  induction s with
  | nil => exact hps
  | cons b s ih =>
    have hb := hs b List.mem_cons_self
    exact ⟨hb.1, hb.2, ih fun c hc => hs c (List.mem_cons_of_mem _ hc)⟩

theorem separated_pieces (hwf : ∀ s ∈ ss, s.Wf) (ha : apart ss)
    (hk : args.map Arg.kind = segmentKinds ss) : Separated (pieces ss args) := by
  induction ss generalizing args with
  | nil => trivial
  | cons p ss ih =>
    have hp := hwf p List.mem_cons_self
    have hss : ∀ s ∈ ss, s.Wf := fun s hs => hwf s (List.mem_cons_of_mem _ hs)
    cases p with
    | byte b => exact ⟨hp.1, hp.2, ih hss (by simpa [apart] using ha) hk⟩
    | number =>
      cases args with
      | nil => simp [segmentKinds] at hk
      | cons a args =>
        simp only [List.map_cons, segmentKinds, List.cons.injEq] at hk
        have hplain : ∀ b ∈ a.text, Plain b := by
          cases a with
          | str s => simp [Arg.kind] at hk
          | int n => exact fun b hb => intText_plain hb
        exact separated_bytes hplain (ih hss (by simpa [apart] using ha) hk.2)
    | quoted q k =>
      cases args with
      | nil => simp [segmentKinds] at hk
      | cons a args =>
        simp only [List.map_cons, segmentKinds, List.cons.injEq] at hk
        cases ss with
        | nil => exact ⟨hp, by simp [pieces], trivial⟩
        | cons p ss =>
          cases p with
          | byte b =>
            refine ⟨hp, ?_, ih hss (by simpa [apart] using ha) hk.2⟩
            rintro _ ⟨rfl⟩
            exact ⟨b, rfl⟩
          | number => simp [apart] at ha
          | quoted q' k' => simp [apart] at ha

theorem contents_bytes (s : CString) (ps : List Piece) :
    contents (s.map .byte ++ ps) = contents ps := by
  induction s with
  | nil => rfl
  | cons b s ih => exact ih

theorem contents_pieces (ss : List Segment) (args : List Arg) :
    contents (pieces ss args) = quotedTexts ss args := by
  induction ss generalizing args with
  | nil => cases args <;> rfl
  | cons p ss ih =>
    cases p with
    | byte b => exact ih args
    | number =>
      cases args with
      | nil => rfl
      | cons a args => exact (contents_bytes a.text _).trans (ih args)
    | quoted q k =>
      cases args with
      | nil => rfl
      | cons a args => exact congrArg (a.text :: ·) (ih args)

theorem mem_pieces_quoted {q : UInt8} {s : CString} (h : Piece.quoted q s ∈ pieces ss args) :
    (∃ k, Segment.quoted q k ∈ ss) ∧ ∃ a ∈ args, s = a.text := by
  fun_induction pieces ss args with
  | case1 b ss args ih =>
    obtain ⟨⟨k, hk⟩, ha⟩ := ih (by simpa using h)
    exact ⟨⟨k, List.mem_cons_of_mem _ hk⟩, ha⟩
  | case2 ss a args ih =>
    obtain ⟨⟨k, hk⟩, a', ha', hs⟩ := ih (by simpa using h)
    exact ⟨⟨k, List.mem_cons_of_mem _ hk⟩, a', List.mem_cons_of_mem _ ha', hs⟩
  | case3 q' k ss a args ih =>
    rcases List.mem_cons.mp h with heq | h
    · obtain ⟨rfl, rfl⟩ := Piece.quoted.inj heq
      exact ⟨⟨k, List.mem_cons_self⟩, a, List.mem_cons_self, rfl⟩
    · obtain ⟨⟨k', hk⟩, a', ha', hs⟩ := ih h
      exact ⟨⟨k', List.mem_cons_of_mem _ hk⟩, a', List.mem_cons_of_mem _ ha', hs⟩
  | case4 ss args => simp at h

/-- Arguments that differ only in strings without quotes and backslashes. -/
def Arg.Similar (a a' : Arg) : Prop :=
  a = a' ∨ ∃ s s', a = .str s ∧ a' = .str s' ∧ ∀ q, isQuote q → clean q s

theorem alike_pieces {args' : List Arg} (hwf : ∀ s ∈ ss, s.Wf)
    (hk : args.map Arg.kind = segmentKinds ss) (h : List.Forall₂ Arg.Similar args args') :
    Alike (pieces ss args) (pieces ss args') := by
  induction ss generalizing args args' with
  | nil => exact .nil
  | cons p ss ih =>
    have hss : ∀ s ∈ ss, s.Wf := fun s hs => hwf s (List.mem_cons_of_mem _ hs)
    cases p with
    | byte b => exact .byte b (ih hss hk h)
    | number =>
      cases h with
      | nil => simp [segmentKinds] at hk
      | @cons a a' args args' ha h =>
        simp only [List.map_cons, segmentKinds, List.cons.injEq] at hk
        rcases ha with rfl | ⟨s, s', rfl, -⟩
        · exact alike_bytes a.text (ih hss hk.2 h)
        · simp [Arg.kind] at hk
    | quoted q k =>
      have hq : isQuote q := hwf _ List.mem_cons_self
      cases h with
      | nil => simp [segmentKinds] at hk
      | @cons a a' args args' ha h =>
        simp only [List.map_cons, segmentKinds, List.cons.injEq] at hk
        apply Alike.quoted q _ (ih hss hk.2 h)
        rcases ha with rfl | ⟨s, s', rfl, -, hs⟩
        · exact Or.inl rfl
        · exact Or.inr (hs q hq)

/-- The statement is read as its own tokens exactly when every quoted argument is clean. -/
theorem sprintf_lex_iff (h : segments us = some ss) (ha : apart ss)
    (hk : args.map Arg.kind = kinds us) :
    lex .gap (sprintf us args) = some (tokens .gap (pieces ss args)) ↔
      ∀ q s, .quoted q s ∈ pieces ss args → clean q s := by
  rw [sprintf_eq_render h hk]
  refine lex_pieces_iff trivial (separated_pieces (segments_wf h) ha ?_)
  rw [hk, segments_kinds h]

end Segments

end SqlFormats
