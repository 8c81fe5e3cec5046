import Mathlib.Algebra.Group.Int.Defs
import Mathlib.Algebra.Group.Nat.Defs
import Mathlib.Data.List.Infix
import Mathlib.Data.Nat.Find
import Mathlib.Tactic.Common

/-! # Code whose memory accesses are checked

A computation stops with a fault at the first access that C leaves undefined. `Returns` is its
weakest precondition, so that what makes some code safe can be computed from the code. Below
are the two ways in which C code walks through a buffer that is not terminated: up to the end
of a line, and up to a given byte string. -/
namespace CheckedCode

inductive Fault where
  | nullPointer
  | outOfBounds
  | overflow
  | overlap
  deriving DecidableEq, Repr

abbrev Checked := Except Fault

/-- No fault, and a result with the property. -/
def Returns {α : Type} (c : Checked α) (Q : α → Prop) : Prop := ∃ a, c = .ok a ∧ Q a

instance decidableReturns {α : Type} (c : Checked α) (Q : α → Prop) [DecidablePred Q] :
    Decidable (Returns c Q) :=
  match c with
  | .error _ => isFalse fun ⟨_, h, _⟩ => nomatch h
  | .ok a => decidable_of_iff (Q a) ⟨fun h => ⟨a, rfl, h⟩, fun ⟨_, h, hq⟩ => by cases h; exact hq⟩

section Rules
variable {α β : Type} {Q : α → Prop} {R : β → Prop}

theorem eq_ok_iff {c : Checked α} {a : α} : c = .ok a ↔ Returns c (· = a) := by
  constructor
  · intro h
    exact ⟨a, h, rfl⟩
  · rintro ⟨b, h, rfl⟩
    exact h

@[simp] theorem returns_ok {a : α} : Returns (.ok a) Q ↔ Q a := by
  simp [Returns]

@[simp] theorem returns_pure {a : α} : Returns (pure a) Q ↔ Q a := returns_ok

@[simp] theorem returns_throw {e : Fault} : ¬ Returns (throw e : Checked α) Q := by
  rintro ⟨a, h, -⟩
  exact nomatch h

@[simp] theorem returns_bind {c : Checked α} {f : α → Checked β} :
    Returns (c >>= f) R ↔ Returns c fun a => Returns (f a) R := by
  cases c with
  | error e =>
    constructor
    · rintro ⟨b, h, -⟩
      exact nomatch h
    · rintro ⟨a, h, -⟩
      exact nomatch h
  | ok a => exact (returns_ok (Q := fun a => Returns (f a) R)).symm

@[simp] theorem returns_map {c : Checked α} {f : α → β} :
    Returns (f <$> c) R ↔ Returns c fun a => R (f a) := by
  rw [← bind_pure_comp, returns_bind]
  simp only [returns_pure]

theorem returns_ite {p : Prop} [Decidable p] {c d : Checked α} :
    Returns (if p then c else d) Q ↔ (p → Returns c Q) ∧ (¬ p → Returns d Q) := by
  by_cases h : p <;> simp [h]

theorem Returns.mono {Q' : α → Prop} {c : Checked α} (h : Returns c Q) (himp : ∀ a, Q a → Q' a) :
    Returns c Q' := by
  obtain ⟨a, ha, hq⟩ := h
  exact ⟨a, ha, himp a hq⟩

end Rules

/-! ## Code that may give up -/

/-- A computation that ends without a result when it gives up, which is no fault. -/
abbrev Attempt := OptionT Checked

section Attempts
variable {α β : Type} {Q : Option α → Prop} {R : Option β → Prop}

theorem returns_attempt_pure {a : α} : Returns (pure a : Attempt α).run Q ↔ Q (some a) :=
  returns_pure

theorem returns_attempt_lift {c : Checked α} :
    Returns (liftM c : Attempt α).run Q ↔ Returns c fun a => Q (some a) := by
  cases c with
  | error e =>
    constructor <;> rintro ⟨a, h, -⟩ <;> cases h
  | ok a => exact (returns_ok (Q := Q)).trans (returns_ok (Q := fun a => Q (some a))).symm

theorem returns_attempt_bind {x : Attempt α} {f : α → Attempt β} :
    Returns (x >>= f).run R ↔ Returns x.run fun o =>
      (o = none → R none) ∧ ∀ a, o = some a → Returns (f a).run R := by
  rw [OptionT.run_bind, Option.elimM, returns_bind]
  refine iff_of_eq (congrArg _ (funext fun o => propext ?_))
  cases o with
  | none => simp
  | some a => simp

theorem returns_lift_bind {c : Checked α} {f : α → Attempt β} :
    Returns ((liftM c : Attempt α) >>= f).run R ↔ Returns c fun a => Returns (f a).run R := by
  rw [returns_attempt_bind, returns_attempt_lift]
  simp

theorem returns_option_bind {o : Option α} {f : α → Attempt β} :
    Returns ((OptionT.mk (pure o) : Attempt α) >>= f).run R ↔
      (o = none → R none) ∧ ∀ a, o = some a → Returns (f a).run R := by
  rw [returns_attempt_bind]
  exact returns_pure

end Attempts

def intAdd (j k : ℕ) : Checked ℕ := if j + k < 2 ^ 31 then pure (j + k) else throw .overflow

theorem returns_intAdd {j k : ℕ} {Q : ℕ → Prop} :
    Returns (intAdd j k) Q ↔ j + k < 2 ^ 31 ∧ Q (j + k) := by
  by_cases h : j + k < 2 ^ 31
  · rw [intAdd, if_pos h, returns_pure]
    simp only [h, true_and]
  · rw [intAdd, if_neg h]
    simp only [returns_throw, h, false_and]

def IsInt (n : ℤ) : Prop := -2 ^ 31 ≤ n ∧ n < 2 ^ 31

instance (n : ℤ) : Decidable (IsInt n) := inferInstanceAs (Decidable (_ ∧ _))

def asInt (n : ℤ) : Checked ℤ := if IsInt n then pure n else throw .overflow

theorem asInt_eq {n : ℤ} (h : IsInt n) : asInt n = .ok n := if_pos h

theorem returns_asInt {n : ℤ} {Q : ℤ → Prop} : Returns (asInt n) Q ↔ IsInt n ∧ Q n := by
  by_cases h : IsInt n
  · rw [asInt, if_pos h, returns_pure]
    simp only [h, true_and]
  · rw [asInt, if_neg h]
    simp only [returns_throw, h, false_and]

/-! ## Lines -/

/-- The distance to the next CRLF, unless a NUL comes first: `strstr`. -/
def findCrlf : List UInt8 → Checked (Option ℕ)
  | [] => throw .outOfBounds
  | b :: s =>
    if b = 0 then pure none
    else if b = 13 ∧ s.head? = some 10 then pure (some 0)
    else do return (← findCrlf s).map (· + 1)

def Plain (l : List UInt8) : Prop := 0 ∉ l ∧ ¬ [13, 10] <:+: l

structure Line (s l rest : List UInt8) : Prop where
  text : s = l ++ 13 :: 10 :: rest
  plain : Plain l

def Cut (s : List UInt8) : Prop := ∃ l rest, s = l ++ 0 :: rest ∧ Plain l

section Lines
variable {b : UInt8} {s l rest : List UInt8}

theorem plain_nil : Plain [] := by simp [Plain]

theorem plain_cons : Plain (b :: l) ↔ b ≠ 0 ∧ ¬ (b = 13 ∧ l.head? = some 10) ∧ Plain l := by
  have hstart : [13, 10] <+: b :: l ↔ b = 13 ∧ l.head? = some 10 := by
    cases l with
    | nil => simp
    | cons c l => simp [eq_comm]
  simp only [Plain, List.mem_cons, List.infix_cons_iff, hstart]
  tauto

theorem cut_cons :
    Cut (b :: s) ↔ b = 0 ∨ (b ≠ 0 ∧ ¬ (b = 13 ∧ s.head? = some 10) ∧ Cut s) := by
  constructor
  · rintro ⟨l, rest, h, hl⟩
    cases l with
    | nil => exact Or.inl (List.cons.inj h).1
    | cons c l =>
      obtain ⟨rfl, rfl⟩ := List.cons.inj h
      obtain ⟨hb, hcr, hl⟩ := plain_cons.mp hl
      refine Or.inr ⟨hb, ?_, l, rest, rfl, hl⟩
      cases l with
      | nil => simp
      | cons d l => simpa using hcr
  · rintro (rfl | ⟨hb, hcr, l, rest, rfl, hl⟩)
    · exact ⟨[], s, rfl, plain_nil⟩
    · refine ⟨b :: l, rest, rfl, plain_cons.mpr ⟨hb, ?_, hl⟩⟩
      cases l with
      | nil => simp
      | cons d l => simpa using hcr

theorem line_cons : Line (b :: s) l rest ↔ (l = [] ∧ b = 13 ∧ s = 10 :: rest) ∨
    ∃ l', l = b :: l' ∧ b ≠ 0 ∧ ¬ (b = 13 ∧ s.head? = some 10) ∧ Line s l' rest := by
  constructor
  · rintro ⟨h, hl⟩
    cases l with
    | nil =>
      obtain ⟨rfl, rfl⟩ := List.cons.inj h
      exact Or.inl ⟨rfl, rfl, rfl⟩
    | cons c l =>
      obtain ⟨rfl, rfl⟩ := List.cons.inj h
      obtain ⟨hb, hcr, hl⟩ := plain_cons.mp hl
      refine Or.inr ⟨l, rfl, hb, ?_, rfl, hl⟩
      cases l with
      | nil => simp
      | cons d l => simpa using hcr
  · rintro (⟨rfl, rfl, rfl⟩ | ⟨l', rfl, hb, hcr, rfl, hl⟩)
    · exact ⟨rfl, plain_nil⟩
    · refine ⟨rfl, plain_cons.mpr ⟨hb, ?_, hl⟩⟩
      cases l' with
      | nil => simp
      | cons d l => simpa using hcr

theorem not_cut_nil : ¬ Cut [] := by
  rintro ⟨l, rest, h, -⟩
  simp at h

theorem not_line_nil : ¬ Line [] l rest := by
  rintro ⟨h, -⟩
  simp at h

theorem returns_findCrlf {Q : Option ℕ → Prop} : Returns (findCrlf s) Q ↔
    (Cut s ∧ Q none) ∨ ∃ l rest, Line s l rest ∧ Q (some l.length) := by
  induction s generalizing Q with
  | nil => simp [findCrlf, not_cut_nil, not_line_nil]
  | cons b s ih =>
    unfold findCrlf
    by_cases hb : b = 0
    · subst hb
      simp [cut_cons, line_cons]
    · by_cases hcr : b = 13 ∧ s.head? = some 10
      · obtain ⟨rfl, hs⟩ := hcr
        obtain ⟨rest, rfl⟩ : ∃ rest, s = 10 :: rest := by
          cases s with
          | nil => simp at hs
          | cons c s => exact ⟨s, by simpa using hs⟩
        simp [cut_cons, line_cons]
      · rw [if_neg hb, if_neg hcr]
        simp only [returns_bind, returns_pure, ih, cut_cons, line_cons, Option.map_none,
          Option.map_some]
        constructor
        · rintro (⟨hcut, hq⟩ | ⟨l, rest, hline, hq⟩)
          · exact Or.inl ⟨Or.inr ⟨hb, hcr, hcut⟩, hq⟩
          · exact Or.inr ⟨b :: l, rest, Or.inr ⟨l, rfl, hb, hcr, hline⟩, hq⟩
        · rintro (⟨hcut, hq⟩ | ⟨l, rest, hline, hq⟩)
          · exact Or.inl ⟨(hcut.resolve_left hb).2.2, hq⟩
          · rcases hline with ⟨-, rfl, rfl⟩ | ⟨l', rfl, -, -, hline⟩
            · exact absurd ⟨rfl, rfl⟩ hcr
            · exact Or.inr ⟨l', rest, hline, hq⟩

theorem Line.find (h : Line s l rest) : findCrlf s = .ok (some l.length) :=
  eq_ok_iff.mpr (returns_findCrlf.mpr (Or.inr ⟨l, rest, h, rfl⟩))

theorem Line.unique {l' rest' : List UInt8} (h : Line s l rest) (h' : Line s l' rest') :
    l = l' ∧ rest = rest' := by
  have hlen : l.length = l'.length := by
    have heq := h.find.symm.trans h'.find
    simpa using heq
  have happ := List.append_inj (h.text.symm.trans h'.text) hlen
  exact ⟨happ.1, by simpa using happ.2⟩

theorem Line.suffix (h : Line s l rest) : rest <:+ s :=
  ⟨l ++ [13, 10], by simp [h.text]⟩

end Lines

/-! ## Searching for a byte string -/

/-- At most `n` positions are tried. Where the first byte agrees, all bytes are compared at
once: `memcmp`. -/
def search (w : List UInt8) : ℕ → List UInt8 → Checked (Option ℕ)
  | 0, _ => pure none
  | _ + 1, [] => throw .outOfBounds
  | n + 1, b :: s =>
    if w.head? = some b then
      if (b :: s).length < w.length then throw .outOfBounds
      else if w <+: b :: s then pure (some 0)
      else do return (← search w n s).map (· + 1)
    else do return (← search w n s).map (· + 1)

def FirstAt (w s : List UInt8) (m : ℕ) : Prop := w <+: s.drop m ∧ ∀ i < m, ¬ w <+: s.drop i

/-- None of the first `n` positions is a hit, and all of them can be tried. -/
def Missing (w : List UInt8) (n : ℕ) (s : List UInt8) : Prop :=
  ∀ i < n, i < s.length ∧ (s[i]? = w.head? → i + w.length ≤ s.length) ∧ ¬ w <+: s.drop i

section Search
variable {w s : List UInt8} {b : UInt8} {n m : ℕ}

theorem firstAt_zero : FirstAt w s 0 ↔ w <+: s := by simp [FirstAt]

theorem firstAt_succ : FirstAt w (b :: s) (m + 1) ↔ ¬ w <+: b :: s ∧ FirstAt w s m := by
  simp only [FirstAt, List.drop_succ_cons]
  constructor
  · rintro ⟨hw, hall⟩
    exact ⟨hall 0 (Nat.succ_pos m), hw, fun i hi => hall (i + 1) (Nat.succ_lt_succ hi)⟩
  · rintro ⟨h0, hw, hall⟩
    refine ⟨hw, fun i hi => ?_⟩
    cases i with
    | zero => exact h0
    | succ i => exact hall i (Nat.lt_of_succ_lt_succ hi)

theorem missing_succ : Missing w (n + 1) (b :: s) ↔
    (some b = w.head? → w.length ≤ s.length + 1) ∧ ¬ w <+: b :: s ∧ Missing w n s := by
  constructor
  · intro h
    have h0 := h 0 (Nat.succ_pos n)
    refine ⟨fun hb => by simpa using h0.2.1 hb, h0.2.2, fun i hi => ?_⟩
    have hi' := h (i + 1) (Nat.succ_lt_succ hi)
    simp only [List.length_cons, List.getElem?_cons_succ, List.drop_succ_cons] at hi'
    exact ⟨by omega, fun hb => by have := hi'.2.1 hb; omega, hi'.2.2⟩
  · rintro ⟨hlen, hno, h⟩ i hi
    cases i with
    | zero => exact ⟨Nat.succ_pos _, fun hb => by simpa using hlen hb, hno⟩
    | succ i =>
      have hi' := h i (Nat.lt_of_succ_lt_succ hi)
      simp only [List.length_cons, List.getElem?_cons_succ, List.drop_succ_cons]
      exact ⟨by omega, fun hb => by have := hi'.2.1 hb; omega, hi'.2.2⟩

theorem head_of_start (hw : w ≠ []) (h : w <+: b :: s) : w.head? = some b := by
  obtain ⟨t, ht⟩ := h
  cases w with
  | nil => exact absurd rfl hw
  | cons c w => simpa using (List.cons.inj ht).1

/-- What a search may tell about the first `n` positions. -/
def Tells (w : List UInt8) (n : ℕ) (s : List UInt8) (Q : Option ℕ → Prop) : Prop :=
  (∃ m < n, FirstAt w s m ∧ Q (some m)) ∨ (Missing w n s ∧ Q none)

variable {Q : Option ℕ → Prop}

theorem tells_later (hno : ¬ w <+: b :: s) (hlen : w.head? = some b → w.length ≤ s.length + 1) :
    Tells w (n + 1) (b :: s) Q ↔ Tells w n s fun o => Q (o.map (· + 1)) := by
  unfold Tells
  rw [missing_succ]
  constructor
  · rintro (⟨m, hm, hfirst, hq⟩ | ⟨⟨-, -, hmiss⟩, hq⟩)
    · cases m with
      | zero => exact absurd (firstAt_zero.mp hfirst) hno
      | succ m => exact Or.inl ⟨m, Nat.lt_of_succ_lt_succ hm, (firstAt_succ.mp hfirst).2, hq⟩
    · exact Or.inr ⟨hmiss, hq⟩
  · rintro (⟨m, hm, hfirst, hq⟩ | ⟨hmiss, hq⟩)
    · exact Or.inl ⟨m + 1, Nat.succ_lt_succ hm, firstAt_succ.mpr ⟨hno, hfirst⟩, hq⟩
    · exact Or.inr ⟨⟨fun hb => hlen hb.symm, hno, hmiss⟩, hq⟩

theorem tells_hit (hit : w <+: b :: s) : Tells w (n + 1) (b :: s) Q ↔ Q (some 0) := by
  constructor
  · rintro (⟨m, -, hfirst, hq⟩ | ⟨hmiss, -⟩)
    · cases m with
      | zero => exact hq
      | succ m => exact absurd hit (firstAt_succ.mp hfirst).1
    · exact absurd hit (missing_succ.mp hmiss).2.1
  · intro hq
    exact Or.inl ⟨0, Nat.succ_pos n, firstAt_zero.mpr hit, hq⟩

theorem not_tells_short (hb : w.head? = some b) (hlen : (b :: s).length < w.length) :
    ¬ Tells w (n + 1) (b :: s) Q := by
  rintro (⟨m, -, hfirst, -⟩ | ⟨hmiss, -⟩)
  · have hle := hfirst.1.length_le
    rw [List.length_drop] at hle
    omega
  · have hle := (missing_succ.mp hmiss).1 hb.symm
    rw [List.length_cons] at hlen
    omega

theorem not_tells_nil (hw : w ≠ []) : ¬ Tells w (n + 1) [] Q := by
  rintro (⟨m, -, hfirst, -⟩ | ⟨hmiss, -⟩)
  · exact hw (by simpa using hfirst.1)
  · exact absurd (hmiss 0 (Nat.succ_pos n)).1 (by simp)

theorem returns_search (hw : w ≠ []) : Returns (search w n s) Q ↔ Tells w n s Q := by
  induction n generalizing s Q with
  | zero => simp [search, Tells, Missing]
  | succ n ih =>
    cases s with
    | nil => simp [search, not_tells_nil hw]
    | cons b s =>
      unfold search
      by_cases hb : w.head? = some b
      · rw [if_pos hb]
        by_cases hlen : (b :: s).length < w.length
        · rw [if_pos hlen]
          simp [not_tells_short hb hlen]
        · rw [if_neg hlen]
          by_cases hit : w <+: b :: s
          · rw [if_pos hit, returns_pure, tells_hit hit]
          · rw [if_neg hit, tells_later hit fun _ => by simpa using hlen, returns_bind]
            simp only [returns_pure]
            exact ih
      · have hno : ¬ w <+: b :: s := fun h => hb (head_of_start hw h)
        rw [if_neg hb, tells_later hno fun h => absurd h hb, returns_bind]
        simp only [returns_pure]
        exact ih

/-- The first occurrence in the whole text, or nothing when there is none. -/
def Finds (w s : List UInt8) : Option ℕ → Prop
  | some m => FirstAt w s m
  | none => ¬ w <:+: s

theorem infix_iff_drop : w <:+: s ↔ ∃ m, w <+: s.drop m := by
  constructor
  · rintro ⟨x, y, rfl⟩
    exact ⟨x.length, by simp [List.append_assoc]⟩
  · rintro ⟨m, h⟩
    exact h.isInfix.trans (List.drop_suffix m s).isInfix

theorem firstAt_of_infix (h : w <:+: s) : ∃ m, FirstAt w s m := by
  classical
  have hex := infix_iff_drop.mp h
  exact ⟨Nat.find hex, Nat.find_spec hex, fun i hi => Nat.find_min hex hi⟩

theorem FirstAt.add_length_le (hw : w ≠ []) (h : FirstAt w s m) : m + w.length ≤ s.length := by
  have hpos : 0 < w.length := List.length_pos_of_ne_nil hw
  have hle := h.1.length_le
  rw [List.length_drop] at hle
  omega

theorem returns_search_all (hw : w ≠ []) :
    Returns (search w (s.length + 1 - w.length) s) (Finds w s) := by
  have hpos : 0 < w.length := List.length_pos_of_ne_nil hw
  rw [returns_search hw]
  by_cases h : w <:+: s
  · obtain ⟨m, hm⟩ := firstAt_of_infix h
    have hle := hm.add_length_le hw
    exact Or.inl ⟨m, by omega, hm, hm⟩
  · refine Or.inr ⟨fun i hi => ⟨by omega, fun _ => by omega, fun hi' => ?_⟩, h⟩
    exact h (infix_iff_drop.mpr ⟨i, hi'⟩)

end Search

end CheckedCode
