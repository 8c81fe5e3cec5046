import Mathlib.Data.List.Basic

/-! # Streams cut into blocks

A state takes a stream in blocks of `n` elements. `absorb` is the state after every complete
block and `tail` is what is left over, so that a stream may arrive in any pieces: the tail of
what came before goes in front of what comes next. -/
namespace BlockStreams

variable {α σ : Type}

def run (n : ℕ) (f : σ → List α → σ) : ℕ → σ → List α → σ
  | 0, s, _ => s
  | k + 1, s, l => run n f k (f s (l.take n)) (l.drop n)

def absorb (n : ℕ) (f : σ → List α → σ) (s : σ) (l : List α) : σ := run n f (l.length / n) s l

def tail (n : ℕ) (l : List α) : List α := l.drop (n * (l.length / n))

variable {n : ℕ} {f : σ → List α → σ} {s : σ} {l m : List α}

theorem absorb_short (h : l.length < n) : absorb n f s l = s := by
  rw [absorb, Nat.div_eq_of_lt h]
  rfl

theorem tail_short (h : l.length < n) : tail n l = l := by
  rw [tail, Nat.div_eq_of_lt h]
  rfl

section Step
variable (hn : 0 < n)
include hn

theorem absorb_step (h : n ≤ l.length) :
    absorb n f s l = absorb n f (f s (l.take n)) (l.drop n) := by
  have hdiv : l.length / n = (l.length - n) / n + 1 := Nat.div_eq_sub_div hn h
  rw [absorb, absorb, hdiv, List.length_drop]
  rfl

theorem tail_step (h : n ≤ l.length) : tail n l = tail n (l.drop n) := by
  have hdiv : l.length / n = (l.length - n) / n + 1 := Nat.div_eq_sub_div hn h
  rw [tail, tail, hdiv, List.length_drop, List.drop_drop, Nat.mul_add_one, Nat.add_comm]

theorem absorb_block_append (h : l.length = n) :
    absorb n f s (l ++ m) = absorb n f (f s l) m := by
  have hle : n ≤ (l ++ m).length := by
    rw [List.length_append]
    omega
  rw [absorb_step hn hle, List.take_left' h, List.drop_left' h]

theorem tail_block_append (h : l.length = n) : tail n (l ++ m) = tail n m := by
  have hle : n ≤ (l ++ m).length := by
    rw [List.length_append]
    omega
  rw [tail_step hn hle, List.drop_left' h]

theorem block_induction {P : List α → Prop} (short : ∀ l, l.length < n → P l)
    (step : ∀ l, n ≤ l.length → P (l.drop n) → P l) (l : List α) : P l := by
  induction hk : l.length using Nat.strongRecOn generalizing l with
  | ind k ih =>
  rcases Nat.lt_or_ge l.length n with hlt | hle
  · exact short l hlt
  · apply step l hle
    apply ih (l.drop n).length _ _ rfl
    rw [List.length_drop]
    omega

theorem absorb_append (s : σ) (l m : List α) :
    absorb n f s (l ++ m) = absorb n f (absorb n f s l) (tail n l ++ m) := by
  induction l using block_induction hn generalizing s with
  | short l hlt => rw [absorb_short hlt, tail_short hlt]
  | step l hle ih =>
    have happ : n ≤ (l ++ m).length := by
      rw [List.length_append]
      omega
    rw [absorb_step hn happ, List.take_append_of_le_length hle, List.drop_append_of_le_length hle,
      ih, absorb_step hn hle, tail_step hn hle]

theorem tail_append (l m : List α) : tail n (l ++ m) = tail n (tail n l ++ m) := by
  induction l using block_induction hn with
  | short l hlt => rw [tail_short hlt]
  | step l hle ih =>
    have happ : n ≤ (l ++ m).length := by
      rw [List.length_append]
      omega
    rw [tail_step hn happ, List.drop_append_of_le_length hle, ih, tail_step hn hle]

end Step

end BlockStreams
