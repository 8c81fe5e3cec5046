import CloudDisk.CheckedCode

/-! # Memory with a log

Code that works on an array through pointers, in memory that goes on at both sides of it. The
first cell of the array is position 0. Nothing is wrong with an access outside; every position
that is read or written is put on record, so that it can be said where the code has been. -/
namespace TracedMemory

open CheckedCode

structure Memory (β : Type) where
  size : ℕ
  cells : ℤ → β
  touched : List ℤ

abbrev Traced (β α : Type) := StateT (Memory β) Checked α

section
variable {α β γ : Type} {m m₁ : Memory β}

def Memory.touch (m : Memory β) (l : List ℤ) : Memory β := { m with touched := l ++ m.touched }

@[simp] theorem touch_size (l : List ℤ) : (m.touch l).size = m.size := rfl
@[simp] theorem touch_cells (l : List ℤ) : (m.touch l).cells = m.cells := rfl
@[simp] theorem touch_touched (l : List ℤ) : (m.touch l).touched = l ++ m.touched := rfl

theorem touch_touch (l l' : List ℤ) : (m.touch l).touch l' = m.touch (l' ++ l) := by
  simp [Memory.touch]

def Memory.put (m : Memory β) (p : ℤ) (x : β) : Memory β :=
  { m with cells := Function.update m.cells p x, touched := p :: m.touched }

@[simp] theorem put_size (p : ℤ) (x : β) : (m.put p x).size = m.size := rfl
@[simp] theorem put_touched (p : ℤ) (x : β) : (m.put p x).touched = p :: m.touched := rfl

theorem put_cells_self (p : ℤ) (x : β) : (m.put p x).cells p = x := by
  simp [Memory.put]

theorem put_cells_of_ne {p q : ℤ} (x : β) (h : q ≠ p) : (m.put p x).cells q = m.cells q := by
  simp [Memory.put, h]

def load (p : ℤ) : Traced β β := fun m => pure (m.cells p, m.touch [p])

def store (p : ℤ) (x : β) : Traced β Unit := fun m => pure ((), m.put p x)

/-! ## Running code -/

theorem run_bind {c : Traced β α} {f : α → Traced β γ} {a : α} (h : c m = .ok (a, m₁)) :
    (c >>= f) m = f a m₁ := by
  change (c m >>= _) = _
  rw [h]
  rfl

theorem run_bind_error {c : Traced β α} {f : α → Traced β γ} {e : Fault} (h : c m = .error e) :
    (c >>= f) m = .error e := by
  change (c m >>= _) = _
  rw [h]
  rfl

theorem run_load {f : β → Traced β γ} {p : ℤ} :
    (load p >>= f) m = f (m.cells p) (m.touch [p]) := run_bind rfl

theorem run_store {f : Unit → Traced β γ} {p : ℤ} {x : β} :
    (store p x >>= f) m = f () (m.put p x) := run_bind rfl

/-! ## Walking upwards -/

/-- The positions from `p` on, the last one in front. -/
def upward : ℤ → ℕ → List ℤ
  | p, 0 => [p]
  | p, n + 1 => upward (p + 1) n ++ [p]

theorem mem_upward {n : ℕ} {p q : ℤ} : q ∈ upward p n ↔ p ≤ q ∧ q ≤ p + n := by
  induction n generalizing p with
  | zero =>
    rw [upward, List.mem_singleton]
    omega
  | succ n ih =>
    rw [upward, List.mem_append, List.mem_singleton, ih]
    omega

/-- The number of cells before the first one that stops the walk, which may look at `k` cells. -/
def scan (e : Fault) (stop : β → Bool) : ℕ → ℤ → Traced β ℕ
  | 0, _ => throw e
  | k + 1, p => do
    if stop (← load p) then return 0
    else return (← scan e stop k (p + 1)) + 1

variable {e : Fault} {stop : β → Bool}

theorem next_position (p : ℤ) (i : ℕ) : p + 1 + i = p + (i + 1 : ℕ) := by omega

theorem scan_eq {k n : ℕ} {p : ℤ} (hn : n < k) (hgo : ∀ i < n, stop (m.cells (p + i)) = false)
    (hstop : stop (m.cells (p + n)) = true) :
    scan e stop k p m = .ok (n, m.touch (upward p n)) := by
  induction n generalizing k p m with
  | zero =>
    obtain ⟨k, rfl⟩ : ∃ k', k = k' + 1 := ⟨k - 1, by omega⟩
    have hnow : stop (m.cells p) = true := by simpa using hstop
    rw [scan, run_load, if_pos hnow]
    rfl
  | succ n ih =>
    obtain ⟨k, rfl⟩ : ∃ k', k = k' + 1 := ⟨k - 1, by omega⟩
    have hnow : stop (m.cells p) = false := by simpa using hgo 0 (Nat.succ_pos n)
    have hrest : scan e stop k (p + 1) (m.touch [p]) =
        .ok (n, (m.touch [p]).touch (upward (p + 1) n)) := by
      refine ih (by omega) (fun i hi => ?_) ?_
      · rw [next_position]
        exact hgo (i + 1) (by omega)
      · rw [next_position]
        exact hstop
    rw [scan, run_load, if_neg (by simp [hnow]), run_bind hrest, touch_touch]
    rfl

theorem scan_error {k : ℕ} {p : ℤ} (hgo : ∀ i < k, stop (m.cells (p + i)) = false) :
    scan e stop k p m = .error e := by
  induction k generalizing p m with
  | zero => rfl
  | succ k ih =>
    have hnow : stop (m.cells p) = false := by simpa using hgo 0 (Nat.succ_pos k)
    have hrest : scan e stop k (p + 1) (m.touch [p]) = .error e := by
      apply ih
      intro i hi
      rw [next_position]
      exact hgo (i + 1) (by omega)
    rw [scan, run_load, if_neg (by simp [hnow]), run_bind_error hrest]

/-! ## Walking downwards -/

def downward : ℤ → ℕ → List ℤ
  | p, 0 => [p]
  | p, n + 1 => downward (p - 1) n ++ [p]

theorem mem_downward {n : ℕ} {p q : ℤ} : q ∈ downward p n ↔ p - n ≤ q ∧ q ≤ p := by
  induction n generalizing p with
  | zero =>
    rw [downward, List.mem_singleton]
    omega
  | succ n ih =>
    rw [downward, List.mem_append, List.mem_singleton, ih]
    omega

/-- Down to the first cell that stops the walk, but no further than `k` cells. -/
def scanDown (stop : β → Bool) : ℕ → ℤ → Traced β ℤ
  | 0, p => do
    let _ ← load p
    return p
  | k + 1, p => do
    if stop (← load p) then return p
    else scanDown stop k (p - 1)

theorem scanDown_eq (k : ℕ) (p : ℤ) : ∃ n ≤ k, (∀ i < n, stop (m.cells (p - i)) = false) ∧
    (n = k ∨ stop (m.cells (p - n)) = true) ∧
      scanDown stop k p m = .ok (p - n, m.touch (downward p n)) := by
  induction k generalizing p m with
  | zero =>
    refine ⟨0, le_rfl, by simp, Or.inl rfl, ?_⟩
    rw [scanDown, run_load, Int.ofNat_zero, Int.sub_zero]
    rfl
  | succ k ih =>
    by_cases hnow : stop (m.cells p) = true
    · refine ⟨0, Nat.zero_le _, by simp, Or.inr (by simpa using hnow), ?_⟩
      rw [scanDown, run_load, if_pos hnow, Int.ofNat_zero, Int.sub_zero]
      rfl
    · obtain ⟨n, hn, hgo, hend, hrun⟩ := @ih (m.touch [p]) (p - 1)
      have hshift : ∀ i : ℕ, p - 1 - i = p - (i + 1 : ℕ) := fun i => by omega
      refine ⟨n + 1, Nat.succ_le_succ hn, fun i hi => ?_, ?_, ?_⟩
      · cases i with
        | zero => simpa using hnow
        | succ i =>
          rw [← hshift]
          exact hgo i (by omega)
      · rw [← hshift]
        exact hend.imp (congrArg Nat.succ) id
      · rw [scanDown, run_load, if_neg hnow, hrun, touch_touch, hshift]
        rfl

end

end TracedMemory
