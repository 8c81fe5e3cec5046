import Mathlib.Algebra.BigOperators.Group.List.Basic
import Mathlib.Algebra.Group.Nat.Defs
import Mathlib.Algebra.GroupWithZero.Nat

/-! # Blocks that grow behind the fact

Pieces are put one after the other into a block. A count of what is in it, which runs ahead of the
truth by a fixed surplus, is compared with a mark after every piece. At the mark the block is
resized to the count and an increment, and the mark moves on by the increment. A resize to the
bound of the sizes or more is a failure. -/
namespace GrowingBlocks

def totals (used : ℕ) (lengths : List ℕ) (k : ℕ) : ℕ := used + (lengths.take k).sum

/-- The first place at which the counts are at a mark. -/
def FirstReaches (count : ℕ → ℕ) (mark k : ℕ) : Prop := mark ≤ count k ∧ ∀ i < k, count i < mark

/-- Every piece fits the block it is put in, whose mark and size are as the pieces before left
them. -/
def Room (m surplus bound : ℕ) : ℕ → ℕ → ℕ → List ℕ → Prop
  | _, _, _, [] => True
  | size, mark, used, a :: lengths =>
    used + a < size + surplus ∧
      -- the comparison comes after the piece has been put in
      if mark ≤ used + a then
        used + a + m < bound ∧ Room m surplus bound (used + a + m) (mark + m) (used + a) lengths
      else Room m surplus bound size mark (used + a) lengths

section Counts
variable {used a mark k : ℕ} {lengths : List ℕ} {count : ℕ → ℕ}

theorem totals_zero : totals used lengths 0 = used := by
  rw [totals, List.take_zero, List.sum_nil, Nat.add_zero]

theorem totals_nil : totals used [] k = used := by
  rw [totals, List.take_nil, List.sum_nil, Nat.add_zero]

theorem totals_succ : totals used (a :: lengths) (k + 1) = totals (used + a) lengths k := by
  rw [totals, totals, List.take_succ_cons, List.sum_cons, Nat.add_assoc]

theorem firstReaches_zero : FirstReaches count mark 0 ↔ mark ≤ count 0 := by
  simp [FirstReaches]

theorem firstReaches_succ : FirstReaches count mark (k + 1) ↔
    count 0 < mark ∧ FirstReaches (fun i => count (i + 1)) mark k := by
  constructor
  · rintro ⟨hle, hbefore⟩
    exact ⟨hbefore 0 (Nat.succ_pos k), hle, fun i hi => hbefore (i + 1) (Nat.succ_lt_succ hi)⟩
  · rintro ⟨hzero, hle, hbefore⟩
    refine ⟨hle, fun i hi => ?_⟩
    cases i with
    | zero => exact hzero
    | succ i => exact hbefore i (Nat.lt_of_succ_lt_succ hi)

theorem not_firstReaches_nil (h : used < mark) : ¬ FirstReaches (totals used []) mark k := by
  rintro ⟨hle, -⟩
  rw [totals_nil] at hle
  omega

theorem firstReaches_cons (h : used < mark) : FirstReaches (totals used (a :: lengths)) mark k ↔
    ∃ i, k = i + 1 ∧ FirstReaches (totals (used + a) lengths) mark i := by
  cases k with
  | zero =>
    rw [firstReaches_zero, totals_zero]
    constructor
    · intro hle
      omega
    · rintro ⟨i, hi, -⟩
      omega
  | succ k =>
    rw [firstReaches_succ, totals_zero, and_iff_right h]
    simp only [totals_succ, Nat.add_right_cancel_iff]
    exact ⟨fun hk => ⟨k, rfl, hk⟩, fun ⟨i, hi, hreach⟩ => hi ▸ hreach⟩

theorem firstReaches_now (h : mark ≤ used) :
    FirstReaches (totals used lengths) mark k ↔ k = 0 := by
  constructor
  · rintro ⟨-, hbefore⟩
    by_contra hk
    have hzero := hbefore 0 (Nat.pos_of_ne_zero hk)
    rw [totals_zero] at hzero
    omega
  · rintro rfl
    rwa [firstReaches_zero, totals_zero]

theorem forall_totals_cons {m bound : ℕ} : (∀ k, totals used (a :: lengths) k + m < bound) ↔
    ∀ k, totals (used + a) lengths k + m < bound := by
  constructor
  · intro h k
    rw [← totals_succ]
    exact h (k + 1)
  · intro h k
    cases k with
    | zero =>
      have hnext := h 0
      rw [totals_zero] at hnext ⊢
      omega
    | succ k =>
      rw [totals_succ]
      exact h k

theorem forall_firstReaches_cons {P : ℕ → Prop} (hused : used < mark) :
    (∀ k, FirstReaches (totals used (a :: lengths)) mark k → P (totals used (a :: lengths) k)) ↔
      ∀ k, FirstReaches (totals (used + a) lengths) mark k → P (totals (used + a) lengths k) := by
  constructor
  · intro h k hk
    rw [← totals_succ]
    exact h (k + 1) ((firstReaches_cons hused).mpr ⟨k, rfl, hk⟩)
  · intro h k hreached
    obtain ⟨k, rfl, hk⟩ := (firstReaches_cons hused).mp hreached
    rw [totals_succ]
    exact h k hk

end Counts

def Step (m surplus : ℕ) (count : ℕ → ℕ) (h : ℕ) : Prop :=
  ∀ j, FirstReaches count (h * m) j → ∀ k, FirstReaches count ((h + 1) * m) k →
    count k < count j + m + surplus

/-- In terms of the counts alone: from the mark `g * m` on, how far the count goes at each mark. -/
structure Paced (m surplus bound size g : ℕ) (count : ℕ → ℕ) : Prop where
  total : ∀ k, count k + m < bound
  first : ∀ k, FirstReaches count (g * m) k → count k < size + surplus
  later : ∀ h, g ≤ h → Step m surplus count h

section Paces
variable {m surplus N size g used a : ℕ} {lengths : List ℕ}

theorem lt_later_mark {h : ℕ} (hused : used < g * m) (hh : g ≤ h) : used < h * m :=
  Nat.lt_of_lt_of_le hused (Nat.mul_le_mul_right m hh)

theorem step_cons {h : ℕ} (hused : used < h * m) :
    Step m surplus (totals used (a :: lengths)) h ↔
      Step m surplus (totals (used + a) lengths) h := by
  have hnext : used < (h + 1) * m := lt_later_mark hused (Nat.le_succ h)
  refine (forall_firstReaches_cons (P := fun c => ∀ k, FirstReaches (totals used (a :: lengths))
    ((h + 1) * m) k → totals used (a :: lengths) k < c + m + surplus) hused).trans ?_
  apply forall₂_congr
  intro j _
  exact forall_firstReaches_cons (P := fun c => c < totals (used + a) lengths j + m + surplus) hnext

theorem paced_nil (hg : g < N) (hused : used < g * m) :
    Paced m surplus (N * m) size g (totals used []) := by
  refine ⟨fun k => ?_, fun k hk => ?_, fun h hh j hj => ?_⟩
  · have hbound : (g + 1) * m ≤ N * m := Nat.mul_le_mul_right m hg
    rw [Nat.succ_mul] at hbound
    rw [totals_nil]
    omega
  · exact absurd hk (not_firstReaches_nil hused)
  · exact absurd hj (not_firstReaches_nil (lt_later_mark hused hh))

theorem paced_below {bound : ℕ} (hbelow : used + a < g * m) :
    Paced m surplus bound size g (totals used (a :: lengths)) ↔
      Paced m surplus bound size g (totals (used + a) lengths) := by
  have hused : used < g * m := by omega
  have hfirst := @forall_firstReaches_cons used a (g * m) lengths (· < size + surplus) hused
  constructor
  · intro h
    exact ⟨forall_totals_cons.mp h.total, hfirst.mp h.first,
      fun i hi => (step_cons (lt_later_mark hused hi)).mp (h.later i hi)⟩
  · intro h
    exact ⟨forall_totals_cons.mpr h.total, hfirst.mpr h.first,
      fun i hi => (step_cons (lt_later_mark hused hi)).mpr (h.later i hi)⟩

theorem paced_append {bound : ℕ} {front : List ℕ} (hbelow : used + front.sum < g * m) :
    Paced m surplus bound size g (totals used (front ++ lengths)) ↔
      Paced m surplus bound size g (totals (used + front.sum) lengths) := by
  induction front generalizing used with
  | nil => rfl
  | cons a front ih =>
    rw [List.sum_cons, ← Nat.add_assoc] at hbelow ⊢
    rw [List.cons_append, paced_below (by omega), ih hbelow]

theorem paced_of_sum_lt (hg : g < N) (hbelow : used + lengths.sum < g * m) :
    Paced m surplus (N * m) size g (totals used lengths) := by
  rw [← List.append_nil lengths, paced_append hbelow]
  exact paced_nil hg hbelow

theorem paced_reaching {bound : ℕ} (hused : used < g * m) (hreach : g * m ≤ used + a) :
    Paced m surplus bound size g (totals used (a :: lengths)) ↔
      used + a < size + surplus ∧ used + a + m < bound ∧
        Paced m surplus bound (used + a + m) (g + 1) (totals (used + a) lengths) := by
  have hnow : ∀ k, FirstReaches (totals (used + a) lengths) (g * m) k ↔ k = 0 := fun _ =>
    firstReaches_now hreach
  have hfirst := @forall_firstReaches_cons used a (g * m) lengths (· < size + surplus) hused
  constructor
  · intro h
    have htotal := forall_totals_cons.mp h.total
    have hzero := hfirst.mp h.first 0 ((hnow 0).mpr rfl)
    have hstep := (step_cons hused).mp (h.later g (Nat.le_refl g)) 0 ((hnow 0).mpr rfl)
    have hbound := htotal 0
    rw [totals_zero] at hzero hstep hbound
    exact ⟨hzero, hbound, htotal, hstep,
      fun i hi => (step_cons (lt_later_mark hused (by omega))).mp (h.later i (by omega))⟩
  · rintro ⟨hfits, hbound, h⟩
    refine ⟨forall_totals_cons.mpr h.total, hfirst.mpr fun k hk => ?_, fun i hi => ?_⟩
    · rwa [(hnow k).mp hk, totals_zero]
    · rw [step_cons (lt_later_mark hused hi)]
      rcases Nat.eq_or_lt_of_le hi with rfl | hlt
      · intro j hj
        rw [(hnow j).mp hj, totals_zero]
        exact h.first
      · exact h.later i hlt

theorem room_iff_paced (hg : g < N) (hsize : g * m ≤ size) (hused : used < g * m)
    (hshort : ∀ a ∈ lengths, a ≤ m) : Room m surplus (N * m) size (g * m) used lengths ↔
      Paced m surplus (N * m) size g (totals used lengths) := by
  induction lengths generalizing size g used with
  | nil => exact iff_of_true trivial (paced_nil hg hused)
  | cons a lengths ih =>
    have ha : a ≤ m := hshort a List.mem_cons_self
    have hrest : ∀ b ∈ lengths, b ≤ m := fun b hb => hshort b (List.mem_cons_of_mem a hb)
    by_cases hreach : g * m ≤ used + a
    · rw [Room, if_pos hreach, paced_reaching hused hreach]
      refine and_congr_right fun _ => and_congr_right fun hbound => ?_
      have hnext : (g + 1) * m = g * m + m := Nat.succ_mul g m
      have hg' : g + 1 < N := by
        apply Nat.lt_of_mul_lt_mul_right (a := m)
        omega
      rw [← hnext]
      exact ih hg' (by omega) (by omega) hrest
    · rw [Room, if_neg hreach, paced_below (by omega), ih hg hsize (by omega) hrest]
      exact and_iff_right (by omega)

end Paces

end GrowingBlocks
