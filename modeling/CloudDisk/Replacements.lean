import Mathlib.Data.List.Infix

/-! # Replacing a list in a list

The occurrences of `find` that are met from left to right, each after the end of the one before,
and the list with all of them replaced. What is put in is not looked at again. -/
namespace Replacements

variable {α : Type} [DecidableEq α] {find repl s : List α} {c : α}

/-- The list from the `k`-th entry on as entries that stay and, for each occurrence, `none`. -/
def parts (find : List α) : ℕ → List α → List (Option α)
  | _, [] => []
  | k + 1, _ :: s => parts find k s
  | 0, c :: s => if find <+: c :: s then none :: parts find (find.length - 1) s
    else some c :: parts find 0 s

theorem parts_drop (k : ℕ) : parts find k s = parts find 0 (s.drop k) := by
  induction s generalizing k with
  | nil => cases k <;> rfl
  | cons c s ih =>
    cases k with
    | zero => rfl
    | succ k => exact ih k

theorem parts_skip (h : ¬ find <+: c :: s) : parts find 0 (c :: s) = some c :: parts find 0 s := by
  rw [parts, if_neg h]

theorem parts_hit (hne : find ≠ []) : parts find 0 (find ++ s) = none :: parts find 0 s := by
  obtain ⟨c, t, rfl⟩ := List.exists_cons_of_ne_nil hne
  have hit : c :: t <+: c :: (t ++ s) := List.prefix_append (c :: t) s
  rw [List.cons_append, parts, if_pos hit, parts_drop]
  simp

def occurrences (find s : List α) : ℕ := (parts find 0 s).count none

theorem occurrences_skip (h : ¬ find <+: c :: s) :
    occurrences find (c :: s) = occurrences find s := by
  rw [occurrences, parts_skip h, List.count_cons_of_ne (by simp)]
  rfl

theorem occurrences_hit (hne : find ≠ []) :
    occurrences find (find ++ s) = occurrences find s + 1 := by
  rw [occurrences, parts_hit hne, List.count_cons_self]
  rfl

def replaced (find repl s : List α) : List α :=
  (parts find 0 s).flatMap fun part => part.elim repl fun c => [c]

theorem replaced_skip (h : ¬ find <+: c :: s) :
    replaced find repl (c :: s) = c :: replaced find repl s := by
  rw [replaced, parts_skip h, List.flatMap_cons]
  rfl

theorem replaced_hit (hne : find ≠ []) :
    replaced find repl (find ++ s) = repl ++ replaced find repl s := by
  rw [replaced, parts_hit hne, List.flatMap_cons]
  rfl

theorem hit_induction {P : List α → Prop} (hne : find ≠ []) (nil : P [])
    (hit : ∀ s, P s → P (find ++ s)) (skip : ∀ c s, ¬ find <+: c :: s → P s → P (c :: s))
    (s : List α) : P s := by
  induction hn : s.length using Nat.strong_induction_on generalizing s with
  | _ n ih =>
    subst hn
    cases s with
    | nil => exact nil
    | cons c s =>
      by_cases h : find <+: c :: s
      · obtain ⟨t, ht⟩ := h
        rw [← ht]
        refine hit t (ih t.length ?_ t rfl)
        have hpos : 0 < find.length := List.length_pos_of_ne_nil hne
        rw [← ht, List.length_append]
        omega
      · exact skip c s h (ih s.length (Nat.lt_succ_self _) s rfl)

theorem infix_of_occurrences (hne : find ≠ []) (h : 0 < occurrences find s) : find <:+: s := by
  induction s using hit_induction hne with
  | nil => exact absurd h (Nat.lt_irrefl 0)
  | hit s ih => exact (List.prefix_append find s).isInfix
  | skip c s hno ih =>
    rw [occurrences_skip hno] at h
    exact (ih h).trans (List.suffix_cons c s).isInfix

theorem notMem_replaced {x : α} (hne : find ≠ []) (hrepl : x ∉ repl) (hs : x ∉ s) :
    x ∉ replaced find repl s := by
  induction s using hit_induction hne with
  | nil => exact hs
  | hit s ih =>
    rw [replaced_hit hne, List.mem_append]
    rintro (h | h)
    · exact hrepl h
    · exact ih (fun h => hs (List.mem_append_right find h)) h
  | skip c s hno ih =>
    rw [replaced_skip hno, List.mem_cons]
    rintro (rfl | h)
    · exact hs List.mem_cons_self
    · exact ih (fun h => hs (List.mem_cons_of_mem c h)) h

theorem length_le_replaced (hne : find ≠ []) (h : find.length ≤ repl.length) :
    s.length ≤ (replaced find repl s).length := by
  induction s using hit_induction hne with
  | nil => exact Nat.zero_le _
  | hit s ih =>
    rw [replaced_hit hne, List.length_append, List.length_append]
    omega
  | skip c s hno ih =>
    rw [replaced_skip hno, List.length_cons, List.length_cons]
    omega

theorem length_replaced_le (hne : find ≠ []) (h : repl.length ≤ find.length) :
    (replaced find repl s).length ≤ s.length := by
  induction s using hit_induction hne with
  | nil => exact Nat.zero_le _
  | hit s ih =>
    rw [replaced_hit hne, List.length_append, List.length_append]
    omega
  | skip c s hno ih =>
    rw [replaced_skip hno, List.length_cons, List.length_cons]
    omega

end Replacements
