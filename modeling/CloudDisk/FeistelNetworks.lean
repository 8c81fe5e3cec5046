import Mathlib.Data.List.Basic
import Mathlib.Data.Prod.Basic

/-! # Feistel networks

A round moves the second half to the front and adds to the first half what a keyed function
makes of the second. Whatever that function is, the keys in reverse order undo the rounds, up to
an exchange of the halves, as soon as adding the same value twice changes nothing. -/
namespace FeistelNetworks

variable {α κ : Type}

def roundStep (add : α → α → α) (f : κ → α → α) (s : α × α) (k : κ) : α × α :=
  (s.2, add s.1 (f k s.2))

def run (add : α → α → α) (f : κ → α → α) (s : α × α) (ks : List κ) : α × α :=
  ks.foldl (roundStep add f) s

section Rules
variable {add : α → α → α} {f : κ → α → α}

@[simp] theorem run_nil (s : α × α) : run add f s [] = s := rfl

@[simp] theorem run_cons (s : α × α) (k : κ) (ks : List κ) :
    run add f s (k :: ks) = run add f (roundStep add f s k) ks := rfl

theorem run_append (s : α × α) (ks ks' : List κ) :
    run add f s (ks ++ ks') = run add f (run add f s ks) ks' := List.foldl_append

theorem round_swap_round (hadd : ∀ x y, add (add x y) y = x) (s : α × α) (k : κ) :
    roundStep add f (roundStep add f s k).swap k = s.swap := by
  simp only [roundStep, Prod.swap_prod_mk, hadd]
  rfl

theorem run_reverse (hadd : ∀ x y, add (add x y) y = x) (s : α × α) (ks : List κ) :
    run add f (run add f s ks).swap ks.reverse = s.swap := by
  induction ks generalizing s with
  | nil => rfl
  | cons k ks ih =>
    rw [run_cons, List.reverse_cons, run_append, ih, run_cons, run_nil, round_swap_round hadd]

theorem run_invariant {P : α × α → Prop} (hround : ∀ s k, P s → P (roundStep add f s k)) {s : α × α}
    (hs : P s) (ks : List κ) : P (run add f s ks) := by
  induction ks generalizing s with
  | nil => exact hs
  | cons k ks ih => exact ih (hround s k hs)

theorem run_take_succ (s : α × α) {ks : List κ} {n : ℕ} {k : κ} (h : ks[n]? = some k) :
    run add f s (ks.take (n + 1)) = roundStep add f (run add f s (ks.take n)) k := by
  rw [List.take_add_one, h, Option.toList_some, run_append]
  rfl

end Rules

end FeistelNetworks
