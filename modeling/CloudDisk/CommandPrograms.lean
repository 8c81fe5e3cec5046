import Mathlib.Data.Nat.Notation
import Mathlib.Logic.Basic

/-! # Programs that talk to an environment by commands

A program is a finite tree: it either stops with a value or issues one command and
continues with the reply. Executing a command is a function of the state and of one
decision of the environment, so failures and free choices are explicit inputs.
Nothing here knows which commands exist. -/
namespace CommandPrograms

inductive Prog (C R α : Type) where
  | ret (a : α)
  | call (c : C) (next : R → Prog C R α)

variable {C R O W α β : Type}

def Prog.bind : Prog C R α → (α → Prog C R β) → Prog C R β
  | .ret a, f => f a
  | .call c next, f => .call c fun r => (next r).bind f

instance : Monad (Prog C R) where
  pure := .ret
  bind := Prog.bind

def perform (c : C) : Prog C R R := .call c .ret

@[simp] theorem pure_eq (a : α) : (pure a : Prog C R α) = .ret a := rfl

@[simp] theorem bind_ret (a : α) (f : α → Prog C R β) : (Prog.ret a >>= f) = f a := rfl

@[simp] theorem bind_call (c : C) (next : R → Prog C R α) (f : α → Prog C R β) :
    (Prog.call c next >>= f) = .call c fun r => next r >>= f := rfl

@[simp] theorem perform_bind (c : C) (f : R → Prog C R β) :
    (perform c >>= f) = .call c f := rfl

theorem bind_pure (p : Prog C R α) : (p >>= pure) = p := by
  induction p with
  | ret a => rfl
  | call c next ih => exact congrArg (Prog.call c) (funext ih)

theorem bind_assoc {γ : Type} (p : Prog C R α) (f : α → Prog C R β) (g : β → Prog C R γ) :
    ((p >>= f) >>= g) = p >>= fun a => f a >>= g := by
  induction p with
  | ret a => rfl
  | call c next ih => simp only [bind_call, ih]

/-- Decision `e i` is spent on the `i`-th command, whatever that command is. -/
def Prog.run (exec : O → C → W → R × W) : Prog C R α → (ℕ → O) → W → α × W
  | .ret a, _, w => (a, w)
  | .call c next, e, w =>
    (next (exec (e 0) c w).1).run exec (fun i => e (i + 1)) (exec (e 0) c w).2

@[simp] theorem run_ret (exec : O → C → W → R × W) (a : α) (e : ℕ → O) (w : W) :
    (Prog.ret a : Prog C R α).run exec e w = (a, w) := rfl

theorem run_bind_ret (exec : O → C → W → R × W) (p : Prog C R α) (f : α → β) (e : ℕ → O) (w : W) :
    (p >>= fun a => .ret (f a)).run exec e w = (f (p.run exec e w).1, (p.run exec e w).2) := by
  induction p generalizing e w with
  | ret a => rfl
  | call c next ih => exact ih _ _ _

/-- Total correctness under every sequence of admissible decisions: a program always
stops, so the postcondition is about the value and the state it stops with. -/
def Spec (exec : O → C → W → R × W) (adm : O → Prop) (p : Prog C R α) (w : W)
    (Q : α → W → Prop) : Prop :=
  ∀ e : ℕ → O, (∀ i, adm (e i)) → Q (p.run exec e w).1 (p.run exec e w).2

/-- As `Spec`, but what is admissible depends on how many commands came before. -/
def SpecSeq (exec : O → C → W → R × W) (adm : ℕ → O → Prop) (p : Prog C R α) (w : W)
    (Q : α → W → Prop) : Prop :=
  ∀ e : ℕ → O, (∀ i, adm i (e i)) → Q (p.run exec e w).1 (p.run exec e w).2

theorem specSeq_ret {exec : O → C → W → R × W} {adm : ℕ → O → Prop} {a : α} {w : W}
    {Q : α → W → Prop} (h : Q a w) : SpecSeq exec adm (.ret a) w Q := fun _ _ => h

theorem specSeq_call {exec : O → C → W → R × W} {adm : ℕ → O → Prop} {c : C}
    {next : R → Prog C R α} {w : W} {Q : α → W → Prop}
    (h : ∀ o, adm 0 o →
      SpecSeq exec (fun i => adm (i + 1)) (next (exec o c w).1) (exec o c w).2 Q) :
    SpecSeq exec adm (.call c next) w Q := by
  intro e he
  exact h (e 0) (he 0) (fun i => e (i + 1)) fun i => he (i + 1)

theorem SpecSeq.mono {exec : O → C → W → R × W} {adm : ℕ → O → Prop} {p : Prog C R α} {w : W}
    {P Q : α → W → Prop} (h : SpecSeq exec adm p w P) (himp : ∀ a w', P a w' → Q a w') :
    SpecSeq exec adm p w Q :=
  fun e he => himp _ _ (h e he)

section Rules
variable {exec : O → C → W → R × W} {adm : O → Prop}

theorem spec_ret {a : α} {w : W} {Q : α → W → Prop} (h : Q a w) :
    Spec exec adm (.ret a) w Q := fun _ _ => h

theorem spec_call {c : C} {next : R → Prog C R α} {w : W} {Q : α → W → Prop}
    (h : ∀ o, adm o → Spec exec adm (next (exec o c w).1) (exec o c w).2 Q) :
    Spec exec adm (.call c next) w Q := by
  intro e he
  exact h (e 0) (he 0) (fun i => e (i + 1)) fun i => he (i + 1)

theorem Spec.mono {p : Prog C R α} {w : W} {P Q : α → W → Prop}
    (h : Spec exec adm p w P) (himp : ∀ a w', P a w' → Q a w') : Spec exec adm p w Q :=
  fun e he => himp _ _ (h e he)

theorem Spec.admitting {adm' : O → Prop} {p : Prog C R α} {w : W} {Q : α → W → Prop}
    (h : Spec exec adm p w Q) (hadm : ∀ o, adm' o → adm o) : Spec exec adm' p w Q :=
  fun e he => h e fun i => hadm _ (he i)

theorem Spec.specSeq {adm' : ℕ → O → Prop} {p : Prog C R α} {w : W} {Q : α → W → Prop}
    (h : Spec exec adm p w Q) (hadm : ∀ i o, adm' i o → adm o) : SpecSeq exec adm' p w Q :=
  fun e he => h e fun i => hadm i _ (he i)

theorem spec_bind {p : Prog C R α} {f : α → Prog C R β} {w : W} {Q : β → W → Prop}
    (h : Spec exec adm p w fun a w' => Spec exec adm (f a) w' Q) :
    Spec exec adm (p >>= f) w Q := by
  induction p generalizing w with
  | ret a =>
    intro e he
    exact h e he e he
  | call c next ih =>
    refine spec_call fun o ho => ih _ ?_
    -- prepend the decision taken here, so that the hypothesis sees the whole sequence
    intro e he
    apply h (fun i => Nat.casesOn i o e)
    intro i
    cases i with
    | zero => exact ho
    | succ i => exact he i

end Rules

/-! ## A part of a larger world -/

section Parts
variable {C' V : Type}

/-- The same program, with its commands among those of a larger environment. -/
def Prog.embed (f : C → C') : Prog C R α → Prog C' R α
  | .ret a => .ret a
  | .call c next => .call (f c) fun r => (next r).embed f

/-- A part of a world that can be read and replaced. -/
structure Part (V W : Type) where
  get : W → V
  put : V → W → W
  get_put : ∀ v w, get (put v w) = v
  put_get : ∀ w, put (get w) w = w
  put_put : ∀ v v' w, put v (put v' w) = put v w

theorem run_embed (part : Part V W) {f : C → C'} {exec : O → C → V → R × V}
    {exec' : O → C' → W → R × W}
    (h : ∀ o c w, exec' o (f c) w =
      ((exec o c (part.get w)).1, part.put (exec o c (part.get w)).2 w))
    (p : Prog C R α) (e : ℕ → O) (w : W) :
    (p.embed f).run exec' e w =
      ((p.run exec e (part.get w)).1, part.put (p.run exec e (part.get w)).2 w) := by
  induction p generalizing e w with
  | ret a => simp only [Prog.embed, Prog.run, part.put_get]
  | call c next ih => simp only [Prog.embed, Prog.run, h, ih, part.get_put, part.put_put]

theorem spec_embed (part : Part V W) {f : C → C'} {exec : O → C → V → R × V}
    {exec' : O → C' → W → R × W} {adm : O → Prop}
    (h : ∀ o c w, exec' o (f c) w =
      ((exec o c (part.get w)).1, part.put (exec o c (part.get w)).2 w))
    {p : Prog C R α} {w : W} {Q : α → W → Prop}
    (hp : Spec exec adm p (part.get w) fun a v => Q a (part.put v w)) :
    Spec exec' adm (p.embed f) w Q := by
  intro e he
  rw [run_embed part h]
  exact hp e he

end Parts

/-- Every command the program can issue, whatever the replies, satisfies `P`. -/
def Prog.All (P : C → Prop) : Prog C R α → Prop
  | .ret _ => True
  | .call c next => P c ∧ ∀ r, (next r).All P

theorem all_mono {P Q : C → Prop} (h : ∀ c, P c → Q c) {p : Prog C R α} (hp : p.All P) :
    p.All Q := by
  induction p with
  | ret a => trivial
  | call c next ih => exact ⟨h c hp.1, fun r => ih r (hp.2 r)⟩

theorem all_bind {P : C → Prop} {p : Prog C R α} {f : α → Prog C R β} (hp : p.All P)
    (hf : ∀ a, (f a).All P) : (p >>= f).All P := by
  induction p with
  | ret a => exact hf a
  | call c next ih => exact ⟨hp.1, fun r => ih r (hp.2 r)⟩

/-- As `All`, but only for replies that are lawful for the command they answer. -/
def Prog.Stays (L : C → R → Prop) (P : C → Prop) : Prog C R α → Prop
  | .ret _ => True
  | .call c next => P c ∧ ∀ r, L c r → (next r).Stays L P

theorem Prog.All.stays {L : C → R → Prop} {P : C → Prop} {p : Prog C R α} (hp : p.All P) :
    p.Stays L P := by
  induction p with
  | ret a => trivial
  | call c next ih => exact ⟨hp.1, fun r _ => ih r (hp.2 r)⟩

theorem Prog.Stays.all {P : C → Prop} {p : Prog C R α} (hp : p.Stays (fun _ _ => True) P) :
    p.All P := by
  induction p with
  | ret a => trivial
  | call c next ih => exact ⟨hp.1, fun r => ih r (hp.2 r trivial)⟩

theorem stays_bind {L : C → R → Prop} {P : C → Prop} {p : Prog C R α} {f : α → Prog C R β}
    (hp : p.Stays L P) (hf : ∀ a, (f a).Stays L P) : (p >>= f).Stays L P := by
  induction p with
  | ret a => exact hf a
  | call c next ih => exact ⟨hp.1, fun r hr => ih r (hp.2 r hr)⟩

theorem run_eq_of_all {exec exec' : O → C → W → R × W} {P : C → Prop}
    (h : ∀ c, P c → ∀ o w, exec o c w = exec' o c w) {p : Prog C R α} (hp : p.All P) (e : ℕ → O)
    (w : W) : p.run exec e w = p.run exec' e w := by
  induction p generalizing e w with
  | ret a => rfl
  | call c next ih =>
    simp only [Prog.run, h c hp.1]
    exact ih _ (hp.2 _) _ _

theorem spec_of_all {exec exec' : O → C → W → R × W} {adm : O → Prop} {P : C → Prop}
    (h : ∀ c, P c → ∀ o w, exec o c w = exec' o c w) {p : Prog C R α} (hp : p.All P) {w : W}
    {Q : α → W → Prop} (hspec : Spec exec' adm p w Q) : Spec exec adm p w Q := by
  intro e he
  rw [run_eq_of_all h hp]
  exact hspec e he

theorem run_eq_of_reads {exec : O → C → W → R × W} {P : C → Prop} {w w' : W}
    (h : ∀ c, P c → ∀ o, (exec o c w).2 = w ∧ (exec o c w').2 = w' ∧
      (exec o c w').1 = (exec o c w).1) {p : Prog C R α} (hp : p.All P) (e : ℕ → O) :
    (p.run exec e w').1 = (p.run exec e w).1 := by
  induction p generalizing e with
  | ret a => rfl
  | call c next ih =>
    obtain ⟨hw, hw', hr⟩ := h c hp.1 (e 0)
    simp only [Prog.run, hw, hw', hr]
    exact ih _ (hp.2 _) _

theorem spec_all {exec : O → C → W → R × W} {adm : O → Prop} {P : C → Prop} {I : W → Prop}
    (hI : ∀ c, P c → ∀ o w, I w → I (exec o c w).2) {p : Prog C R α} (hp : p.All P) {w : W}
    (hw : I w) : Spec exec adm p w fun _ w' => I w' := by
  induction p generalizing w with
  | ret a => exact spec_ret hw
  | call c next ih =>
    apply spec_call
    intro o _
    exact ih _ (hp.2 _) (hI c hp.1 o w hw)

end CommandPrograms
