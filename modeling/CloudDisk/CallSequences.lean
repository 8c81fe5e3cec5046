import CloudDisk.CommandPrograms

/-! # Sequences of calls and an abstract machine

Calls run one after another on one world, each of them as a program of commands. An abstract
machine answers a call in one step. A relation between worlds and abstract states that every
call keeps while it gives the answer of the machine makes all the answers of a sequence equal. -/
namespace CallSequences

open CommandPrograms

variable {K C R O W A α : Type}

/-- The programs of the calls, and what has happened to the world when one of them starts. -/
structure Service (K C R W α : Type) where
  handler : K → Prog C R α
  arrive : K → W → W

variable (exec : O → C → W → R × W) (S : Service K C R W α) (step : K → A → α × A)

def runCalls : List (K × (ℕ → O)) → W → List α × W
  | [], w => ([], w)
  | (k, e) :: calls, w =>
    let here := (S.handler k).run exec e (S.arrive k w)
    let rest := runCalls calls here.2
    (here.1 :: rest.1, rest.2)

def runAbstract : List K → A → List α × A
  | [], a => ([], a)
  | k :: calls, a =>
    let rest := runAbstract calls (step k a).2
    ((step k a).1 :: rest.1, rest.2)

/-- Every call is allowed in the world and the abstract state that it finds. -/
def Admitted (allowed : W → A → K → Prop) : List (K × (ℕ → O)) → W → A → Prop
  | [], _, _ => True
  | (k, e) :: calls, w, a => allowed w a k ∧
    Admitted allowed calls ((S.handler k).run exec e (S.arrive k w)).2 (step k a).2

variable {exec S step} {adm : O → Prop} {allowed : W → A → K → Prop} {Rel : W → A → Prop}

theorem runCalls_refines
    (hstep : ∀ k w a, Rel w a → allowed w a k →
      Spec exec adm (S.handler k) (S.arrive k w) fun r w' => r = (step k a).1 ∧ Rel w' (step k a).2)
    (calls : List (K × (ℕ → O))) :
    ∀ {w : W} {a : A}, (∀ c ∈ calls, ∀ i, adm (c.2 i)) → Rel w a →
      Admitted exec S step allowed calls w a →
      (runCalls exec S calls w).1 = (runAbstract step (calls.map Prod.fst) a).1 ∧
        Rel (runCalls exec S calls w).2 (runAbstract step (calls.map Prod.fst) a).2 := by
  induction calls with
  | nil =>
    intro w a _ hrel _
    exact ⟨rfl, hrel⟩
  | cons c calls ih =>
    intro w a he hrel hadmitted
    obtain ⟨k, e⟩ := c
    obtain ⟨hc, hcalls⟩ := List.forall_mem_cons.mp he
    obtain ⟨hanswer, hnext⟩ := hstep k w a hrel hadmitted.1 e hc
    obtain ⟨hanswers, hlast⟩ := ih hcalls hnext hadmitted.2
    refine ⟨?_, hlast⟩
    simp only [runCalls, runAbstract, List.map_cons, hanswer, hanswers]

section Congruence
variable {exec' : O → C → W → R × W} {P : C → Prop} {calls : List (K × (ℕ → O))}

theorem runCalls_congr (h : ∀ c, P c → ∀ o w, exec o c w = exec' o c w)
    (hall : ∀ c ∈ calls, (S.handler c.1).All P) (w : W) :
    runCalls exec S calls w = runCalls exec' S calls w := by
  induction calls generalizing w with
  | nil => rfl
  | cons c calls ih =>
    obtain ⟨hc, hcalls⟩ := List.forall_mem_cons.mp hall
    simp only [runCalls, run_eq_of_all h hc, ih hcalls]

theorem admitted_congr (h : ∀ c, P c → ∀ o w, exec o c w = exec' o c w)
    (hall : ∀ c ∈ calls, (S.handler c.1).All P) (w : W) (a : A) :
    Admitted exec S step allowed calls w a ↔ Admitted exec' S step allowed calls w a := by
  induction calls generalizing w a with
  | nil => rfl
  | cons c calls ih =>
    obtain ⟨hc, hcalls⟩ := List.forall_mem_cons.mp hall
    simp only [Admitted, run_eq_of_all h hc, ih hcalls]

end Congruence

end CallSequences
