import CloudDisk.CommandPrograms
import Mathlib.Data.List.Basic
import Mathlib.Logic.Function.Basic

/-! # Interleaved command programs

Several programs take turns on one world, a command at a time. When the commands of
different programs that depend on each other are issued in one common order of the programs,
the world and the results are those of running the programs one after another in that
order: the commands of the first program are moved to the front, past commands that do not
depend on them, and the rest follows in the same way. -/
namespace Interleavings

open CommandPrograms

structure Thread (C R O α : Type) where
  prog : Prog C R α
  decisions : ℕ → O

structure System (ι C R O W α : Type) where
  pool : ι → Thread C R O α
  world : W

structure Event (ι C O : Type) where
  thread : ι
  decision : O
  command : C

variable {ι C R O W α : Type} {exec : O → C → W → R × W}

/-- What the thread would do next; nothing when it has stopped. -/
def System.event (s : System ι C R O W α) (i : ι) : Option (Event ι C O) :=
  match (s.pool i).prog with
  | .ret _ => none
  | .call c _ => some ⟨i, (s.pool i).decisions 0, c⟩

section Event
variable {s : System ι C R O W α} {i : ι}

theorem event_stopped {a : α} (h : (s.pool i).prog = .ret a) : s.event i = none := by
  simp only [System.event, h]

theorem event_call {c : C} {next : R → Prog C R α} (h : (s.pool i).prog = .call c next) :
    s.event i = some ⟨i, (s.pool i).decisions 0, c⟩ := by
  simp only [System.event, h]

theorem thread_of_event {a : Event ι C O} (h : a ∈ s.event i) : a.thread = i := by
  cases hp : (s.pool i).prog with
  | ret b => simp [event_stopped hp] at h
  | call c next =>
    rw [event_call hp, Option.mem_some_iff] at h
    rw [← h]

theorem filter_event (p : ι → Bool) (s : System ι C R O W α) (i : ι) :
    (s.event i).toList.filter (fun a => p a.thread) = if p i then (s.event i).toList else [] := by
  cases he : s.event i with
  | none => simp
  | some a =>
    have hthread : a.thread = i := thread_of_event he
    cases hp : p i <;> simp [hthread, hp]

end Event

/-- In every world both orders give each command the same answer and leave the same. -/
def Independent (exec : O → C → W → R × W) (a b : Event ι C O) : Prop :=
  ∀ w, (exec b.decision b.command (exec a.decision a.command w).2).1 =
      (exec b.decision b.command w).1 ∧
    (exec a.decision a.command (exec b.decision b.command w).2).1 =
      (exec a.decision a.command w).1 ∧
    (exec b.decision b.command (exec a.decision a.command w).2).2 =
      (exec a.decision a.command (exec b.decision b.command w).2).2

theorem Independent.symm {a b : Event ι C O} (h : Independent exec a b) : Independent exec b a :=
  fun w => ⟨(h w).2.1, (h w).1, (h w).2.2.symm⟩

variable [DecidableEq ι]

def System.step (exec : O → C → W → R × W) (s : System ι C R O W α) (i : ι) :
    System ι C R O W α :=
  match (s.pool i).prog with
  | .ret _ => s
  | .call c next =>
    let answer := exec ((s.pool i).decisions 0) c s.world
    ⟨Function.update s.pool i ⟨next answer.1, fun n => (s.pool i).decisions (n + 1)⟩, answer.2⟩

def System.run (exec : O → C → W → R × W) (s : System ι C R O W α) (schedule : List ι) :
    System ι C R O W α := schedule.foldl (System.step exec) s

def System.trace (exec : O → C → W → R × W) (s : System ι C R O W α) :
    List ι → List (Event ι C O)
  | [] => []
  | i :: schedule => (s.event i).toList ++ (s.step exec i).trace exec schedule

def Thread.result (t : Thread C R O α) : Option α :=
  match t.prog with
  | .ret a => some a
  | .call _ _ => none

@[simp] theorem run_nil (s : System ι C R O W α) : s.run exec [] = s := rfl

@[simp] theorem run_cons (s : System ι C R O W α) (i : ι) (schedule : List ι) :
    s.run exec (i :: schedule) = (s.step exec i).run exec schedule := rfl

theorem run_induction {I : System ι C R O W α → Prop} (hstep : ∀ s i, I s → I (s.step exec i))
    (schedule : List ι) {s : System ι C R O W α} (hs : I s) : I (s.run exec schedule) := by
  induction schedule generalizing s with
  | nil => exact hs
  | cons i schedule ih => exact ih (hstep s i hs)

/-! ## One step -/

section Step
variable {s : System ι C R O W α} {i j : ι}

theorem step_stopped {a : α} (h : (s.pool i).prog = .ret a) : s.step exec i = s := by
  simp only [System.step, h]

theorem step_call {c : C} {next : R → Prog C R α} (h : (s.pool i).prog = .call c next) :
    s.step exec i = ⟨Function.update s.pool i ⟨next (exec ((s.pool i).decisions 0) c s.world).1,
      fun n => (s.pool i).decisions (n + 1)⟩, (exec ((s.pool i).decisions 0) c s.world).2⟩ := by
  simp only [System.step, h]

theorem pool_step (hne : j ≠ i) : (s.step exec i).pool j = s.pool j := by
  cases h : (s.pool i).prog with
  | ret a => rw [step_stopped h]
  | call c next =>
    rw [step_call h]
    exact Function.update_of_ne hne _ _

theorem event_step (hne : j ≠ i) : (s.step exec i).event j = s.event j := by
  simp only [System.event, pool_step hne]

theorem step_comm (hne : i ≠ j)
    (h : ∀ a ∈ s.event i, ∀ b ∈ s.event j, Independent exec a b) :
    (s.step exec i).step exec j = (s.step exec j).step exec i := by
  cases hi : (s.pool i).prog with
  | ret a =>
    have hi' : ((s.step exec j).pool i).prog = .ret a := by rw [pool_step hne, hi]
    rw [step_stopped hi, step_stopped hi']
  | call c next =>
    have hi' : ((s.step exec j).pool i).prog = .call c next := by rw [pool_step hne, hi]
    cases hj : (s.pool j).prog with
    | ret b =>
      have hj' : ((s.step exec i).pool j).prog = .ret b := by rw [pool_step hne.symm, hj]
      rw [step_stopped hj, step_stopped hj']
    | call c' next' =>
      have hj' : ((s.step exec i).pool j).prog = .call c' next' := by rw [pool_step hne.symm, hj]
      obtain ⟨hb, ha, hw⟩ := h _ (event_call hi) _ (event_call hj) s.world
      rw [step_call hi', step_call hj', pool_step hne, pool_step hne.symm, step_call hi,
        step_call hj]
      simp only at hb ha hw ⊢
      rw [hb, ha, hw, Function.update_comm hne]

end Step

/-! ## Traces -/

section Trace

theorem trace_threads (schedule : List ι) (s : System ι C R O W α) :
    ((s.trace exec schedule).map Event.thread).Sublist schedule := by
  induction schedule generalizing s with
  | nil => exact List.Sublist.slnil
  | cons i schedule ih =>
    simp only [System.trace, List.map_append]
    cases hp : (s.pool i).prog with
    | ret a =>
      rw [event_stopped hp]
      exact (ih _).cons i
    | call c next =>
      rw [event_call hp]
      exact (ih _).cons_cons i

theorem trace_all {P : ι → C → Prop} (schedule : List ι) (s : System ι C R O W α)
    (h : ∀ i, (s.pool i).prog.All (P i)) :
    ∀ a ∈ s.trace exec schedule, P a.thread a.command := by
  induction schedule generalizing s with
  | nil => exact fun a ha => absurd ha List.not_mem_nil
  | cons i schedule ih =>
    intro a ha
    have hi := h i
    cases hp : (s.pool i).prog with
    | ret b =>
      simp only [System.trace, event_stopped hp, step_stopped hp] at ha
      exact ih s h a ha
    | call c next =>
      rw [hp] at hi
      simp only [System.trace, event_call hp, Option.toList_some, List.cons_append, List.nil_append,
        List.mem_cons] at ha
      rcases ha with rfl | ha
      · exact hi.1
      · refine ih (s.step exec i) (fun j => ?_) a ha
        by_cases hj : j = i
        · subst hj
          rw [step_call hp]
          simp only [Function.update_self]
          exact hi.2 _
        · rw [pool_step hj]
          exact h j

theorem run_congr {exec' : O → C → W → R × W} {P : C → Prop}
    (hexec : ∀ c, P c → ∀ o w, exec o c w = exec' o c w) (schedule : List ι)
    (s : System ι C R O W α) (h : ∀ i, (s.pool i).prog.All P) :
    s.run exec schedule = s.run exec' schedule := by
  induction schedule generalizing s with
  | nil => rfl
  | cons i schedule ih =>
    rw [run_cons, run_cons]
    cases hp : (s.pool i).prog with
    | ret a =>
      rw [step_stopped hp, step_stopped hp]
      exact ih s h
    | call c next =>
      have hi := h i
      rw [hp] at hi
      rw [step_call hp, step_call hp, hexec c hi.1]
      apply ih _
      intro j
      by_cases hj : j = i
      · subst hj
        simp only [Function.update_self]
        exact hi.2 _
      · simp only [Function.update_of_ne hj]
        exact h j

/-- While the invariant holds all replies are lawful, so the threads issue only their own commands,
and these keep the invariant. -/
theorem run_invariant {I : W → Prop} {L : C → R → Prop} {P : ι → C → Prop}
    (hlawful : ∀ o c w, I w → L c (exec o c w).1)
    (hkeep : ∀ i o c w, P i c → I w → I (exec o c w).2) (schedule : List ι)
    (s : System ι C R O W α) (h : ∀ i, (s.pool i).prog.Stays L (P i)) (hI : I s.world) :
    I (s.run exec schedule).world := by
  induction schedule generalizing s with
  | nil => exact hI
  | cons i schedule ih =>
    rw [run_cons]
    cases hp : (s.pool i).prog with
    | ret a =>
      rw [step_stopped hp]
      exact ih s h hI
    | call c next =>
      have hi := h i
      rw [hp] at hi
      rw [step_call hp]
      refine ih _ (fun j => ?_) (hkeep i _ c _ hi.1 hI)
      by_cases hj : j = i
      · subst hj
        simp only [Function.update_self]
        exact hi.2 _ (hlawful _ c _ hI)
      · simp only [Function.update_of_ne hj]
        exact h j

end Trace

/-! ## The steps of one thread -/

section Alone
variable {s : System ι C R O W α} {i j : ι}

theorem pool_run (schedule : List ι) (h : j ∉ schedule) (s : System ι C R O W α) :
    (s.run exec schedule).pool j = s.pool j := by
  induction schedule generalizing s with
  | nil => rfl
  | cons k schedule ih =>
    rw [List.mem_cons, not_or] at h
    obtain ⟨hne, h⟩ := h
    rw [run_cons, ih h, pool_step hne]

theorem run_alone (schedule : List ι) (h : ∀ k ∈ schedule, k = i) (s : System ι C R O W α) {a : α}
    (hdone : ((s.run exec schedule).pool i).result = some a) :
    (a, (s.run exec schedule).world) =
      (s.pool i).prog.run exec (s.pool i).decisions s.world := by
  induction schedule generalizing s with
  | nil =>
    cases hp : (s.pool i).prog with
    | ret b =>
      have hb : b = a := by simpa [Thread.result, hp] using hdone
      rw [hb]
      rfl
    | call c next => simp [Thread.result, hp] at hdone
  | cons k schedule ih =>
    obtain rfl := h k List.mem_cons_self
    rw [run_cons] at hdone ⊢
    rw [ih (fun j hj => h j (List.mem_cons_of_mem _ hj)) _ hdone]
    cases hp : (s.pool k).prog with
    | ret b => rw [step_stopped hp, hp]
    | call c next =>
      rw [step_call hp]
      simp only [Function.update_self]
      rfl

theorem run_step_comm (hne : j ≠ i) (schedule : List ι) (hall : ∀ k ∈ schedule, k = i)
    (s : System ι C R O W α)
    (h : ∀ b ∈ s.event j, ∀ a ∈ (s.step exec j).trace exec schedule, Independent exec b a) :
    (s.step exec j).run exec schedule = (s.run exec schedule).step exec j ∧
      (s.step exec j).trace exec schedule = s.trace exec schedule := by
  induction schedule generalizing s with
  | nil => exact ⟨rfl, rfl⟩
  | cons k schedule ih =>
    obtain rfl := hall k List.mem_cons_self
    have hfirst : (s.step exec j).event k = s.event k := event_step hne.symm
    have hcomm : (s.step exec j).step exec k = (s.step exec k).step exec j := by
      apply step_comm hne
      intro b hb a ha
      apply h b hb
      rw [← hfirst] at ha
      exact List.mem_append_left _ (Option.mem_toList.mpr ha)
    obtain ⟨hrun, htrace⟩ :=
      ih (fun k hk => hall k (List.mem_cons_of_mem _ hk)) (s.step exec k) <| by
      intro b hb a ha
      rw [event_step hne] at hb
      rw [← hcomm] at ha
      exact h b hb a (List.mem_append_right _ ha)
    refine ⟨?_, ?_⟩
    · rw [run_cons, run_cons, hcomm, hrun]
    · simp only [System.trace]
      rw [hfirst, hcomm, htrace]

theorem eq_of_mem_own {i k : ι} {schedule : List ι} (hk : k ∈ schedule.filter (· = i)) : k = i := by
  simpa using (List.mem_filter.mp hk).2

theorem run_front (i : ι) (schedule : List ι) (s : System ι C R O W α)
    (h : (s.trace exec schedule).Pairwise fun b a =>
      a.thread = i → b.thread ≠ i → Independent exec b a) :
    s.run exec schedule =
        (s.run exec (schedule.filter (· = i))).run exec (schedule.filter (· ≠ i)) ∧
      s.trace exec (schedule.filter (· = i)) =
        (s.trace exec schedule).filter (·.thread = i) ∧
      (s.run exec (schedule.filter (· = i))).trace exec (schedule.filter (· ≠ i)) =
        (s.trace exec schedule).filter (·.thread ≠ i) := by
  induction schedule generalizing s with
  | nil => exact ⟨rfl, rfl, rfl⟩
  | cons j schedule ih =>
    obtain ⟨hjoin, hrest, hcross⟩ := List.pairwise_append.mp h
    obtain ⟨hrun, hmine, hothers⟩ := ih (s.step exec j) hrest
    have hmyEvent := filter_event (· = i) s j
    have hotherEvent := filter_event (· ≠ i) s j
    by_cases hj : j = i
    · subst hj
      simp only [decide_true, ne_eq, not_true_eq_false, decide_false, Bool.false_eq_true, if_true,
        if_false] at hmyEvent hotherEvent
      simp only [System.trace, List.filter_append, hmyEvent, hotherEvent, List.nil_append, ← hmine,
        ← hothers, List.filter_cons_of_pos, decide_true, ne_eq, not_true_eq_false, decide_false,
        run_cons, Bool.false_eq_true, not_false_eq_true, List.filter_cons_of_neg]
      exact ⟨hrun, trivial, trivial⟩
    · simp only [hj, decide_true, ne_eq, not_false_eq_true, decide_false, Bool.false_eq_true,
        if_true, if_false] at hmyEvent hotherEvent
      obtain ⟨hswap, hsame⟩ := run_step_comm hj _ (fun k => eq_of_mem_own) s <| by
        intro b hb a ha
        rw [hmine, List.mem_filter, decide_eq_true_eq] at ha
        have hb' : b.thread ≠ i := by rw [thread_of_event hb]; exact hj
        exact hcross b (Option.mem_toList.mpr hb) a ha.1 ha.2 hb'
      have hevent : (s.run exec (schedule.filter (· = i))).event j = s.event j := by
        simp only [System.event, pool_run _ (fun hmem => hj (eq_of_mem_own hmem))]
      rw [List.filter_cons_of_neg (by simpa using hj), List.filter_cons_of_pos (by simpa using hj)]
      simp only [System.trace, List.filter_append, hmyEvent, hotherEvent, List.nil_append, ne_eq,
        run_cons]
      refine ⟨?_, ?_, ?_⟩
      · rw [hrun, hswap]
      · rw [← hsame, hmine]
      · rw [hevent, ← hswap, hothers]

end Alone

/-! ## One thread after another -/

/-- The results and the world after running the programs of the pool in this order. -/
def serial (exec : O → C → W → R × W) (pool : ι → Thread C R O α) :
    List ι → (ι → Option α) × W → (ι → Option α) × W
  | [], s => s
  | i :: order, (results, w) =>
    let final := (pool i).prog.run exec (pool i).decisions w
    serial exec pool order (Function.update results i (some final.1), final.2)

theorem serial_invariant {pool : ι → Thread C R O α} {I : (ι → Option α) × W → Prop}
    (hstep : ∀ i results w, results i = none → I (results, w) →
      I (Function.update results i (some ((pool i).prog.run exec (pool i).decisions w).1),
        ((pool i).prog.run exec (pool i).decisions w).2))
    (order : List ι) (hnodup : order.Nodup) (s : (ι → Option α) × W)
    (hnone : ∀ i ∈ order, s.1 i = none) (hs : I s) : I (serial exec pool order s) := by
  induction order generalizing s with
  | nil => exact hs
  | cons i order ih =>
    obtain ⟨hi, hnodup⟩ := List.nodup_cons.mp hnodup
    apply ih hnodup
    · intro j hj
      have hne : j ≠ i := fun h => hi (h ▸ hj)
      simp only [Function.update_of_ne hne]
      exact hnone j (List.mem_cons_of_mem _ hj)
    · exact hstep i s.1 s.2 (hnone i List.mem_cons_self) hs

/-- No event depends on an earlier event of a thread that the order puts after its own. -/
def InOrder (exec : O → C → W → R × W) (order : List ι) (trace : List (Event ι C O)) : Prop :=
  trace.Pairwise fun b a => order.idxOf a.thread < order.idxOf b.thread → Independent exec b a

theorem InOrder.front {i : ι} {order : List ι} {trace : List (Event ι C O)}
    (h : InOrder exec (i :: order) trace) :
    trace.Pairwise fun b a => a.thread = i → b.thread ≠ i → Independent exec b a := by
  refine h.imp fun {b a} hind ha hb => hind ?_
  rw [ha, List.idxOf_cons_self, List.idxOf_cons_ne _ (Ne.symm hb)]
  exact Nat.succ_pos _

theorem InOrder.rest {i : ι} {order : List ι} {trace : List (Event ι C O)}
    (h : InOrder exec (i :: order) trace) :
    InOrder exec order (trace.filter (·.thread ≠ i)) := by
  unfold InOrder
  rw [List.pairwise_filter]
  refine h.imp fun {b a} hind hb ha hlt => hind ?_
  simp only [ne_eq, decide_eq_true_eq] at hb ha
  rw [List.idxOf_cons_ne _ (Ne.symm ha), List.idxOf_cons_ne _ (Ne.symm hb)]
  omega

theorem serial_eq_run (pool : ι → Thread C R O α) (order : List ι) (hnodup : order.Nodup)
    (schedule : List ι) (hsched : ∀ i ∈ schedule, i ∈ order) (s : System ι C R O W α)
    (hpool : ∀ i ∈ order, s.pool i = pool i)
    (hdone : ∀ i ∈ order, (((s.run exec schedule).pool i).result).isSome)
    (h : InOrder exec order (s.trace exec schedule)) (results : ι → Option α)
    (hresults : ∀ i ∉ order, results i = (s.pool i).result) :
    serial exec pool order (results, s.world) =
      (fun i => ((s.run exec schedule).pool i).result, (s.run exec schedule).world) := by
  induction order generalizing schedule s results with
  | nil =>
    obtain rfl : schedule = [] :=
      List.eq_nil_iff_forall_not_mem.mpr fun i hi => List.not_mem_nil (hsched i hi)
    simp only [serial, run_nil, Prod.mk.injEq, and_true]
    exact funext fun i => hresults i List.not_mem_nil
  | cons i order ih =>
    obtain ⟨hi, hnodup⟩ := List.nodup_cons.mp hnodup
    obtain ⟨hrun, -, hothers⟩ := run_front i schedule s h.front
    have hrest : i ∉ schedule.filter (· ≠ i) := by simp [List.mem_filter]
    rw [hrun] at hdone ⊢
    obtain ⟨a, ha⟩ := Option.isSome_iff_exists.mp (hdone i List.mem_cons_self)
    rw [pool_run _ hrest] at ha
    have hstays : ∀ j, j ≠ i → (s.run exec (schedule.filter (· = i))).pool j = s.pool j :=
      fun j hne => pool_run _ (fun hmem => hne (eq_of_mem_own hmem)) s
    have halone := run_alone _ (fun k => eq_of_mem_own) s ha
    rw [hpool i List.mem_cons_self] at halone
    simp only [serial, ← halone]
    apply ih hnodup
    · intro k hk
      obtain ⟨hk, hne⟩ := List.mem_filter.mp hk
      rcases List.mem_cons.mp (hsched k hk) with rfl | hk
      · simp at hne
      · exact hk
    · intro j hj
      rw [hstays j fun heq => hi (heq ▸ hj)]
      exact hpool j (List.mem_cons_of_mem _ hj)
    · intro j hj
      exact hdone j (List.mem_cons_of_mem _ hj)
    · rw [hothers]
      exact h.rest
    · intro j hj
      by_cases hne : j = i
      · rw [hne, Function.update_self, ha]
      · rw [Function.update_of_ne hne, hstays j hne]
        apply hresults j
        simp [hne, hj]

/-- The programs of the pool, none of them started, with every thread in the order. -/
theorem serializable {order : List ι} (hnodup : order.Nodup) (hall : ∀ i, i ∈ order)
    {schedule : List ι} {s : System ι C R O W α}
    (hdone : ∀ i, (((s.run exec schedule).pool i).result).isSome)
    (h : InOrder exec order (s.trace exec schedule)) :
    serial exec s.pool order (fun _ => none, s.world) =
      (fun i => ((s.run exec schedule).pool i).result, (s.run exec schedule).world) :=
  serial_eq_run s.pool order hnodup schedule (fun i _ => hall i) s (fun _ _ => rfl)
    (fun i _ => hdone i) h _ fun i hi => absurd (hall i) hi

end Interleavings
