import Mathlib.Data.List.Basic
import Mathlib.Tactic.Common

/-! # Readers of a stream that arrives in pieces

A reader keeps the part of the stream that it has not used in a buffer. After every piece it takes
rounds on the buffer until nothing is left or a round has to wait for more. An invariant relates
its state, the whole of the stream that is still to be used and the outputs that are still to
come; when each round keeps it, the outputs do not depend on how the stream is cut. -/
namespace ChunkedStreams

variable {σ β ω : Type}

/-- What a round leaves of the state and the buffer, and its outputs; `none` if it waits. -/
abbrev Round (σ β ω : Type) := σ → List β → (σ × List β) × Option (List ω)

/-- Rounds up to the first that waits, at most so many. -/
def drain (round : Round σ β ω) : ℕ → σ → List β → (σ × List β) × List ω
  | 0, s, buffer => ((s, buffer), [])
  | _, s, [] => ((s, []), [])
  | n + 1, s, b :: buffer =>
    match round s (b :: buffer) with
    | (c, none) => (c, [])
    | (c, some out) =>
      let (last, outs) := drain round n c.1 c.2
      (last, out ++ outs)

/-- A round that does not wait uses something of the buffer, which bounds their number. -/
def feed (round : Round σ β ω) : σ → List β → List (List β) → (σ × List β) × List ω
  | s, buffer, [] => ((s, buffer), [])
  | s, buffer, piece :: pieces =>
    let (c, outs) := drain round (buffer ++ piece).length s (buffer ++ piece)
    let (last, later) := feed round c.1 c.2 pieces
    (last, outs ++ later)

/-- `I s stream todo`: in the state `s` the reader will make the outputs `todo` of the stream. -/
structure Tracks (round : Round σ β ω) (I : σ → List β → List ω → Prop) : Prop where
  waits : ∀ {s buffer future todo c}, buffer ≠ [] → I s (buffer ++ future) todo →
    round s buffer = (c, none) → I c.1 (c.2 ++ future) todo ∧ (future = [] → todo = [])
  goes : ∀ {s buffer future todo c out}, buffer ≠ [] → I s (buffer ++ future) todo →
    round s buffer = (c, some out) →
      c.2.length < buffer.length ∧ ∃ todo', todo = out ++ todo' ∧ I c.1 (c.2 ++ future) todo'
  ends : ∀ {s todo}, I s [] todo → todo = []

variable {round : Round σ β ω} {I : σ → List β → List ω → Prop}

theorem Tracks.drained (h : Tracks round I) {future : List β} (n : ℕ) :
    ∀ {s : σ} {buffer : List β} {todo : List ω}, buffer.length ≤ n → I s (buffer ++ future) todo →
      ∃ todo', todo = (drain round n s buffer).2 ++ todo' ∧
        I (drain round n s buffer).1.1 ((drain round n s buffer).1.2 ++ future) todo' ∧
        (future = [] → todo' = []) := by
  induction n with
  | zero =>
    intro s buffer todo hn hI
    obtain rfl := List.length_eq_zero_iff.mp (Nat.le_zero.mp hn)
    refine ⟨todo, rfl, hI, ?_⟩
    rintro rfl
    exact h.ends hI
  | succ n ih =>
    intro s buffer todo hn hI
    cases buffer with
    | nil =>
      refine ⟨todo, rfl, hI, ?_⟩
      rintro rfl
      exact h.ends hI
    | cons b buffer =>
      rcases hround : round s (b :: buffer) with ⟨c, _ | out⟩
      · obtain ⟨hkept, hlast⟩ := h.waits (List.cons_ne_nil _ _) hI hround
        simp only [drain, hround]
        exact ⟨todo, rfl, hkept, hlast⟩
      · obtain ⟨hless, rest, rfl, hkept⟩ := h.goes (List.cons_ne_nil _ _) hI hround
        simp only [drain, hround]
        obtain ⟨todo', rfl, hI', hlast⟩ :=
          ih (Nat.le_of_lt_succ (Nat.lt_of_lt_of_le hless hn)) hkept
        exact ⟨todo', (List.append_assoc _ _ _).symm, hI', hlast⟩

theorem Tracks.fed (h : Tracks round I) (future : List β) (pieces : List (List β)) :
    ∀ {s : σ} {buffer : List β} {todo : List ω}, I s (buffer ++ (pieces.flatten ++ future)) todo →
      ∃ todo', todo = (feed round s buffer pieces).2 ++ todo' ∧
        I (feed round s buffer pieces).1.1 ((feed round s buffer pieces).1.2 ++ future) todo' ∧
        (future = [] → pieces ≠ [] → todo' = []) := by
  induction pieces with
  | nil =>
    intro s buffer todo hI
    exact ⟨todo, rfl, hI, fun _ hne => absurd rfl hne⟩
  | cons piece pieces ih =>
    intro s buffer todo hI
    rw [List.flatten_cons, List.append_assoc, ← List.append_assoc buffer] at hI
    obtain ⟨between, rfl, hI', hdrained⟩ := h.drained _ (Nat.le_refl _) hI
    obtain ⟨todo', hbetween, hlast, hfed⟩ := ih hI'
    refine ⟨todo', ?_, hlast, ?_⟩
    · rw [hbetween, ← List.append_assoc]
      rfl
    · rintro rfl -
      -- what the last pieces give is a part of what was left when the stream had arrived
      by_cases hp : pieces = []
      · subst hp
        have hnone := hdrained rfl
        rw [hbetween] at hnone
        exact (List.append_eq_nil_iff.mp hnone).2
      · exact hfed rfl hp

variable {s : σ} {todo : List ω} {pieces : List (List β)}

/-- However the stream is cut, exactly its outputs are made. -/
theorem Tracks.feed_all (h : Tracks round I) (hI : I s pieces.flatten todo) :
    (feed round s [] pieces).2 = todo := by
  obtain ⟨todo', rfl, -, hlast⟩ :=
    h.fed [] pieces (show I s ([] ++ (pieces.flatten ++ [])) todo by simpa using hI)
  by_cases hp : pieces = []
  · subst hp
    have hnone := h.ends hI
    rw [(List.append_eq_nil_iff.mp hnone).2, List.append_nil]
  · rw [hlast rfl hp, List.append_nil]

theorem Tracks.feed_part (h : Tracks round I) {future : List β}
    (hI : I s (pieces.flatten ++ future) todo) : (feed round s [] pieces).2 <+: todo := by
  obtain ⟨todo', rfl, -, -⟩ := h.fed future pieces (show I s ([] ++ _) todo from hI)
  exact List.prefix_append _ _

end ChunkedStreams
