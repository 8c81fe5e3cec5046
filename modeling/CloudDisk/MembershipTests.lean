import CloudDisk.HandlerRules
import CloudDisk.LexCounts

/-! # The membership test of the cached ranking

`rop_zset_exit` asks `ZLEXCOUNT` how many members lie between a file id and itself. The
ranking gives its members different scores, so the answer depends on where the entry sits
and not only on whether it is there. -/
namespace MembershipTests

open ByteStrings CommandPrograms SortedSets LexCounts DiskState DiskHandlers HandlerRules

section
variable {z : SortedSet} {member : CString} {d : Disk}

theorem score?_isSome : (z.score? member).isSome ↔ member ∈ z.entries.map Entry.member := by
  rw [Option.isSome_iff_exists, List.mem_map]
  constructor
  · rintro ⟨s, hs⟩
    obtain ⟨e, he, -, hm⟩ := SortedSet.mem_pairs.mp (SortedSet.score?_eq_some.mp hs)
    exact ⟨e, he, hm⟩
  · rintro ⟨e, he, hm⟩
    exact ⟨e.score, SortedSet.score?_eq_some.mpr (SortedSet.mem_pairs.mpr ⟨e, he, rfl, hm⟩)⟩

theorem zsetExit_keepZset (hz : d.redis filePublicZset = keepZset z) :
    zsetExit d member = z.lexCount member member := by
  unfold zsetExit
  rw [hz, keepZset]
  by_cases h0 : z.card = 0
  · have habs : ∀ s, (s, member) ∉ z.pairs := by
      simp [SortedSet.pairs, List.length_eq_zero_iff.mp h0]
    rw [if_pos h0, SortedSet.lexCount_absent habs]
  · rw [if_neg h0]

theorem run_ropZsetExit {e : ℕ → Outcome} (he : NoFail (e 0)) :
    ((ropZsetExit filePublicZset member).run Cmd.exec e d).1 = zsetExit d member := by
  cases ho : e 0 with
  | fail => exact absurd ho he
  | ok k =>
    unfold ropZsetExit zsetExit
    simp only [perform_bind, Prog.run, ho, Cmd.exec, RedisCmd.exec]
    cases d.redis filePublicZset with
    | none => rfl
    | some v => cases v <;> rfl

end

/-- The answer is the membership of `member` exactly when its entry, if it has one, is
exposed: walks by member reach it and stop there. -/
theorem membership_right_iff (z : SortedSet) (member : CString) (d : Disk)
    (hz : d.redis filePublicZset = keepZset z) (e : ℕ → Outcome) (he : NoFail (e 0)) :
    ((ropZsetExit filePublicZset member).run Cmd.exec e d).1 =
        (if member ∈ z.entries.map Entry.member then 1 else 0) ↔
      ∀ before x after, z.entries = before ++ x :: after → x.member = member →
        Exposed z before x after := by
  rw [run_ropZsetExit he, zsetExit_keepZset hz, ← lexCount_member_iff]
  simp only [score?_isSome]

def viewedOnce (first second : CString) (hne : first ≠ second) : SortedSet where
  encoding := .ziplist
  entries := [⟨0, first, 0⟩, ⟨1, second, 0⟩]
  sorted := by simp [Entry.key, Prod.Lex.toLex_le_toLex]
  distinct := by simpa using hne
  linked := by simp

def withPublicZset (z : SortedSet) : Disk :=
  ⟨0, 0, 0, 0, ∅, Function.update (fun _ => none) filePublicZset (keepZset z)⟩

theorem withPublicZset_key (z : SortedSet) :
    (withPublicZset z).redis filePublicZset = keepZset z := by
  simp [withPublicZset]

theorem membership_right_viewed_last :
    ((ropZsetExit filePublicZset (cstr "b")).run Cmd.exec (fun _ => .ok 0)
      (withPublicZset (viewedOnce (cstr "a") (cstr "b") (by decide)))).1 =
        (if cstr "b" ∈ (viewedOnce (cstr "a") (cstr "b") (by decide)).entries.map Entry.member
          then 1 else 0) := by
  refine (membership_right_iff _ (cstr "b") _ (withPublicZset_key _) (fun _ => .ok 0)
    (by simp [NoFail])).mpr ?_
  intro before x after hz _
  exact exposed_of_sorted (by simp [viewedOnce]; decide) hz

/-- The more viewed file is not found although it is in the set. -/
theorem membership_overlooked : ∃ (z : SortedSet) (d : Disk) (e : ℕ → Outcome),
    d.redis filePublicZset = keepZset z ∧ (∀ i, NoFail (e i)) ∧
    cstr "a" ∈ z.entries.map Entry.member ∧
    ((ropZsetExit filePublicZset (cstr "a")).run Cmd.exec e d).1 = 0 := by
  refine ⟨viewedOnce (cstr "b") (cstr "a") (by decide), withPublicZset _, fun _ => .ok 0,
    withPublicZset_key _, fun _ => by simp [NoFail], ?_, ?_⟩
  · simp [viewedOnce]
  · rw [run_ropZsetExit (by simp [NoFail]), zsetExit_keepZset (withPublicZset_key _)]
    decide

end MembershipTests
