import CloudDisk.DiskState
import CloudDisk.Interleavings

/-! # Commands that can be swapped

Two statements conflict when they touch a common row of one table and one of them writes.
The queries over several tables conflict with every statement that writes. Commands that do
not conflict can be issued in either order, whatever the outcomes. -/
namespace CommandConflicts

open ByteStrings RowTables DiskState Interleavings

def writes : Sql → Bool
  | .fileInfo op => !op.isSelect
  | .userFileList op => !op.isSelect
  | .shareFileList op => !op.isSelect
  | .userFileCount op => !op.isSelect
  | _ => false

def joins : Sql → Bool
  | .rankShares => true
  | .userFileInfo _ => true
  | .shareFileInfo _ _ => true
  | _ => false

def SqlConflict : Sql → Sql → Prop
  | .fileInfo a, .fileInfo b => a.Conflict b
  | .userFileList a, .userFileList b => a.Conflict b
  | .shareFileList a, .shareFileList b => a.Conflict b
  | .userFileCount a, .userFileCount b => a.Conflict b
  | a, b => (joins a ∧ writes b) ∨ (writes a ∧ joins b)

def Conflict : Cmd → Cmd → Prop
  | .query a, .query b => SqlConflict a b
  | .redis _, .redis _ => True
  | .fdfsDelete a, .fdfsDelete b => a = b
  | _, _ => False

/-! ## Queries -/

section Queries
variable {a b : Sql} {d : Disk} {k : ℕ}

theorem effect_of_not_writes (h : writes b = false) (d : Disk) : b.effect d = d := by
  cases b with
  | fileInfo op => simp only [Sql.effect, effect_select (by simpa [writes] using h)]
  | userFileList op => simp only [Sql.effect, effect_select (by simpa [writes] using h)]
  | shareFileList op => simp only [Sql.effect, effect_select (by simpa [writes] using h)]
  | userFileCount op => simp only [Sql.effect, effect_select (by simpa [writes] using h)]
  | setNames => rfl
  | rankShares => rfl
  | userFileInfo user => rfl
  | shareFileInfo start count => rfl

theorem SqlConflict.symm (h : SqlConflict a b) : SqlConflict b a := by
  cases a <;> cases b <;> simp only [SqlConflict] at h ⊢
  all_goals first | exact TableOp.Conflict.symm h | exact h.symm.imp And.symm And.symm

theorem Conflict.symm {a b : Cmd} (h : Conflict a b) : Conflict b a := by
  cases a with
  | query p =>
    cases b with
    | query q => exact SqlConflict.symm h
    | _ => exact h.elim
  | redis c =>
    cases b with
    | redis c' => trivial
    | _ => exact h.elim
  | fdfsDelete fileid =>
    cases b with
    | fdfsDelete fileid' => exact Eq.symm h
    | _ => exact h.elim
  | mysqlConnect => cases b <;> exact h.elim
  | redisConnect => cases b <;> exact h.elim

theorem result_effect (h : ¬ SqlConflict a b) (k : ℕ) (d : Disk) :
    a.result k (b.effect d) = a.result k d := by
  cases hw : writes b with
  | false => rw [effect_of_not_writes hw]
  | true =>
    cases a <;> cases b <;> simp only [SqlConflict, joins, hw] at h
    all_goals first
      | rfl
      | simp only [Sql.result, Sql.effect, answer_effect h]
      | simp at h

theorem effect_swap (h : ¬ SqlConflict a b) (d : Disk) :
    b.effect (a.effect d) = a.effect (b.effect d) := by
  cases a <;> cases b <;> simp only [SqlConflict] at h
  all_goals first | rfl | simp only [Sql.effect, RowTables.effect_comm h]

end Queries

/-! ## Commands -/

section Commands
variable {d : Disk} {k : ℕ}

theorem exec_query (k : ℕ) (q : Sql) (d : Disk) :
    Cmd.exec (.ok k) (.query q) d = ((q.result k d).elim .failed .rows, q.effect d) := by
  simp only [Cmd.exec]
  cases h : q.result k d with
  | some rs => rfl
  | none => cases q <;> first | rfl | simp [Sql.result] at h

theorem exec_delete (k : ℕ) (fileid : CString) (d : Disk) :
    Cmd.exec (.ok k) (.fdfsDelete fileid) d =
      if fileid ∈ d.storage then (.done, { d with storage := d.storage.erase fileid })
      else (.failed, d) := rfl

section Swaps
variable {ι : Type} {i j : ι}

theorem independent_fail (o : Outcome) (c c' : Cmd) :
    Independent Cmd.exec (⟨i, .fail, c⟩ : Event ι Cmd Outcome) ⟨j, o, c'⟩ :=
  fun _ => ⟨rfl, rfl, rfl⟩

theorem independent_query {a b : Sql} (h : ¬ SqlConflict a b) (k l : ℕ) :
    Independent Cmd.exec (⟨i, .ok k, .query a⟩ : Event ι Cmd Outcome) ⟨j, .ok l, .query b⟩ := by
  intro d
  have h' : ¬ SqlConflict b a := fun hc => h hc.symm
  simp only [exec_query, result_effect h, result_effect h', effect_swap h, and_self]

theorem independent_query_redis (q : Sql) (c : RedisCmd) (k l : ℕ) :
    Independent Cmd.exec (⟨i, .ok k, .query q⟩ : Event ι Cmd Outcome) ⟨j, .ok l, .redis c⟩ := by
  intro d
  simp only [exec_query]
  cases q <;> exact ⟨rfl, rfl, rfl⟩

theorem independent_query_delete (q : Sql) (fileid : CString) (k l : ℕ) :
    Independent Cmd.exec (⟨i, .ok k, .query q⟩ : Event ι Cmd Outcome)
      ⟨j, .ok l, .fdfsDelete fileid⟩ := by
  intro d
  have hstorage : (q.effect d).storage = d.storage := by cases q <;> rfl
  simp only [exec_query, exec_delete, hstorage]
  by_cases hs : fileid ∈ d.storage
  · simp only [hs, if_true, true_and]
    cases q <;> exact ⟨rfl, rfl⟩
  · simp only [hs, if_false, and_self]

theorem independent_redis_delete (c : RedisCmd) (fileid : CString) (k l : ℕ) :
    Independent Cmd.exec (⟨i, .ok k, .redis c⟩ : Event ι Cmd Outcome)
      ⟨j, .ok l, .fdfsDelete fileid⟩ := by
  intro d
  simp only [Cmd.exec]
  by_cases hs : fileid ∈ d.storage
  · simp only [hs, if_true, and_self]
  · simp only [hs, if_false, and_self]

theorem independent_delete {fileid fileid' : CString} (h : fileid ≠ fileid') (k l : ℕ) :
    Independent Cmd.exec (⟨i, .ok k, .fdfsDelete fileid⟩ : Event ι Cmd Outcome)
      ⟨j, .ok l, .fdfsDelete fileid'⟩ := by
  intro d
  have hne : fileid' ≠ fileid := h.symm
  simp only [Cmd.exec]
  by_cases hs : fileid ∈ d.storage <;> by_cases hs' : fileid' ∈ d.storage <;>
    simp [hs, hs', h, hne, Finset.erase_right_comm]

theorem independent_of_not_conflict {x y : Event ι Cmd Outcome}
    (h : ¬ Conflict x.command y.command) : Independent Cmd.exec x y := by
  obtain ⟨i, o, c⟩ := x
  obtain ⟨j, o', c'⟩ := y
  cases o with
  | fail => exact independent_fail o' c c'
  | ok k =>
    cases o' with
    | fail => exact (independent_fail (.ok k) c' c).symm
    | ok l =>
      cases c with
      | mysqlConnect => exact fun d => ⟨rfl, rfl, rfl⟩
      | redisConnect => exact fun d => ⟨rfl, rfl, rfl⟩
      | query a =>
        cases c' with
        | mysqlConnect => exact fun d => ⟨rfl, rfl, rfl⟩
        | redisConnect => exact fun d => ⟨rfl, rfl, rfl⟩
        | query b => exact independent_query h k l
        | redis c => exact independent_query_redis a c k l
        | fdfsDelete fileid => exact independent_query_delete a fileid k l
      | redis c =>
        cases c' with
        | mysqlConnect => exact fun d => ⟨rfl, rfl, rfl⟩
        | redisConnect => exact fun d => ⟨rfl, rfl, rfl⟩
        | query b => exact (independent_query_redis b c l k).symm
        | redis c' => exact absurd trivial h
        | fdfsDelete fileid => exact independent_redis_delete c fileid k l
      | fdfsDelete fileid =>
        cases c' with
        | mysqlConnect => exact fun d => ⟨rfl, rfl, rfl⟩
        | redisConnect => exact fun d => ⟨rfl, rfl, rfl⟩
        | query b => exact (independent_query_delete b fileid l k).symm
        | redis c => exact (independent_redis_delete c fileid l k).symm
        | fdfsDelete fileid' => exact independent_delete h k l

end Swaps

end Commands

end CommandConflicts
