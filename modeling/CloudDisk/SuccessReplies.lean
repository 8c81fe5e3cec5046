import CloudDisk.CheckedCode
import CloudDisk.ReferenceCounts

/-! # What a success reply promises

`process_result_one` has four results and its callers test only some of them. A lookup
that fails is taken for one that found nothing, for success, or leaves the old statement
in `sql_cmd` to be sent again. Here the failures are a fixed pattern: `e i` is the outcome
of the `i`-th command of the call. The counters are raised as `int`s, so that the largest one
becomes the smallest. -/
namespace SuccessReplies

open ByteStrings CheckedCode CommandPrograms RowTables DiskState DiskHandlers HandlerRules
  HandlerEffects

def later (e : ℕ → Outcome) : ℕ → Outcome := fun i => e (i + 1)

/-- With this outcome the server hands out this row first. -/
def Handed (o : Outcome) (rows : Multiset (List Cell)) (row : List Cell) : Prop :=
  ∃ k, o = .ok k ∧ (listing k rows).head? = some row

theorem Handed.unique {o : Outcome} {rows : Multiset (List Cell)} {row row' : List Cell}
    (h : Handed o rows row) (h' : Handed o rows row') : row' = row := by
  obtain ⟨k, rfl, hk⟩ := h
  obtain ⟨k', heq, hk'⟩ := h'
  obtain rfl := Outcome.ok.inj heq
  exact Option.some.inj (hk'.symm.trans hk)

section Runs
variable {α : Type} {e : ℕ → Outcome} {d : Disk}

private theorem ok_of_ne_fail {o : Outcome} (h : o ≠ .fail) : ∃ k, o = .ok k := by
  cases o with
  | fail => exact absurd rfl h
  | ok k => exact ⟨k, rfl⟩

theorem run_msqlConn {f : Bool → Handler α} :
    (msqlConn >>= f).run Cmd.exec e d =
      (f (decide (e 0 ≠ .fail))).run Cmd.exec (later e) d := by
  change Prog.run _ (_ >>= f) (later e) _ = _
  cases h : e 0 with
  | fail => rfl
  | ok k => rfl

theorem run_mysqlQuery_fail {q : Sql} {f : Bool → Handler α} (h : e 0 = .fail) :
    (mysqlQuery q >>= f).run Cmd.exec e d = (f false).run Cmd.exec (later e) d := by
  change Prog.run _ (_ >>= f) (later e) _ = _
  rw [h]
  rfl

theorem run_mysqlQuery_ok {q : Sql} {f : Bool → Handler α} (hq : ∀ k, (q.result k d).isSome)
    (h : e 0 ≠ .fail) :
    (mysqlQuery q >>= f).run Cmd.exec e d = (f true).run Cmd.exec (later e) (q.effect d) := by
  obtain ⟨k, hk⟩ := ok_of_ne_fail h
  obtain ⟨rs, hrs⟩ := Option.isSome_iff_exists.mp (hq k)
  change Prog.run _ (_ >>= f) (later e) _ = _
  simp only [hk, Cmd.exec, hrs]
  rfl

theorem run_setNames {p : Handler α} :
    (mysqlQuery .setNames >>= fun _ => p).run Cmd.exec e d = p.run Cmd.exec (later e) d := by
  by_cases h : e 0 = .fail
  · exact run_mysqlQuery_fail h
  · exact run_mysqlQuery_ok (fun _ => rfl) h

theorem run_lookup_fail {q : Sql} {buf : Bool} {f : ResultOne → Handler α} (h : e 0 = .fail) :
    (processResultOne q buf >>= f).run Cmd.exec e d =
      (f .failed).run Cmd.exec (later e) d := by
  change Prog.run _ (_ >>= f) (later e) _ = _
  rw [h]
  rfl

theorem run_lookup_ok {β : Type} {t : Multiset β} {p : β → Bool} (columns : β → List Cell)
    {q : Sql} {buf : Bool}
    (hq : ∀ k, q.result k d = some (listing k ((rowsWhere p t).map columns)))
    (he : q.effect d = d) (h : e 0 ≠ .fail) :
    (∃ r ∈ t, p r ∧ Handed (e 0) ((rowsWhere p t).map columns) (columns r) ∧
      ∀ f : ResultOne → Handler α,
      (processResultOne q buf >>= f).run Cmd.exec e d =
        (f (if buf then .saved ((columns r).head?.getD (.str [])) else .hasRecord)).run
          Cmd.exec (later e) d) ∨
    ((∀ r ∈ t, p r = false) ∧ ∀ f : ResultOne → Handler α,
      (processResultOne q buf >>= f).run Cmd.exec e d =
        (f .noRecord).run Cmd.exec (later e) d) := by
  obtain ⟨k, hk⟩ := ok_of_ne_fail h
  have hrun : ∀ f : ResultOne → Handler α, (processResultOne q buf >>= f).run Cmd.exec e d =
      (f (firstRow buf (Cmd.exec (.ok k) (.query q) d).1)).run Cmd.exec (later e)
        (Cmd.exec (.ok k) (.query q) d).2 := by
    rw [← hk]
    exact fun _ => rfl
  simp only [Cmd.exec, hq k, he] at hrun
  cases hl : listing k ((rowsWhere p t).map columns) with
  | nil =>
    rw [hl] at hrun
    have hz := Multiset.map_eq_zero.mp (listing_eq_nil.mp hl)
    exact Or.inr ⟨rowsWhere_eq_zero.mp hz, hrun⟩
  | cons row rest =>
    rw [hl] at hrun
    have hrow : row ∈ (rowsWhere p t).map columns := mem_listing.mp (by rw [hl]; simp)
    obtain ⟨r, hr, rfl⟩ := Multiset.mem_map.mp hrow
    obtain ⟨hr, hp⟩ := mem_rowsWhere.mp hr
    exact Or.inl ⟨r, hr, hp, ⟨k, hk, by rw [hl, List.head?_cons]⟩, hrun⟩

def userCounts (user : CString) (d : Disk) : Multiset (List Cell) :=
  (rowsWhere (UserCount.ofUser user) d.userFileCount).map fun r => [.int r.count]

def fileCounts (md5 : CString) (d : Disk) : Multiset (List Cell) :=
  (rowsWhere (FileInfo.hasMd5 md5) d.fileInfo).map fun r => [.int r.count]

theorem run_selectUserCount (user : CString) (h : e 0 ≠ .fail) :
    (∃ r ∈ d.userFileCount, r.ofUser user ∧ Handed (e 0) (userCounts user d) [.int r.count] ∧
      ∀ f : ResultOne → Handler α,
      (processResultOne (selectUserCount user) true >>= f).run Cmd.exec e d =
        (f (.saved (.int r.count))).run Cmd.exec (later e) d) ∨
    ((∀ r ∈ d.userFileCount, r.ofUser user = false) ∧ ∀ f : ResultOne → Handler α,
      (processResultOne (selectUserCount user) true >>= f).run Cmd.exec e d =
        (f .noRecord).run Cmd.exec (later e) d) :=
  run_lookup_ok (fun r : UserCount => [.int r.count]) (fun _ => rfl) rfl h

theorem run_selectFileCount (md5 : CString) (h : e 0 ≠ .fail) :
    (∃ r ∈ d.fileInfo, r.hasMd5 md5 ∧ Handed (e 0) (fileCounts md5 d) [.int r.count] ∧
      ∀ f : ResultOne → Handler α,
      (processResultOne (selectFileCount md5) true >>= f).run Cmd.exec e d =
        (f (.saved (.int r.count))).run Cmd.exec (later e) d) ∨
    ((∀ r ∈ d.fileInfo, r.hasMd5 md5 = false) ∧ ∀ f : ResultOne → Handler α,
      (processResultOne (selectFileCount md5) true >>= f).run Cmd.exec e d =
        (f .noRecord).run Cmd.exec (later e) d) :=
  run_lookup_ok (fun r : FileInfo => [.int r.count]) (fun _ => rfl) rfl h

theorem run_selectUserFile (user md5 filename : CString) (h : e 0 ≠ .fail) :
    (∃ r ∈ d.userFileList, r.isRow user md5 filename ∧ ∀ f : ResultOne → Handler α,
      (processResultOne (selectUserFile user md5 filename) false >>= f).run Cmd.exec e d =
        (f .hasRecord).run Cmd.exec (later e) d) ∨
    ((∀ r ∈ d.userFileList, r.isRow user md5 filename = false) ∧
      ∀ f : ResultOne → Handler α,
        (processResultOne (selectUserFile user md5 filename) false >>= f).run Cmd.exec e d =
          (f .noRecord).run Cmd.exec (later e) d) := by
  refine (run_lookup_ok (fun r : UserFile => [.str r.user, .str r.md5, .str r.createtime,
    .str r.filename, .int r.sharedStatus, .int r.pv]) (fun _ => rfl) rfl h).imp_left ?_
  rintro ⟨r, hr, hrow, -, hrun⟩
  exact ⟨r, hr, hrow, hrun⟩

end Runs

/-! ## Counting in int -/

/-- The number that is handed out is not the largest `int`. -/
def CanRaise (o : Outcome) (rows : Multiset (List Cell)) : Prop :=
  ∀ n : ℤ, Handed o rows [.int n] → n < 2 ^ 31 - 1

section Next
variable {n : ℤ}

theorem canRaise_iff {o : Outcome} {rows : Multiset (List Cell)} (h : Handed o rows [.int n]) :
    CanRaise o rows ↔ n < 2 ^ 31 - 1 := by
  refine ⟨fun hall => hall n h, fun hlt m hm => ?_⟩
  obtain rfl : m = n := by simpa using h.unique hm
  exact hlt

theorem next_one_more {β : Type} {t : Multiset β} {p : β → Bool} {count : β → ℤ} {r : β}
    (ht : ∀ q ∈ t, IsInt (count q)) (hr : r ∈ t) (hp : p r) :
    (∃ q ∈ t, p q ∧ next (count r) = count q + 1) ↔ count r < 2 ^ 31 - 1 := by
  obtain ⟨hlt, heq⟩ | ⟨hmax, hmin⟩ := next_eq (ht r hr)
  · exact iff_of_true ⟨r, hr, hp, heq⟩ hlt
  · refine iff_of_false ?_ (by omega)
    rintro ⟨q, hq, -, heq⟩
    have hlow := (ht q hq).1
    omega

end Next

/-! ## The promised effect -/

section Effect
variable (user md5 filename : CString)

/-- The counter of the user is one more than before, or one when there was none. -/
def CountRaised (t t' : Multiset UserCount) : Prop :=
  ((∀ r ∈ t, r.ofUser user = false) ∧ rowsWhere (UserCount.ofUser user) t' = {⟨user, 1⟩}) ∨
  ∃ r ∈ t, r.ofUser user ∧ (∃ s ∈ t', s.ofUser user) ∧
    ∀ s ∈ t', s.ofUser user → s.count = r.count + 1

def FileRaised (t t' : Multiset FileInfo) : Prop :=
  ∃ r ∈ t, r.hasMd5 md5 ∧ (∃ s ∈ t', s.hasMd5 md5) ∧
    ∀ s ∈ t', s.hasMd5 md5 → s.count = r.count + 1

structure Added (d d' : Disk) : Prop where
  row : ∃ r ∈ d'.userFileList, r.isRow user md5 filename
  file : FileRaised md5 d.fileInfo d'.fileInfo
  count : CountRaised user d.userFileCount d'.userFileCount

structure Uploaded (d d' : Disk) : Prop where
  row : ∃ r ∈ d'.userFileList, r.isRow user md5 filename
  file : ∃ s ∈ d'.fileInfo, s.hasMd5 md5 ∧ s.count = 1
  count : CountRaised user d.userFileCount d'.userFileCount

end Effect

section Tail
variable {user md5 filename now : CString} {t t' : Multiset UserCount} {d : Disk}

theorem countRaised_first (hn : ∀ r ∈ t, r.ofUser user = false) :
    CountRaised user t (⟨user, 1⟩ ::ₘ t) := by
  refine Or.inl ⟨hn, ?_⟩
  rw [rowsWhere_cons, if_pos (by simp [UserCount.ofUser]), rowsWhere_eq_zero.mpr hn]
  rfl

theorem countRaised_set {r : UserCount} {n : ℤ} (hr : r ∈ t) (hu : r.ofUser user) :
    CountRaised user t (updateWhere (UserCount.ofUser user) (fun s => { s with count := n }) t) ↔
      ∃ q ∈ t, q.ofUser user ∧ n = q.count + 1 := by
  have hset : (⟨r.user, n⟩ : UserCount) ∈
      updateWhere (UserCount.ofUser user) (fun s => { s with count := n }) t :=
    mem_updateWhere.mpr (.inl ⟨r, hr, hu, rfl⟩)
  constructor
  · rintro (⟨hn, -⟩ | ⟨q, hq, hqu, -, hall⟩)
    · exact absurd ⟨r, hr, hu⟩ (none_iff_not_exists.mp hn)
    · exact ⟨q, hq, hqu, hall _ hset hu⟩
  · rintro ⟨q, hq, hqu, rfl⟩
    refine Or.inr ⟨q, hq, hqu, ⟨_, hset, hu⟩, fun s hs hsu => ?_⟩
    rcases mem_updateWhere.mp hs with ⟨q', -, -, rfl⟩ | ⟨-, hno⟩
    · rfl
    · exact absurd hsu (by simp [hno])

theorem fileRaised_set {t : Multiset FileInfo} {r : FileInfo} {n : ℤ} (hr : r ∈ t)
    (hm : r.hasMd5 md5) :
    FileRaised md5 t (setFileCount md5 n t) ↔ ∃ q ∈ t, q.hasMd5 md5 ∧ n = q.count + 1 := by
  have hset : { r with count := n } ∈ setFileCount md5 n t :=
    mem_updateWhere.mpr (.inl ⟨r, hr, hm, rfl⟩)
  constructor
  · rintro ⟨q, hq, hqm, -, hall⟩
    exact ⟨q, hq, hqm, hall _ hset hm⟩
  · rintro ⟨q, hq, hqm, rfl⟩
    refine ⟨q, hq, hqm, ⟨_, hset, hm⟩, fun s hs hsm => ?_⟩
    rcases mem_updateWhere.mp hs with ⟨q', -, -, rfl⟩ | ⟨-, hno⟩
    · rfl
    · exact absurd hsm (by simp [hno])

theorem not_countRaised_self : ¬ CountRaised user t t := by
  rintro (⟨hn, hone⟩ | ⟨r, hr, hu, -, hall⟩)
  · rw [rowsWhere_eq_zero.mpr hn] at hone
    exact absurd hone.symm (Multiset.singleton_ne_zero _)
  · have := hall r hr hu
    omega

/-- The end of the three handlers. A failed lookup that is followed by a successful
statement, or a counter that cannot be raised, is reported as a success. -/
theorem run_raiseUserCount (user : CString) (hd : ∀ r ∈ d.userFileCount, IsInt r.count)
    (e : ℕ → Outcome) :
    ∃ n counts, (do
      if !(← raiseUserCountIn toInt32 user) then return -1
      return (0 : ℤ) : Handler ℤ).run Cmd.exec e d = (n, { d with userFileCount := counts }) ∧
      (n = 0 ↔ e 1 ≠ .fail) ∧ (e 1 ≠ .fail →
        (CountRaised user d.userFileCount counts ↔
          e 0 ≠ .fail ∧ CanRaise (e 0) (userCounts user d))) := by
  unfold raiseUserCountIn
  rw [bind_assoc]
  by_cases h1 : e 1 = .fail
  · refine ⟨-1, d.userFileCount, ?_, by simp [h1], fun h => absurd h1 h⟩
    by_cases h0 : e 0 = .fail
    · rw [run_lookup_fail h0]
      exact run_mysqlQuery_fail h1
    · rcases run_selectUserCount (α := ℤ) (e := e) (d := d) user h0 with
        ⟨r, -, -, -, hrun⟩ | ⟨-, hrun⟩
      · rw [hrun]
        exact run_mysqlQuery_fail h1
      · rw [hrun]
        exact run_mysqlQuery_fail h1
  by_cases h0 : e 0 = .fail
  · rw [run_lookup_fail h0]
    refine ⟨0, d.userFileCount, run_mysqlQuery_ok (fun _ => rfl) h1, by simp [h1], fun _ => ?_⟩
    exact iff_of_false not_countRaised_self fun h => h.1 h0
  rcases run_selectUserCount (α := ℤ) (e := e) (d := d) user h0 with
    ⟨r, hr, hu, hhanded, hrun⟩ | ⟨hn, hrun⟩
  · rw [hrun]
    refine ⟨0, _, run_mysqlQuery_ok (fun _ => rfl) h1, by simp [h1], fun _ => ?_⟩
    rw [canRaise_iff hhanded, ← next_one_more hd hr hu, ← countRaised_set hr hu]
    exact ⟨fun h => ⟨h0, h⟩, And.right⟩
  · rw [hrun]
    refine ⟨0, _, run_mysqlQuery_ok (fun _ => rfl) h1, by simp [h1], fun _ => ?_⟩
    refine iff_of_true (countRaised_first hn) ⟨h0, ?_⟩
    rintro n ⟨k, -, hk⟩
    rw [userCounts, rowsWhere_eq_zero.mpr hn, Multiset.map_zero, listing_eq_nil.mpr rfl] at hk
    cases hk

/-- The common end of `deal_md5` and `save_file`, once the file was looked up. -/
theorem addReference_covered_iff {r : FileInfo} (hd : IntColumns d) (hr : r ∈ d.fileInfo)
    (hm : r.hasMd5 md5) (e : ℕ → Outcome) {p : Handler ℤ} (hp : p = do
      if !(← mysqlQuery (updateFileCount md5 (next r.count))) then return -1
      if !(← mysqlQuery (insertUserFile user md5 filename now)) then return -1
      if !(← raiseUserCountIn toInt32 user) then return -1
      return (0 : ℤ)) :
    ((p.run Cmd.exec e d).1 = 0 → Added user md5 filename d (p.run Cmd.exec e d).2) ↔
      (e 0 = .fail ∨ e 1 = .fail ∨ e 3 = .fail ∨ (r.count < 2 ^ 31 - 1 ∧ e 2 ≠ .fail ∧
        CanRaise (e 2) (userCounts user d))) := by
  subst hp
  by_cases h0 : e 0 = .fail
  · simp [run_mysqlQuery_fail h0, h0]
  rw [run_mysqlQuery_ok (fun _ => rfl) h0]
  simp only [Bool.not_true, Bool.false_eq_true, if_false]
  by_cases h1 : e 1 = .fail
  · rw [run_mysqlQuery_fail h1]
    simp [h1]
  rw [run_mysqlQuery_ok (fun _ => rfl) h1]
  simp only [Bool.not_true, Bool.false_eq_true, if_false]
  obtain ⟨n, counts, hrun, hzero, hiff⟩ := run_raiseUserCount (d := (insertUserFile user md5
    filename now).effect ((updateFileCount md5 (next r.count)).effect d)) user hd.users
    (later (later e))
  rw [hrun]
  by_cases h3 : e 3 = .fail
  · have hn : n ≠ 0 := fun hn => hzero.mp hn h3
    simp [hn, h3]
  have hn : n = 0 := hzero.mpr h3
  have hrow : ∃ s ∈ (⟨user, md5, now, filename, 0, 0⟩ : UserFile) ::ₘ d.userFileList,
      s.isRow user md5 filename := ⟨_, Multiset.mem_cons_self _ _, by simp [UserFile.isRow]⟩
  have hfile : FileRaised md5 d.fileInfo (setFileCount md5 (next r.count) d.fileInfo) ↔
      r.count < 2 ^ 31 - 1 := (fileRaised_set hr hm).trans (next_one_more hd.files hr hm)
  constructor
  · intro h
    have hadded := h hn
    exact .inr (.inr (.inr ⟨hfile.mp hadded.file, (hiff h3).mp hadded.count⟩))
  · rintro (h | h | h | ⟨hlt, hcount⟩) -
    · exact absurd h h0
    · exact absurd h h1
    · exact absurd h h3
    · exact ⟨hrow, hfile.mpr hlt, (hiff h3).mpr hcount⟩

end Tail

/-! ## The three handlers -/

section Handlers
variable (now user md5 filename : CString) (d : Disk) (e : ℕ → Outcome)

/-- When `deal_md5` does not reply 005 in vain: the lookup of the file must not fail, a failed
lookup of the counter must be followed by a failure, and both counters can be raised. -/
def DealMd5Covered : Prop :=
  e 0 = .fail ∨ (e 2 ≠ .fail ∧ ((∀ r ∈ d.fileInfo, r.hasMd5 md5 = false) ∨
    (e 3 ≠ .fail ∧ ∃ r ∈ d.userFileList, r.isRow user md5 filename) ∨
    e 4 = .fail ∨ e 5 = .fail ∨ e 7 = .fail ∨ (CanRaise (e 2) (fileCounts md5 d) ∧
      e 6 ≠ .fail ∧ CanRaise (e 6) (userCounts user d))))

def StoreFileCovered : Prop :=
  e 0 = .fail ∨ e 2 = .fail ∨ e 3 = .fail ∨ e 5 = .fail ∨
    (e 4 ≠ .fail ∧ CanRaise (e 4) (userCounts user d))

def SaveFileCovered : Prop :=
  e 0 = .fail ∨ (e 2 ≠ .fail ∧ ∃ r ∈ d.userFileList, r.isRow user md5 filename) ∨
    e 3 = .fail ∨ (∀ r ∈ d.fileInfo, r.hasMd5 md5 = false) ∨
    e 4 = .fail ∨ e 5 = .fail ∨ e 7 = .fail ∨ (CanRaise (e 3) (fileCounts md5 d) ∧
      e 6 ≠ .fail ∧ CanRaise (e 6) (userCounts user d))

theorem dealMd5_status (n : ℤ) : dealMd5Status n = .c005 ↔ n = 0 := by
  unfold dealMd5Status
  by_cases h : n = 0
  · simp [h]
  · simp only [h, if_false]
    split <;> simp

theorem saveFile_status (n : ℤ) : saveFileStatus n = some .c020 ↔ n = 0 := by
  unfold saveFileStatus
  by_cases h : n = 0
  · simp [h]
  · simp only [h, if_false]
    split
    · simp
    · split <;> simp

variable (hd : IntColumns d)
include hd

theorem dealMd5_covered_iff :
    (((dealMd5In toInt32 now user md5 filename).run Cmd.exec e d).1 = 0 →
      Added user md5 filename d ((dealMd5In toInt32 now user md5 filename).run Cmd.exec e d).2) ↔
    DealMd5Covered user md5 filename d e := by
  unfold dealMd5In
  rw [run_msqlConn]
  by_cases h0 : e 0 = .fail
  · simp [h0, DealMd5Covered]
  simp only [h0, ne_eq, not_false_eq_true, decide_true, Bool.not_true, Bool.false_eq_true,
    if_false, run_setNames]
  by_cases h2 : e 2 = .fail
  · rw [run_lookup_fail h2]
    have : ¬ Added user md5 filename d d := fun h => not_countRaised_self h.count
    simp [h0, h2, this, DealMd5Covered]
  rcases run_selectFileCount (α := ℤ) (e := later (later e)) (d := d) md5 h2 with
    ⟨r, hr, hm, hhanded, hrun⟩ | ⟨hn, hrun⟩
  · have hthere : ¬ ∀ r ∈ d.fileInfo, r.hasMd5 md5 = false :=
      fun hn => none_iff_not_exists.mp hn ⟨r, hr, hm⟩
    have hraise : CanRaise (e 2) (fileCounts md5 d) ↔ r.count < 2 ^ 31 - 1 := canRaise_iff hhanded
    rw [hrun]
    by_cases h3 : e 3 = .fail
    · rw [run_lookup_fail h3]
      apply (addReference_covered_iff hd hr hm _ rfl).trans
      simp [DealMd5Covered, h0, h2, h3, hthere, hraise, later]
    · rcases run_selectUserFile (α := ℤ) (e := later (later (later e))) (d := d)
        user md5 filename h3 with ⟨s, hs, hu, hrun'⟩ | ⟨hno, hrun'⟩
      · rw [hrun']
        exact ⟨fun _ => Or.inr ⟨h2, Or.inr (Or.inl ⟨h3, s, hs, hu⟩)⟩,
          fun _ hz => absurd hz (show (-2 : ℤ) ≠ 0 by decide)⟩
      · rw [hrun']
        apply (addReference_covered_iff hd hr hm _ rfl).trans
        have hnone : ¬ ∃ r ∈ d.userFileList, r.isRow user md5 filename :=
          none_iff_not_exists.mp hno
        simp [DealMd5Covered, h0, h2, h3, hthere, hnone, hraise, later]
  · rw [hrun]
    exact ⟨fun _ => Or.inr ⟨h2, Or.inl hn⟩,
      fun _ hz => absurd hz (show (-3 : ℤ) ≠ 0 by decide)⟩

theorem saveFileReference_covered_iff :
    (((saveFileReferenceIn toInt32 now user md5 filename).run Cmd.exec e d).1 = 0 →
      Added user md5 filename d
        ((saveFileReferenceIn toInt32 now user md5 filename).run Cmd.exec e d).2) ↔
    (e 0 = .fail ∨ (∀ r ∈ d.fileInfo, r.hasMd5 md5 = false) ∨ e 1 = .fail ∨ e 2 = .fail ∨
      e 4 = .fail ∨ (CanRaise (e 0) (fileCounts md5 d) ∧ e 3 ≠ .fail ∧
        CanRaise (e 3) (userCounts user d))) := by
  unfold saveFileReferenceIn
  by_cases h0 : e 0 = .fail
  · rw [run_lookup_fail h0]
    simp [h0]
  rcases run_selectFileCount (α := ℤ) (e := e) (d := d) md5 h0 with
    ⟨r, hr, hm, hhanded, hrun⟩ | ⟨hn, hrun⟩
  · have hthere : ¬ ∀ r ∈ d.fileInfo, r.hasMd5 md5 = false :=
      fun hn => none_iff_not_exists.mp hn ⟨r, hr, hm⟩
    have hraise : CanRaise (e 0) (fileCounts md5 d) ↔ r.count < 2 ^ 31 - 1 := canRaise_iff hhanded
    rw [hrun]
    apply (addReference_covered_iff hd hr hm _ rfl).trans
    simp [h0, hthere, hraise, later]
  · rw [hrun]
    exact ⟨fun _ => Or.inr (Or.inl hn), fun _ hz => absurd hz (show (-1 : ℤ) ≠ 0 by decide)⟩

theorem saveFile_covered_iff :
    (((saveFileIn toInt32 now user md5 filename).run Cmd.exec e d).1 = 0 →
      Added user md5 filename d ((saveFileIn toInt32 now user md5 filename).run Cmd.exec e d).2) ↔
    SaveFileCovered user md5 filename d e := by
  unfold saveFileIn
  rw [run_msqlConn]
  by_cases h0 : e 0 = .fail
  · simp [h0, SaveFileCovered]
  simp only [h0, ne_eq, not_false_eq_true, decide_true, Bool.not_true, Bool.false_eq_true,
    if_false, run_setNames]
  by_cases h2 : e 2 = .fail
  · rw [run_lookup_fail h2]
    apply (saveFileReference_covered_iff now user md5 filename d _ hd).trans
    simp [SaveFileCovered, h0, h2, later]
  rcases run_selectUserFile (α := ℤ) (e := later (later e)) (d := d) user md5 filename h2 with
    ⟨s, hs, hu, hrun⟩ | ⟨hno, hrun⟩
  · rw [hrun]
    exact ⟨fun _ => Or.inr (Or.inl ⟨h2, s, hs, hu⟩),
      fun _ hz => absurd hz (show (-2 : ℤ) ≠ 0 by decide)⟩
  · have hnone : ¬ ∃ r ∈ d.userFileList, r.isRow user md5 filename := none_iff_not_exists.mp hno
    rw [hrun]
    apply (saveFileReference_covered_iff now user md5 filename d _ hd).trans
    simp [SaveFileCovered, h0, h2, hnone, later]

theorem storeFile_covered_iff (size : ℤ) (fileid url : CString) :
    (((storeFileinfoToMysqlIn toInt32 now user filename md5 size fileid url).run Cmd.exec e d).1 =
        0 →
      Uploaded user md5 filename d
        ((storeFileinfoToMysqlIn toInt32 now user filename md5 size fileid url).run
          Cmd.exec e d).2) ↔
    StoreFileCovered user d e := by
  unfold storeFileinfoToMysqlIn
  rw [run_msqlConn]
  by_cases h0 : e 0 = .fail
  · simp [h0, StoreFileCovered]
  simp only [h0, ne_eq, not_false_eq_true, decide_true, Bool.not_true, Bool.false_eq_true,
    if_false, run_setNames]
  by_cases h2 : e 2 = .fail
  · rw [run_mysqlQuery_fail h2]
    simp [h2, StoreFileCovered]
  rw [run_mysqlQuery_ok (fun _ => rfl) h2]
  simp only [Bool.not_true, Bool.false_eq_true, if_false]
  by_cases h3 : e 3 = .fail
  · rw [run_mysqlQuery_fail h3]
    simp [h3, StoreFileCovered]
  rw [run_mysqlQuery_ok (fun _ => rfl) h3]
  simp only [Bool.not_true, Bool.false_eq_true, if_false]
  let r : FileInfo := ⟨md5, fileid, url, size, getFileSuffix filename, 1⟩
  obtain ⟨n, counts, hrun, hzero, hiff⟩ := run_raiseUserCount (d := (insertUserFile user md5
    filename now).effect ((insertFileInfo r).effect d)) user hd.users
    (later (later (later (later e))))
  rw [hrun]
  by_cases h5 : e 5 = .fail
  · have hn : n ≠ 0 := fun hn => hzero.mp hn h5
    simp [hn, h5, StoreFileCovered]
  have hrow : ∃ s ∈ (⟨user, md5, now, filename, 0, 0⟩ : UserFile) ::ₘ d.userFileList,
      s.isRow user md5 filename := ⟨_, Multiset.mem_cons_self _ _, by simp [UserFile.isRow]⟩
  have hfile : ∃ s ∈ r ::ₘ d.fileInfo, s.hasMd5 md5 ∧ s.count = 1 :=
    ⟨r, Multiset.mem_cons_self _ _, by simp [FileInfo.hasMd5, r], rfl⟩
  constructor
  · intro h
    exact .inr (.inr (.inr (.inr ((hiff h5).mp (h (hzero.mpr h5)).count))))
  · rintro (h | h | h | h | h) -
    · exact absurd h h0
    · exact absurd h h2
    · exact absurd h h3
    · exact absurd h h5
    · exact ⟨hrow, hfile, (hiff h5).mpr h⟩

end Handlers

/-- A success reply is truthful exactly under the conditions above. -/
theorem success_truthful_iff (now user md5 filename : CString) (d : IntDisk) (e : ℕ → Outcome)
    (size : ℤ) (fileid url : CString) :
    ((dealMd5Status ((dealMd5In toInt32 now user md5 filename).run Cmd.exec e d).1 = .c005 →
      Added user md5 filename d ((dealMd5In toInt32 now user md5 filename).run Cmd.exec e d).2) ↔
        DealMd5Covered user md5 filename d e) ∧
    ((((storeFileinfoToMysqlIn toInt32 now user filename md5 size fileid url).run
        Cmd.exec e d).1 = 0 →
      Uploaded user md5 filename d
        ((storeFileinfoToMysqlIn toInt32 now user filename md5 size fileid url).run
          Cmd.exec e d).2) ↔
        StoreFileCovered user d e) ∧
    ((saveFileStatus ((saveFileIn toInt32 now user md5 filename).run Cmd.exec e d).1 = some .c020 →
      Added user md5 filename d ((saveFileIn toInt32 now user md5 filename).run Cmd.exec e d).2) ↔
        SaveFileCovered user md5 filename d e) := by
  refine ⟨?_, storeFile_covered_iff now user md5 filename d e d.2 size fileid url, ?_⟩
  · rw [dealMd5_status]
    exact dealMd5_covered_iff now user md5 filename d e d.2
  · rw [saveFile_status]
    exact saveFile_covered_iff now user md5 filename d e d.2

def oneFile : Disk :=
  ⟨{⟨[1], [7], [], 9, cstr "null", 1⟩}, {⟨[97], [1], [], [102], 0, 0⟩}, 0, {⟨[97], 1⟩}, {[7]},
    fun _ => none⟩

def failAt (n : ℕ) : ℕ → Outcome := fun i => if i = n then .fail else .ok 0

theorem oneFile_columns : IntColumns oneFile := by
  constructor <;> decide

/-- A single failed lookup is enough: of the file for `deal_md5`, of the counter for the
other two. -/
theorem success_untruthful :
    (dealMd5Status ((dealMd5In toInt32 [] [98] [1] [103]).run Cmd.exec (failAt 2) oneFile).1 =
        .c005 ∧
      ¬ Added [98] [1] [103] oneFile
        ((dealMd5In toInt32 [] [98] [1] [103]).run Cmd.exec (failAt 2) oneFile).2) ∧
    (((storeFileinfoToMysqlIn toInt32 [] [98] [103] [2] 9 [8] []).run
        Cmd.exec (failAt 4) oneFile).1 = 0 ∧
      ¬ Uploaded [98] [2] [103] oneFile
        ((storeFileinfoToMysqlIn toInt32 [] [98] [103] [2] 9 [8] []).run
          Cmd.exec (failAt 4) oneFile).2) ∧
    (saveFileStatus ((saveFileIn toInt32 [] [98] [1] [103]).run Cmd.exec (failAt 6) oneFile).1 =
        some .c020 ∧
      ¬ Added [98] [1] [103] oneFile
        ((saveFileIn toInt32 [] [98] [1] [103]).run Cmd.exec (failAt 6) oneFile).2) := by
  refine ⟨⟨by decide, fun h => ?_⟩, ⟨by decide, fun h => ?_⟩, ⟨by decide, fun h => ?_⟩⟩
  · have hc := (dealMd5_covered_iff [] [98] [1] [103] oneFile (failAt 2) oneFile_columns).mp
      fun _ => h
    simp [DealMd5Covered, failAt] at hc
  · have hc := (storeFile_covered_iff [] [98] [2] [103] oneFile (failAt 4) oneFile_columns 9 [8]
      []).mp fun _ => h
    simp [StoreFileCovered, failAt] at hc
  · have hc := (saveFile_covered_iff [] [98] [1] [103] oneFile (failAt 6) oneFile_columns).mp
      fun _ => h
    simp [SaveFileCovered, failAt, oneFile, UserFile.isRow, FileInfo.hasMd5] at hc

end SuccessReplies
