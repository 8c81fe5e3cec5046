import CloudDisk.CheckedCode
import CloudDisk.HandlerRules

/-! # What a handler does when nothing fails

One relation for each handler: every way it can end, what it saw and what it changed.
Row choices of the server stay visible as the row that was read. -/
namespace HandlerEffects

open ByteStrings CheckedCode CommandPrograms RowTables DiskState DiskHandlers HandlerRules

/-! ## Counting in int -/

/-- The columns that count are of type `int`. -/
structure IntColumns (d : Disk) : Prop where
  files : ∀ r ∈ d.fileInfo, IsInt r.count
  users : ∀ r ∈ d.userFileCount, IsInt r.count
  shares : ∀ r ∈ d.shareFileList, IsInt r.pv

abbrev IntDisk := { d : Disk // IntColumns d }

def next (n : ℤ) : ℤ := toInt32 (toInt32 n + 1)

def prev (n : ℤ) : ℤ := toInt32 (toInt32 n - 1)

section Ints
variable {n : ℤ}

theorem toInt32_of_isInt (h : IsInt n) : toInt32 n = n :=
  Int.bmod_eq_of_le (by have := h.1; omega) (by have := h.2; omega)

theorem next_eq (h : IsInt n) : n < 2 ^ 31 - 1 ∧ next n = n + 1 ∨
    n = 2 ^ 31 - 1 ∧ next n = -2 ^ 31 := by
  rw [next, toInt32_of_isInt h]
  by_cases hlt : n < 2 ^ 31 - 1
  · have hlow := h.1
    exact .inl ⟨hlt, toInt32_of_isInt ⟨by omega, by omega⟩⟩
  · have hn : n = 2 ^ 31 - 1 := by have := h.2; omega
    subst hn
    exact .inr ⟨rfl, by decide⟩

theorem prev_eq (h : IsInt n) : -2 ^ 31 < n ∧ prev n = n - 1 ∨
    n = -2 ^ 31 ∧ prev n = 2 ^ 31 - 1 := by
  rw [prev, toInt32_of_isInt h]
  by_cases hlt : -2 ^ 31 < n
  · have hhigh := h.2
    exact .inl ⟨hlt, toInt32_of_isInt ⟨by omega, by omega⟩⟩
  · have hn : n = -2 ^ 31 := by have := h.1; omega
    subst hn
    exact .inr ⟨rfl, by decide⟩

theorem natAbs_of_isInt (h : IsInt n) : n.natAbs < 10 ^ 15 := by
  have hlow := h.1
  have hhigh := h.2
  omega

theorem next_ne (h : IsInt n) : next n ≠ n := by
  obtain ⟨-, heq⟩ | ⟨hmax, heq⟩ := next_eq h <;> omega

theorem prev_ne (h : IsInt n) : prev n ≠ n := by
  obtain ⟨-, heq⟩ | ⟨hmin, heq⟩ := prev_eq h <;> omega

end Ints

section Counters
variable (user : CString)

/-- The counter row of a user is created at one, or set to one more than a row read. -/
inductive Raised (t : Multiset UserCount) : Multiset UserCount → Prop where
  | first (h : ∀ r ∈ t, r.ofUser user = false) : Raised t (⟨user, 1⟩ ::ₘ t)
  | again (r : UserCount) (hr : r ∈ t) (hu : r.ofUser user) :
      Raised t (updateWhere (UserCount.ofUser user) (fun s => { s with count := r.count + 1 }) t)

/-- The counter rows of a user are deleted where one is read and set to the number before
otherwise. -/
inductive LoweredTo (read prev : ℤ → ℤ) (t : Multiset UserCount) : Multiset UserCount → Prop where
  | last (r : UserCount) (hr : r ∈ t) (hu : r.ofUser user) (h : read r.count = 1) :
      LoweredTo read prev t (deleteWhere (UserCount.ofUser user) t)
  | less (r : UserCount) (hr : r ∈ t) (hu : r.ofUser user) (h : read r.count ≠ 1) :
      LoweredTo read prev t
        (updateWhere (UserCount.ofUser user) (fun s => { s with count := prev r.count }) t)

abbrev Lowered : Multiset UserCount → Multiset UserCount → Prop :=
  LoweredTo user (fun n => n) (· - 1)

end Counters

section Counters
variable {user other : CString} {t t' : Multiset UserCount} {n : ℕ}

theorem ofUser_other (hne : other ≠ user) (r : UserCount) (hr : r.ofUser user) :
    r.ofUser other = false := by
  simp only [UserCount.ofUser, decide_eq_true_eq, decide_eq_false_iff_not] at hr ⊢
  rw [hr]
  exact hne.symm

theorem Raised.frame (h : Raised user t t') (hne : other ≠ user) :
    rowsWhere (UserCount.ofUser other) t' = rowsWhere (UserCount.ofUser other) t := by
  cases h with
  | first _ =>
    rw [rowsWhere_cons, if_neg]
    simpa [UserCount.ofUser] using hne.symm
  | again r _ _ =>
    exact rowsWhere_update_of_disjoint fun s hs => ⟨ofUser_other hne s hs, ofUser_other hne s hs⟩

theorem Raised.tallied (h : Raised user t t')
    (ht : Tallied (UserCount.ofUser user) UserCount.count t n) :
    Tallied (UserCount.ofUser user) UserCount.count t' (n + 1) := by
  cases h with
  | first hn =>
    rw [ht.of_none hn]
    exact tallied_insert hn (by simp [UserCount.ofUser]) rfl
  | again r hr hu =>
    obtain ⟨-, hc, hpos⟩ := ht.of_mem hr hu
    exact ht.update hpos (Nat.succ_pos n) (fun _ => rfl) fun _ => by simp [hc]

theorem Lowered.frame (h : Lowered user t t') (hne : other ≠ user) :
    rowsWhere (UserCount.ofUser other) t' = rowsWhere (UserCount.ofUser other) t := by
  cases h with
  | last r _ _ _ => exact rowsWhere_delete_of_disjoint fun s hs => ofUser_other hne s hs
  | less r _ _ _ =>
    exact rowsWhere_update_of_disjoint fun s hs => ⟨ofUser_other hne s hs, ofUser_other hne s hs⟩

theorem Lowered.tallied (h : Lowered user t t')
    (ht : Tallied (UserCount.ofUser user) UserCount.count t (n + 1)) :
    Tallied (UserCount.ofUser user) UserCount.count t' n := by
  cases h with
  | last r hr hu h1 =>
    have hn : n = 0 := by have := (ht.of_mem hr hu).2.1; omega
    rw [hn]
    exact tallied_delete
  | less r hr hu h1 =>
    obtain ⟨-, hc, hpos⟩ := ht.of_mem hr hu
    exact ht.update hpos (by omega) (fun _ => rfl) fun _ => by simp [hc]

theorem Raised.counted (h : Raised user t t')
    (ht : Counted (UserCount.ofUser user) UserCount.count t n) :
    Counted (UserCount.ofUser user) UserCount.count t' (n + 1) := by
  cases h with
  | first hn =>
    rw [ht.of_none hn]
    exact counted_insert hn (by simp [UserCount.ofUser]) rfl
  | again r hr hu =>
    have hc := (ht.of_mem hr hu).2
    exact ht.update hr hu (fun _ => rfl) fun _ => by simp [hc]

theorem Lowered.counted (h : Lowered user t t')
    (ht : Counted (UserCount.ofUser user) UserCount.count t (n + 1)) :
    Counted (UserCount.ofUser user) UserCount.count t' n := by
  cases h with
  | last r hr hu h1 =>
    have hn : n = 0 := by have := (ht.of_mem hr hu).2; omega
    rw [hn]
    exact counted_delete
  | less r hr hu h1 =>
    have hc := (ht.of_mem hr hu).2
    exact ht.update hr hu (fun _ => rfl) fun _ => by simp [hc]

theorem mem_setCount {r : UserCount} {c : ℤ}
    (hr : r ∈ updateWhere (UserCount.ofUser user) (fun s => { s with count := c }) t) :
    r.ofUser user → r.count = c := by
  intro hu
  rcases mem_updateWhere.mp hr with ⟨s, -, -, rfl⟩ | ⟨-, hno⟩
  · rfl
  · simp [hu] at hno

theorem lowered_from (h : Lowered user t t') :
    ∃ q ∈ t, q.ofUser user ∧ ∀ r ∈ t', r.ofUser user → r.count = q.count - 1 := by
  cases h with
  | last q hq hqu h1 =>
    refine ⟨q, hq, hqu, fun r hr hu => ?_⟩
    have hno := (mem_deleteWhere.mp hr).2
    simp [hu] at hno
  | less q hq hqu h1 => exact ⟨q, hq, hqu, fun r hr => mem_setCount hr⟩

theorem mem_of_lowered {r : UserCount} (h : Lowered user t t') (hr : r ∈ t')
    (hu : r.ofUser user = false) :
    r ∈ t := by
  cases h with
  | last q hq hqu h1 => exact (mem_deleteWhere.mp hr).1
  | less q hq hqu h1 =>
    rcases mem_updateWhere.mp hr with ⟨s, -, hs, rfl⟩ | ⟨hr, -⟩
    · exact absurd hs (by simpa [UserCount.ofUser] using hu)
    · exact hr

theorem mem_lowered {r : UserCount} (h : Lowered user t t') (hr : r ∈ t)
    (hu : r.ofUser user = false) : r ∈ t' := by
  cases h with
  | last q hq hqu h1 => exact mem_deleteWhere.mpr ⟨hr, hu⟩
  | less q hq hqu h1 => exact mem_updateWhere.mpr (Or.inr ⟨hr, hu⟩)

theorem lowered_none (h : Lowered user t t') (hn : ∀ r ∈ t', r.ofUser user = false) :
    ∃ r ∈ t, r.ofUser user ∧ r.count = 1 := by
  cases h with
  | last q hq hqu h1 => exact ⟨q, hq, hqu, h1⟩
  | less q hq hqu h1 =>
    have hno := hn _ (mem_updateWhere.mpr (Or.inl ⟨q, hq, hqu, rfl⟩))
    exact absurd hqu (by simpa [UserCount.ofUser] using hno)

theorem lowered_ne (h : Lowered user t t') : t' ≠ t := by
  rintro rfl
  obtain ⟨q, hq, hqu, hall⟩ := lowered_from h
  have := hall q hq hqu
  omega

theorem setCount_lowered_ne {key : CString} {r : UserCount} (hr : r ∈ t) (hk : r.ofUser key)
    (h : Lowered user
      (updateWhere (UserCount.ofUser key) (fun s => { s with count := r.count - 1 }) t) t') :
    t' ≠ t := by
  rintro rfl
  by_cases hu : r.ofUser user
  · obtain ⟨q, hq, hqu, hall⟩ := lowered_from h
    have hqk : q.ofUser key := by
      simp only [UserCount.ofUser, decide_eq_true_eq] at hk hu hqu ⊢
      rw [hqu, ← hu, hk]
    have h1 := mem_setCount hq hqk
    have h2 := hall r hr hu
    omega
  · have := mem_setCount (mem_of_lowered h hr (by simpa using hu)) hk
    omega

end Counters

theorem spec_raiseUserCount {α : Type} {user : CString} {d : Disk} {f : Bool → Handler α}
    {Q : α → Disk → Prop}
    (h : ∀ t, Raised user d.userFileCount t →
      Spec Cmd.exec NoFail (f true) { d with userFileCount := t } Q) :
    Spec Cmd.exec NoFail (raiseUserCount user >>= f) d Q := by
  unfold raiseUserCount raiseUserCountIn
  rw [bind_assoc]
  refine spec_selectUserCount ?_ ?_ NoFail.elim
  · intro r hr hu
    exact spec_mysqlQuery (fun _ => rfl) (h _ (.again r hr hu)) NoFail.elim
  · intro hn
    exact spec_mysqlQuery (fun _ => rfl) (h _ (.first hn)) NoFail.elim

theorem spec_lowerUserCountIn {α : Type} (int : ℤ → ℤ) {user : CString} {d : Disk}
    {f : Bool → Handler α} {Q : α → Disk → Prop}
    (h : ∀ t, LoweredTo user int (fun n => int (int n - 1)) d.userFileCount t →
      Spec Cmd.exec NoFail (f true) { d with userFileCount := t } Q)
    (hn : (∀ r ∈ d.userFileCount, r.ofUser user = false) →
      Spec Cmd.exec NoFail (f false) d Q) :
    Spec Cmd.exec NoFail (lowerUserCountIn int user >>= f) d Q := by
  unfold lowerUserCountIn
  rw [bind_assoc]
  refine spec_selectUserCount ?_ ?_ NoFail.elim
  · intro r hr hu
    by_cases h1 : int r.count = 1
    · simp only [Cell.atoi, h1, ↓reduceIte]
      exact spec_mysqlQuery (fun _ => rfl) (h _ (.last r hr hu h1)) NoFail.elim
    · simp only [Cell.atoi, h1, ↓reduceIte]
      exact spec_mysqlQuery (fun _ => rfl) (h _ (.less r hr hu h1)) NoFail.elim
  · exact hn

theorem spec_lowerUserCount {α : Type} {user : CString} {d : Disk} {f : Bool → Handler α}
    {Q : α → Disk → Prop}
    (h : ∀ t, Lowered user d.userFileCount t →
      Spec Cmd.exec NoFail (f true) { d with userFileCount := t } Q)
    (hn : (∀ r ∈ d.userFileCount, r.ofUser user = false) →
      Spec Cmd.exec NoFail (f false) d Q) :
    Spec Cmd.exec NoFail (lowerUserCount user >>= f) d Q :=
  spec_lowerUserCountIn id h hn

section
variable (now user md5 filename : CString)

/-- The state with one more reference of the user to a stored file. -/
def addReference (d : Disk) (files : Multiset FileInfo) (counts : Multiset UserCount) : Disk :=
  { d with
    fileInfo := files
    userFileList := ⟨user, md5, now, filename, 0, 0⟩ ::ₘ d.userFileList
    userFileCount := counts }

def setFileCount (count : ℤ) (t : Multiset FileInfo) : Multiset FileInfo :=
  updateWhere (FileInfo.hasMd5 md5) (fun r => { r with count }) t

theorem mem_setFileCount {md5 : CString} {n : ℤ} {files : Multiset FileInfo} {r : FileInfo}
    (h : r ∈ setFileCount md5 n files) :
    ∃ s ∈ files, ∃ m, r = { s with count := m } ∧ (s.hasMd5 md5 → m = n) := by
  rcases mem_updateWhere.mp h with ⟨s, hs, -, rfl⟩ | ⟨hr, hno⟩
  · exact ⟨s, hs, n, rfl, fun _ => rfl⟩
  · refine ⟨r, hr, r.count, rfl, fun hm => ?_⟩
    simp [hno] at hm

theorem setFileCount_setFileCount {md5 : CString} {n m : ℤ} {files : Multiset FileInfo} :
    setFileCount md5 n (setFileCount md5 m files) = setFileCount md5 n files :=
  updateWhere_updateWhere fun _ h => h

theorem setFileCount_eq_iff {md5 : CString} {n : ℤ} {files : Multiset FileInfo} :
    setFileCount md5 n files = files ↔ ∀ r ∈ files, r.hasMd5 md5 → r.count = n :=
  updateWhere_column_iff FileInfo.count (fun _ => rfl) fun _ h => by rw [← h]

inductive DealMd5 (d : Disk) : ℤ → Disk → Prop where
  | unknown (hn : ∀ r ∈ d.fileInfo, r.hasMd5 md5 = false) : DealMd5 d (-3) d
  | owned (r : UserFile) (hr : r ∈ d.userFileList) (hu : r.isRow user md5 filename) :
      DealMd5 d (-2) d
  | added (r : FileInfo) (hr : r ∈ d.fileInfo) (hm : r.hasMd5 md5)
      (hn : ∀ s ∈ d.userFileList, s.isRow user md5 filename = false)
      (t : Multiset UserCount) (ht : Raised user d.userFileCount t) :
      DealMd5 d 0 (addReference now user md5 filename d
        (setFileCount md5 (r.count + 1) d.fileInfo) t)

theorem dealMd5_effect (d : Disk) :
    Spec Cmd.exec NoFail (dealMd5 now user md5 filename) d (DealMd5 now user md5 filename d) := by
  unfold dealMd5 dealMd5In
  refine spec_msqlConn ?_ NoFail.elim
  apply spec_setNames
  intro _
  refine spec_selectFileCount ?_ ?_ NoFail.elim
  · intro r hr hm
    refine spec_selectUserFile ?_ ?_ NoFail.elim
    · intro s hs hu
      exact spec_ret (.owned s hs hu)
    · intro hn
      refine spec_mysqlQuery (fun _ => rfl) ?_ NoFail.elim
      refine spec_mysqlQuery (fun _ => rfl) ?_ NoFail.elim
      apply spec_raiseUserCount
      intro t ht
      exact spec_ret (.added r hr hm hn t ht)
  · intro hn
    exact spec_ret (.unknown hn)

inductive StoreFile (size : ℤ) (fileid url : CString) (d : Disk) : ℤ → Disk → Prop where
  | stored (t : Multiset UserCount) (ht : Raised user d.userFileCount t) :
      StoreFile size fileid url d 0 (addReference now user md5 filename d
        (⟨md5, fileid, url, size, getFileSuffix filename, 1⟩ ::ₘ d.fileInfo) t)

theorem storeFileinfoToMysql_effect (size : ℤ) (fileid url : CString) (d : Disk) :
    Spec Cmd.exec NoFail (storeFileinfoToMysql now user filename md5 size fileid url) d
      (StoreFile now user md5 filename size fileid url d) := by
  unfold storeFileinfoToMysql storeFileinfoToMysqlIn
  refine spec_msqlConn ?_ NoFail.elim
  apply spec_setNames
  intro _
  refine spec_mysqlQuery (fun _ => rfl) ?_ NoFail.elim
  refine spec_mysqlQuery (fun _ => rfl) ?_ NoFail.elim
  apply spec_raiseUserCount
  intro t ht
  exact spec_ret (.stored t ht)

inductive SaveFile (d : Disk) : ℤ → Disk → Prop where
  | owned (r : UserFile) (hr : r ∈ d.userFileList) (hu : r.isRow user md5 filename) :
      SaveFile d (-2) d
  | unknown (hn : ∀ r ∈ d.fileInfo, r.hasMd5 md5 = false) : SaveFile d (-1) d
  | added (r : FileInfo) (hr : r ∈ d.fileInfo) (hm : r.hasMd5 md5)
      (hn : ∀ s ∈ d.userFileList, s.isRow user md5 filename = false)
      (t : Multiset UserCount) (ht : Raised user d.userFileCount t) :
      SaveFile d 0 (addReference now user md5 filename d
        (setFileCount md5 (r.count + 1) d.fileInfo) t)

theorem saveFile_effect (d : Disk) :
    Spec Cmd.exec NoFail (saveFile now user md5 filename) d
      (SaveFile now user md5 filename d) := by
  unfold saveFile saveFileIn
  refine spec_msqlConn ?_ NoFail.elim
  apply spec_setNames
  intro _
  refine spec_selectUserFile ?_ ?_ NoFail.elim
  · intro s hs hu
    exact spec_ret (.owned s hs hu)
  · intro hn
    refine spec_selectFileCount ?_ ?_ NoFail.elim
    · intro r hr hm
      refine spec_mysqlQuery (fun _ => rfl) ?_ NoFail.elim
      refine spec_mysqlQuery (fun _ => rfl) ?_ NoFail.elim
      apply spec_raiseUserCount
      intro t ht
      exact spec_ret (.added r hr hm hn t ht)
    · intro hm
      exact spec_ret (.unknown hm)

end

section
variable (now user md5 filename : CString)

def setSharedStatus (sharedStatus : ℤ) (t : Multiset UserFile) : Multiset UserFile :=
  updateWhere (UserFile.isRow user md5 filename) (fun r => { r with sharedStatus }) t

theorem setSharedStatus_eq_iff {user md5 filename : CString} {status : ℤ} {t : Multiset UserFile} :
    setSharedStatus user md5 filename status t = t ↔
      ∀ r ∈ t, r.isRow user md5 filename → r.sharedStatus = status :=
  updateWhere_column_iff UserFile.sharedStatus (fun _ => rfl) fun _ h => by rw [← h]

/-- The tables after a new share; the cache commands follow. -/
def addShare (d : Disk) (counts : Multiset UserCount) : Disk :=
  { d with
    userFileList := setSharedStatus user md5 filename 1 d.userFileList
    shareFileList := ⟨user, md5, now, filename, 0⟩ ::ₘ d.shareFileList
    userFileCount := counts }

inductive ShareFile (d : Disk) : ℤ → Disk → Prop where
  | already (hz : zsetExit d (md5 ++ filename) = 1) : ShareFile d (-2) d
  | confused (h0 : zsetExit d (md5 ++ filename) ≠ 0) (h1 : zsetExit d (md5 ++ filename) ≠ 1) :
      ShareFile d (-1) d
  | readded (hz : zsetExit d (md5 ++ filename) = 0) (r : DiskState.ShareFile)
      (hr : r ∈ d.shareFileList) (hm : r.isNamed md5 filename) (k : ℕ) :
      ShareFile d (-2) (afterRedis k (.zadd filePublicZset 0 (md5 ++ filename)) d)
  | shared (hz : zsetExit d (md5 ++ filename) = 0)
      (hn : ∀ r ∈ d.shareFileList, r.isNamed md5 filename = false)
      (t : Multiset UserCount) (ht : Raised shareCountKey d.userFileCount t) (k l : ℕ) :
      ShareFile d 0 (afterRedis l (.hset fileNameHash (md5 ++ filename) filename)
        (afterRedis k (.zadd filePublicZset 0 (md5 ++ filename))
          (addShare now user md5 filename d t)))

theorem shareFile_effect (d : Disk) :
    Spec Cmd.exec NoFail (shareFile now user md5 filename) d
      (ShareFile now user md5 filename d) := by
  unfold shareFile
  refine spec_ropConnect ?_ NoFail.elim
  refine spec_msqlConn ?_ NoFail.elim
  apply spec_setNames
  intro _
  refine spec_ropZsetExit ?_ NoFail.elim
  by_cases h1 : zsetExit d (md5 ++ filename) = 1
  · rw [if_pos h1]
    exact spec_ret (.already h1)
  rw [if_neg h1]
  by_cases h0 : zsetExit d (md5 ++ filename) = 0
  · rw [if_neg (not_not.mpr h0)]
    refine spec_selectShareFile ?_ ?_ NoFail.elim
    · intro r hr hm
      exact spec_ropWantsOne (fun k _ _ => spec_ret (.readded h0 r hr hm k)) NoFail.elim
    · intro hn
      refine spec_mysqlQuery (fun _ => rfl) ?_ NoFail.elim
      refine spec_mysqlQuery (fun _ => rfl) ?_ NoFail.elim
      apply spec_raiseUserCount
      intro t ht
      refine spec_ropWantsOne (fun k _ _ => ?_) NoFail.elim
      exact spec_ropHashSet (fun l _ => spec_ret (.shared h0 hn t ht k l)) NoFail.elim
  · rw [if_pos h0]
    exact spec_ret (.confused h0 h1)

def dropShare (d : Disk) (counts : Multiset UserCount) : Disk :=
  { d with
    userFileList := setSharedStatus user md5 filename 0 d.userFileList
    shareFileList := deleteWhere (DiskState.ShareFile.isRow user md5 filename) d.shareFileList
    userFileCount := counts }

inductive CancelShareFileTo (lowered : Multiset UserCount → Multiset UserCount → Prop) (d : Disk) :
    ℤ → Disk → Prop where
  | uncounted (hn : ∀ r ∈ d.userFileCount, r.ofUser shareCountKey = false) :
      CancelShareFileTo lowered d (-1)
        { d with userFileList := setSharedStatus user md5 filename 0 d.userFileList }
  | uncached (t : Multiset UserCount) (ht : lowered d.userFileCount t) (k : ℕ)
      (n : ℤ) (hn : n ≠ 0) :
      CancelShareFileTo lowered d n (afterRedis k (.zrem filePublicZset (md5 ++ filename))
        (dropShare user md5 filename d t))
  | cancelled (t : Multiset UserCount) (ht : lowered d.userFileCount t) (k l : ℕ)
      (n : ℤ) :
      CancelShareFileTo lowered d n (afterRedis l (.hdel fileNameHash (md5 ++ filename))
        (afterRedis k (.zrem filePublicZset (md5 ++ filename))
          (dropShare user md5 filename d t)))

abbrev CancelShareFile : Disk → ℤ → Disk → Prop :=
  CancelShareFileTo user md5 filename (Lowered shareCountKey)

theorem cancelShareFileIn_effect (int : ℤ → ℤ) (d : Disk) :
    Spec Cmd.exec NoFail (cancelShareFileIn int user md5 filename) d
      (CancelShareFileTo user md5 filename
        (LoweredTo shareCountKey int fun n => int (int n - 1)) d) := by
  unfold cancelShareFileIn
  refine spec_ropConnect ?_ NoFail.elim
  refine spec_msqlConn ?_ NoFail.elim
  apply spec_setNames
  intro _
  refine spec_mysqlQuery (fun _ => rfl) ?_ NoFail.elim
  refine spec_lowerUserCountIn int (fun t ht => ?_) fun hn => ?_
  · refine spec_mysqlQuery (fun _ => rfl) ?_ NoFail.elim
    refine spec_ropWantsOne (fun k n _ => ?_) NoFail.elim
    by_cases h0 : n = 0
    · rw [if_neg (not_not.mpr h0)]
      rw [← bind_pure (ropHashDel _ _)]
      exact spec_ropWantsOne (fun l m _ => spec_ret (.cancelled (d := d) t ht k l m)) NoFail.elim
    · rw [if_pos h0]
      exact spec_ret (.uncached (d := d) t ht k n h0)
  · exact spec_ret (.uncounted hn)

theorem cancelShareFile_effect (d : Disk) :
    Spec Cmd.exec NoFail (cancelShareFile user md5 filename) d
      (CancelShareFile user md5 filename d) :=
  cancelShareFileIn_effect user md5 filename id d

/-- The values of `share` and `flag` with which `del_file` goes on. -/
inductive ShareMark (d : Disk) : Option (ℤ × Bool) → Prop where
  | listed (hz : zsetExit d (md5 ++ filename) = 1) : ShareMark d (some (1, true))
  | status (hz : zsetExit d (md5 ++ filename) = 0) (r : UserFile) (hr : r ∈ d.userFileList)
      (hu : r.isRow user md5 filename) : ShareMark d (some (r.sharedStatus, false))
  | absent (hz : zsetExit d (md5 ++ filename) = 0)
      (hn : ∀ r ∈ d.userFileList, r.isRow user md5 filename = false) :
      ShareMark d (some (0, false))
  | confused (h0 : zsetExit d (md5 ++ filename) ≠ 0) (h1 : zsetExit d (md5 ++ filename) ≠ 1) :
      ShareMark d none

theorem spec_delFileShare {α : Type} {d : Disk} {f : Option (ℤ × Bool) → Handler α}
    {Q : α → Disk → Prop}
    (h : ∀ o, ShareMark user md5 filename d o → Spec Cmd.exec NoFail (f o) d Q) :
    Spec Cmd.exec NoFail (delFileShare user md5 filename >>= f) d Q := by
  unfold delFileShare
  rw [bind_assoc]
  refine spec_ropZsetExit ?_ NoFail.elim
  by_cases h1 : zsetExit d (md5 ++ filename) = 1
  · rw [if_pos h1]
    exact h _ (.listed h1)
  rw [if_neg h1]
  by_cases h0 : zsetExit d (md5 ++ filename) = 0
  · rw [if_pos h0, bind_assoc]
    refine spec_selectSharedStatus ?_ ?_ NoFail.elim
    · intro r hr hu
      exact h _ (.status h0 r hr hu)
    · intro hn
      exact h _ (.absent h0 hn)
  · rw [if_neg h0]
    exact h _ (.confused h0 h1)

/-- The share row goes, the share counter is lowered, and the cache entry goes when
the mark came from the cache. -/
inductive Unshared (flag : Bool) (d : Disk) : Bool → Disk → Prop where
  | uncounted (hn : ∀ r ∈ d.userFileCount, r.ofUser shareCountKey = false) :
      Unshared flag d false
        { d with shareFileList :=
            deleteWhere (DiskState.ShareFile.isRow user md5 filename) d.shareFileList }
  | counted (r : UserCount) (hr : r ∈ d.userFileCount) (hu : r.ofUser shareCountKey)
      (redis : Redis)
      (hs : redis = if flag then
        ((RedisCmd.hdel fileNameHash (md5 ++ filename)).exec 0
          ((RedisCmd.zrem filePublicZset (md5 ++ filename)).exec 0 d.redis).2).2 else d.redis) :
      Unshared flag d true
        { d with
          shareFileList :=
            deleteWhere (DiskState.ShareFile.isRow user md5 filename) d.shareFileList
          userFileCount := updateWhere (UserCount.ofUser shareCountKey)
            (fun s => { s with count := r.count - 1 }) d.userFileCount
          redis }

theorem spec_delFileUnshare {α : Type} {flag : Bool} {d : Disk} {f : Bool → Handler α}
    {Q : α → Disk → Prop}
    (h : ∀ b d', Unshared user md5 filename flag d b d' → Spec Cmd.exec NoFail (f b) d' Q) :
    Spec Cmd.exec NoFail (delFileUnshare user md5 filename flag >>= f) d Q := by
  unfold delFileUnshare
  rw [bind_assoc]
  refine spec_mysqlQuery (fun _ => rfl) ?_ NoFail.elim
  rw [if_neg (by decide), bind_assoc]
  refine spec_selectUserCount ?_ ?_ NoFail.elim
  · intro r hr hu
    rw [bind_assoc]
    refine spec_mysqlQuery (fun _ => rfl) ?_ NoFail.elim
    rw [if_neg (by decide)]
    cases flag with
    | false => exact h _ _ (.counted (d := d) r hr hu _ rfl)
    | true =>
      rw [if_pos rfl, bind_assoc]
      refine spec_ropWantsOne (fun k _ _ => ?_) NoFail.elim
      rw [bind_assoc]
      refine spec_ropWantsOne (fun l _ _ => ?_) NoFail.elim
      exact h _ _ (.counted (d := d) r hr hu _ rfl)
  · intro hn
    exact h _ _ (.uncounted (d := d) hn)

/-- The end of `del_file`: a row of the file is read, all rows of the file get the lowered
count, and at zero the rows and one stored object go. -/
inductive Released (d : Disk) : Bool → Disk → Prop where
  | missing (hn : ∀ r ∈ d.fileInfo, r.hasMd5 md5 = false) : Released d false d
  | kept (r : FileInfo) (hr : r ∈ d.fileInfo) (hm : r.hasMd5 md5) (hc : r.count ≠ 1) :
      Released d true { d with fileInfo := setFileCount md5 (r.count - 1) d.fileInfo }
  | dropped (r s : FileInfo) (hr : r ∈ d.fileInfo) (hm : r.hasMd5 md5) (hc : r.count = 1)
      (hs : s ∈ d.fileInfo) (hsm : s.hasMd5 md5) (hst : s.fileId ∈ d.storage) :
      Released d true
        { d with
          fileInfo := deleteWhere (FileInfo.hasMd5 md5) d.fileInfo
          storage := d.storage.erase s.fileId }
  | lost (r s : FileInfo) (hr : r ∈ d.fileInfo) (hm : r.hasMd5 md5) (hc : r.count = 1)
      (hs : s ∈ d.fileInfo) (hsm : s.hasMd5 md5) (hst : s.fileId ∉ d.storage) :
      Released d false { d with fileInfo := deleteWhere (FileInfo.hasMd5 md5) d.fileInfo }

theorem released_counts {b : Bool} {d d' : Disk} (h : Released md5 d b d') :
    d'.userFileCount = d.userFileCount := by
  cases h <;> rfl

private theorem deleteFileInfo_effect (count : ℤ) (d : Disk) :
    (deleteFileInfo md5).effect ((updateFileCount md5 count).effect d) =
      { d with fileInfo := deleteWhere (FileInfo.hasMd5 md5) d.fileInfo } :=
  congrArg (fun t => { d with fileInfo := t })
    (deleteWhere_update (p := FileInfo.hasMd5 md5) (f := fun r => { r with count }) fun _ hr => hr)

theorem spec_delFileReference {α : Type} {d : Disk} {f : Bool → Handler α}
    {Q : α → Disk → Prop}
    (h : ∀ b d', Released md5 d b d' → Spec Cmd.exec NoFail (f b) d' Q) :
    Spec Cmd.exec NoFail (delFileReference md5 >>= f) d Q := by
  unfold delFileReference
  rw [bind_assoc]
  refine spec_selectFileCount ?_ ?_ NoFail.elim
  · intro r hr hm
    rw [bind_assoc]
    refine spec_mysqlQuery (fun _ => rfl) ?_ NoFail.elim
    by_cases hc : r.count = 1
    · have hz : (Cell.int r.count).atoi - 1 = 0 := by simp [Cell.atoi, hc]
      rw [if_neg (by decide), if_pos hz, bind_assoc]
      refine spec_selectFileId ?_ ?_ NoFail.elim
      · intro s hs hsm
        obtain ⟨s', hs', m, rfl, -⟩ := mem_setFileCount hs
        rw [bind_assoc]
        refine spec_mysqlQuery (fun _ => rfl) ?_ NoFail.elim
        rw [if_neg (by decide), deleteFileInfo_effect]
        refine spec_removeFile ?_ ?_ NoFail.elim
        · intro hst
          exact h _ _ (.dropped r s' hr hm hc hs' hsm hst)
        · intro hst
          exact h _ _ (.lost r s' hr hm hc hs' hsm hst)
      · intro hn
        have := hn _ (mem_updateWhere.mpr (.inl ⟨r, hr, hm, rfl⟩))
        exact absurd hm (by simpa [FileInfo.hasMd5] using this)
    · have hz : ¬ (Cell.int r.count).atoi - 1 = 0 := by simp only [Cell.atoi]; omega
      rw [if_neg (by decide), if_neg hz]
      exact h _ _ (.kept r hr hm hc)
  · intro hn
    exact h _ _ (.missing hn)

/-- Everything before the user's own counter and row are touched. -/
inductive Cleared (d : Disk) : Disk → Prop where
  | unshared (share : ℤ) (flag : Bool) (hm : ShareMark user md5 filename d (some (share, flag)))
      (h1 : share ≠ 1) : Cleared d d
  | shared (flag : Bool) (hm : ShareMark user md5 filename d (some (1, flag))) (d' : Disk)
      (hu : Unshared user md5 filename flag d true d') : Cleared d d'

def dropUserFile (counts : Multiset UserCount) (d : Disk) : Disk :=
  { d with
    userFileCount := counts
    userFileList := deleteWhere (UserFile.isRow user md5 filename) d.userFileList }

inductive DelFile (d : Disk) : ℤ → Disk → Prop where
  | confused (hm : ShareMark user md5 filename d none) : DelFile d (-1) d
  | stuck (flag : Bool) (hm : ShareMark user md5 filename d (some (1, flag))) (d' : Disk)
      (hu : Unshared user md5 filename flag d false d') : DelFile d (-1) d'
  | uncounted (d' : Disk) (hc : Cleared user md5 filename d d')
      (hn : ∀ r ∈ d'.userFileCount, r.ofUser user = false) : DelFile d (-1) d'
  | deleted (d' : Disk) (hc : Cleared user md5 filename d d') (t : Multiset UserCount)
      (ht : Lowered user d'.userFileCount t) (b : Bool) (e : Disk)
      (hr : Released md5 (dropUserFile user md5 filename t d') b e) :
      DelFile d (if b then 0 else -1) e

private theorem delFile_tail {d d' : Disk} (hc : Cleared user md5 filename d d') :
    Spec Cmd.exec NoFail (do
      if !(← lowerUserCount user) then return -1
      if !(← mysqlQuery (deleteUserFile user md5 filename)) then return -1
      if !(← delFileReference md5) then return -1
      return 0) d' (DelFile user md5 filename d) := by
  refine spec_lowerUserCount (fun t ht => ?_) fun hn => ?_
  · refine spec_mysqlQuery (fun _ => rfl) ?_ NoFail.elim
    refine spec_delFileReference md5 fun b e hr => ?_
    have := DelFile.deleted d' hc t ht b e hr
    cases b with
    | true => exact spec_ret this
    | false => exact spec_ret this
  · exact spec_ret (.uncounted d' hc hn)

theorem delFile_effect (d : Disk) :
    Spec Cmd.exec NoFail (delFile user md5 filename) d (DelFile user md5 filename d) := by
  unfold delFile
  refine spec_ropConnect ?_ NoFail.elim
  refine spec_msqlConn ?_ NoFail.elim
  apply spec_setNames
  intro _
  refine spec_delFileShare user md5 filename fun o hm => ?_
  rcases o with - | ⟨share, flag⟩
  · exact spec_ret (.confused hm)
  · by_cases h1 : share = 1
    · subst h1
      refine spec_delFileUnshare user md5 filename fun b d' hu => ?_
      cases b with
      | false => exact spec_ret (.stuck flag hm d' hu)
      | true => exact delFile_tail user md5 filename (.shared flag hm d' hu)
    · simp only [if_neg h1]
      exact delFile_tail user md5 filename (.unshared share flag hm h1)

def setSharePv (pv : ℤ) (t : Multiset DiskState.ShareFile) : Multiset DiskState.ShareFile :=
  updateWhere (DiskState.ShareFile.isNamed md5 filename) (fun r => { r with pv }) t

inductive PvFileTo (next : ℤ → ℤ) (d : Disk) : ℤ → Disk → Prop where
  | unshared (hn : ∀ r ∈ d.shareFileList, r.isNamed md5 filename = false) : PvFileTo next d (-1) d
  | confused (h0 : zsetExit d (md5 ++ filename) ≠ 0) (h1 : zsetExit d (md5 ++ filename) ≠ 1)
      (r : DiskState.ShareFile) (hr : r ∈ d.shareFileList) (hm : r.isNamed md5 filename) :
      PvFileTo next d (-1)
        { d with shareFileList := setSharePv md5 filename (next r.pv) d.shareFileList }
  | bumped (hz : zsetExit d (md5 ++ filename) = 1)
      (r : DiskState.ShareFile) (hr : r ∈ d.shareFileList) (hm : r.isNamed md5 filename) (k : ℕ) :
      PvFileTo next d (-1) (afterRedis k (.zincrby filePublicZset (md5 ++ filename))
        { d with shareFileList := setSharePv md5 filename (next r.pv) d.shareFileList })
  | cached (hz : zsetExit d (md5 ++ filename) = 0)
      (r : DiskState.ShareFile) (hr : r ∈ d.shareFileList) (hm : r.isNamed md5 filename)
      (k l : ℕ) :
      PvFileTo next d 0 (afterRedis l (.hset fileNameHash (md5 ++ filename) filename)
        (afterRedis k (.zadd filePublicZset (next r.pv) (md5 ++ filename))
          { d with shareFileList := setSharePv md5 filename (next r.pv) d.shareFileList }))

abbrev PvFile : Disk → ℤ → Disk → Prop := PvFileTo md5 filename (· + 1)

theorem pvFileIn_effect (int : ℤ → ℤ) (d : Disk) :
    Spec Cmd.exec NoFail (pvFileIn int md5 filename) d
      (PvFileTo md5 filename (fun n => int (int n + 1)) d) := by
  unfold pvFileIn
  refine spec_ropConnect ?_ NoFail.elim
  refine spec_msqlConn ?_ NoFail.elim
  apply spec_setNames
  intro _
  refine spec_selectSharePv ?_ ?_ NoFail.elim
  · intro r hr hm
    refine spec_mysqlQuery (fun _ => rfl) ?_ NoFail.elim
    refine spec_ropZsetExit ?_ NoFail.elim
    rw [zsetExit_effect]
    by_cases h1 : zsetExit d (md5 ++ filename) = 1
    · rw [if_pos h1, ← bind_pure (ropZsetIncrement _ _)]
      exact spec_ropZsetIncrement (fun k => spec_ret (.bumped (d := d) h1 r hr hm k)) NoFail.elim
    · rw [if_neg h1]
      by_cases h0 : zsetExit d (md5 ++ filename) = 0
      · rw [if_pos h0]
        refine spec_ropWantsOne (fun k _ _ => ?_) NoFail.elim
        exact spec_ropHashSet (fun l _ => spec_ret (.cached (d := d) h0 r hr hm k l)) NoFail.elim
      · rw [if_neg h0]
        exact spec_ret (.confused (d := d) h0 h1 r hr hm)
  · intro hn
    exact spec_ret (.unshared hn)

theorem pvFile_effect (d : Disk) :
    Spec Cmd.exec NoFail (pvFile md5 filename) d (PvFile md5 filename d) :=
  pvFileIn_effect md5 filename id d

end

end HandlerEffects
