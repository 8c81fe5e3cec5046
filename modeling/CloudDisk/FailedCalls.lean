import CloudDisk.FailurePoints
import CloudDisk.SuccessReplies

/-! # What a failed call leaves in the tables

No handler takes anything back: a statement that fails after others have succeeded leaves
their effects in the tables, and the reply says that the call failed. For each handler
and each position of the failing command, whether the tables are as before. -/
namespace FailedCalls

open ByteStrings CommandPrograms RowTables DiskState DiskHandlers HandlerRules HandlerEffects
  FailurePoints SuccessReplies

structure SameTables (d d' : Disk) : Prop where
  fileInfo : d'.fileInfo = d.fileInfo
  userFileList : d'.userFileList = d.userFileList
  shareFileList : d'.shareFileList = d.shareFileList
  userFileCount : d'.userFileCount = d.userFileCount

theorem SameTables.refl (d : Disk) : SameTables d d := ⟨rfl, rfl, rfl, rfl⟩

/-- If the call does not succeed, the tables are as before. -/
def Undone (d : Disk) (ret : ℤ) (d' : Disk) : Prop := ret ≠ 0 → SameTables d d'

section Ends
variable {d d' : Disk}

theorem undone_self (ret : ℤ) : Undone d ret d := fun _ => SameTables.refl d

theorem undone_success : Undone d 0 d' := fun h => absurd rfl h

theorem not_undone {ret : ℤ} (hret : ret ≠ 0) (h : ¬ SameTables d d') : ¬ Undone d ret d' :=
  fun hu => h (hu hret)

end Ends

section Tails
variable {α : Type} {n j : ℕ} {now user md5 filename : CString} {d : Disk}

theorem failSpec_raiseUserCount {f : Bool → Handler α} {Q : α → Disk → Prop}
    (h : n ≠ j + 1 → ∀ t, FailSpec n (j + 2) (f true) { d with userFileCount := t } Q)
    (hf : n = j + 1 → FailSpec n (j + 2) (f false) d Q) :
    FailSpec n j (raiseUserCount user >>= f) d Q := by
  unfold raiseUserCount raiseUserCountIn
  rw [bind_assoc]
  refine failSpec_selectUserCount (fun _ r _ _ => ?_) (fun _ _ => ?_) fun _ => ?_
  · exact failSpec_mysqlQuery (fun _ => rfl) (fun hn => h hn _) hf
  · exact failSpec_mysqlQuery (fun _ => rfl) (fun hn => h hn _) hf
  · exact failSpec_mysqlQuery (fun _ => rfl) (fun hn => h hn d.userFileCount) hf

theorem failSpec_lowerUserCount {f : Bool → Handler α} {Q : α → Disk → Prop}
    (h : n ≠ j → n ≠ j + 1 → ∀ t, Lowered user d.userFileCount t →
      FailSpec n (j + 2) (f true) { d with userFileCount := t } Q)
    (hw : n = j + 1 → FailSpec n (j + 2) (f false) d Q)
    (hn : n ≠ j → (∀ r ∈ d.userFileCount, r.ofUser user = false) →
      FailSpec n (j + 1) (f false) d Q)
    (hf : n = j → FailSpec n (j + 1) (f false) d Q) :
    FailSpec n j (lowerUserCount user >>= f) d Q := by
  unfold lowerUserCount lowerUserCountIn
  rw [bind_assoc]
  refine failSpec_selectUserCount (fun h0 r hr hu => ?_) hn hf
  by_cases h1 : r.count = 1
  · simp only [Cell.atoi, id_eq, h1, ↓reduceIte]
    exact failSpec_mysqlQuery (fun _ => rfl) (fun h' => h h0 h' _ (.last r hr hu h1)) hw
  · simp only [Cell.atoi, id_eq, h1, ↓reduceIte]
    exact failSpec_mysqlQuery (fun _ => rfl) (fun h' => h h0 h' _ (.less r hr hu h1)) hw

theorem setFileCount_ne {r : FileInfo} (hr : r ∈ d.fileInfo) (hm : r.hasMd5 md5) :
    setFileCount md5 (r.count + 1) d.fileInfo ≠ d.fileInfo := by
  intro h
  have hcount := setFileCount_eq_iff.mp h r hr hm
  omega

/-- The end of `deal_md5` and `save_file`: the count of the file, the row, the counter. -/
theorem failSpec_addReference {r : FileInfo} (hr : r ∈ d.fileInfo) (hm : r.hasMd5 md5)
    {p : Handler ℤ} (hp : p = do
      if !(← mysqlQuery (updateFileCount md5 (r.count + 1))) then return -1
      if !(← mysqlQuery (insertUserFile user md5 filename now)) then return -1
      if !(← raiseUserCount user) then return -1
      return (0 : ℤ)) :
    FailSpec n j p d fun ret d' => Undone d ret d' ↔ ¬ (n = j + 1 ∨ n = j + 3) := by
  subst hp
  have hne : ∀ d' : Disk, d'.fileInfo = setFileCount md5 (r.count + 1) d.fileInfo →
      ¬ SameTables d d' := fun d' hd' hs => setFileCount_ne hr hm (hd'.symm.trans hs.fileInfo)
  refine failSpec_mysqlQuery (fun _ => rfl) (fun h0 => ?_) fun h0 => failSpec_ret ?_
  · refine failSpec_mysqlQuery (fun _ => rfl) (fun h1 => ?_) fun h1 => failSpec_ret ?_
    · refine failSpec_raiseUserCount (fun h3 t => failSpec_ret ?_) fun h3 => failSpec_ret ?_
      · exact iff_of_true undone_success (by omega)
      · exact iff_of_false (not_undone (by decide) (hne _ rfl)) (by omega)
    · exact iff_of_false (not_undone (by decide) (hne _ rfl)) (by omega)
  · exact iff_of_true (undone_self _) (by omega)

theorem undone_mark_iff {status : ℤ} :
    Undone d (-1) ((updateSharedStatus user md5 filename status).effect d) ↔
      ∀ r ∈ d.userFileList, r.isRow user md5 filename → r.sharedStatus = status := by
  rw [← setSharedStatus_eq_iff]
  exact ⟨fun h => (h (by decide)).userFileList, fun h _ => ⟨rfl, h, rfl, rfl⟩⟩

/-- The writes of `share_file`: the mark, the row, the counter; the cache is ignored. -/
theorem failSpec_shareWrites {p : Handler ℤ} (hp : p = do
      if !(← mysqlQuery (updateSharedStatus user md5 filename 1)) then return -1
      if !(← mysqlQuery (insertShareFile user md5 filename now)) then return -1
      if !(← raiseUserCount shareCountKey) then return -1
      let _ ← ropZsetAdd filePublicZset 0 (md5 ++ filename)
      let _ ← ropHashSet fileNameHash (md5 ++ filename) filename
      return (0 : ℤ)) :
    FailSpec n j p d fun ret d' => Undone d ret d' ↔ n ≠ j + 3 ∧ (n = j + 1 →
      ∀ r ∈ d.userFileList, r.isRow user md5 filename → r.sharedStatus = 1) := by
  subst hp
  refine failSpec_mysqlQuery (fun _ => rfl) (fun _ => ?_) fun h0 => failSpec_ret ?_
  · refine failSpec_mysqlQuery (fun _ => rfl) (fun h1 => ?_) fun h1 => failSpec_ret ?_
    · refine failSpec_raiseUserCount (fun h3 t => ?_) fun h3 => failSpec_ret ?_
      · have hok : ∀ d', Undone d 0 d' ↔ n ≠ j + 3 ∧ (n = j + 1 →
            ∀ r ∈ d.userFileList, r.isRow user md5 filename → r.sharedStatus = 1) :=
          fun d' => iff_of_true undone_success ⟨h3, fun h => absurd h h1⟩
        refine failSpec_ropWantsOne (fun _ k m _ => ?_) fun _ => ?_
        · exact failSpec_ropHashSet (fun _ _ => failSpec_ret (hok _)) fun _ => failSpec_ret (hok _)
        · exact failSpec_ropHashSet (fun _ _ => failSpec_ret (hok _)) fun _ => failSpec_ret (hok _)
      · refine iff_of_false (not_undone (by decide) fun hs => ?_) (by omega)
        have := congrArg Multiset.card hs.shareFileList
        simp [Sql.effect, insertShareFile, updateSharedStatus, TableOp.effect] at this
    · rw [undone_mark_iff]
      simp [h1]
  · exact iff_of_true (undone_self _) (by omega)

end Tails

/-! ## The cache -/

section Cache
variable {s : Redis} {k : ℕ} {id : CString}

def InSet (s : Redis) (id : CString) : Prop :=
  ∃ z, s filePublicZset = some (.zset z) ∧ (z.score? id).isSome

def InHash (s : Redis) (id : CString) : Prop :=
  ∃ fields, s fileNameHash = some (.hash fields) ∧ (fields.lookup id).isSome

theorem zrem_one_iff :
    ((RedisCmd.zrem filePublicZset id).exec k s).1 = .integer 1 ↔ InSet s id := by
  simp only [RedisCmd.exec, InSet]
  cases hs : s filePublicZset with
  | none => simp
  | some v =>
    cases v with
    | zset z => cases hz : (z.score? id).isSome <;> simp [hz]
    | string v => simp
    | hash fields => simp

theorem hdel_one_iff :
    ((RedisCmd.hdel fileNameHash id).exec k s).1 = .integer 1 ↔ InHash s id := by
  simp only [RedisCmd.exec, InHash]
  cases hs : s fileNameHash with
  | none => simp
  | some v =>
    cases v with
    | hash fields =>
      by_cases hf : (fields.lookup id).isSome
      · exact iff_of_true (by simp only [hf, if_true]) ⟨fields, rfl, hf⟩
      · apply iff_of_false (by simp only [hf]; simp)
        rintro ⟨_, heq, h⟩
        cases heq
        exact hf h
    | string v => simp
    | zset z => simp

theorem inHash_zrem :
    InHash ((RedisCmd.zrem filePublicZset id).exec k s).2 id ↔ InHash s id := by
  have hne : fileNameHash ≠ filePublicZset := by decide
  have hkeep : ((RedisCmd.zrem filePublicZset id).exec k s).2 fileNameHash = s fileNameHash := by
    simp only [RedisCmd.exec]
    split
    · rfl
    next z _ => exact Function.update_of_ne hne (keepZset (z.remove id)) s
    · rfl
  unfold InHash
  rw [hkeep]

end Cache

/-- The end of `cancel_share_file`, in a state whose tables are not those of the beginning: the
row, then the two keys of the cache. -/
theorem failSpec_cancelWrites {n j : ℕ} {user md5 filename : CString} {d c : Disk}
    (hne : ∀ d' : Disk, d'.userFileCount = c.userFileCount → ¬ SameTables d d') {p : Handler ℤ}
    (hp : p = do
      if !(← mysqlQuery (deleteShareFile user md5 filename)) then return -1
      let ret ← ropZsetZrem filePublicZset (md5 ++ filename)
      if ret ≠ 0 then return ret
      ropHashDel fileNameHash (md5 ++ filename)) :
    FailSpec n j p c fun ret d' => Undone d ret d' ↔ ¬ (j ≤ n ∧ n ≤ j + 2) ∧
      InSet c.redis (md5 ++ filename) ∧ InHash c.redis (md5 ++ filename) := by
  subst hp
  refine failSpec_mysqlQuery (fun _ => rfl) (fun h0 => ?_) fun h0 => failSpec_ret ?_
  · refine failSpec_ropWantsOne (fun h1 k m hm => ?_) fun h1 => ?_
    · rw [zrem_one_iff] at hm
      by_cases hm0 : m = 0
      · rw [if_neg (not_not.mpr hm0), ← bind_pure (ropHashDel _ _)]
        refine failSpec_ropWantsOne (fun h2 l m' hm' => failSpec_ret ?_) fun h2 => failSpec_ret ?_
        · have hhash : m' = 0 ↔ InHash c.redis (md5 ++ filename) :=
            (hm'.trans hdel_one_iff).trans inHash_zrem
          by_cases hz : m' = 0
          · rw [hz]
            exact iff_of_true undone_success ⟨by omega, hm.mp hm0, hhash.mp hz⟩
          · exact iff_of_false (not_undone hz (hne _ rfl)) fun h => hz (hhash.mpr h.2.2)
        · exact iff_of_false (not_undone (by decide) (hne _ rfl)) (by omega)
      · rw [if_pos hm0]
        refine failSpec_ret (iff_of_false (not_undone hm0 (hne _ rfl)) fun h => ?_)
        exact hm0 (hm.mpr h.2.1)
    · rw [if_pos (by decide)]
      exact failSpec_ret (iff_of_false (not_undone (by decide) (hne _ rfl)) (by omega))
  · exact iff_of_false (not_undone (by decide) (hne _ rfl)) (by omega)

section Handlers
variable (now user md5 filename : CString) (d : Disk) (n : ℕ)

/-- `deal_md5` and `save_file`: nothing fails after the reference count was raised. The
positions are the insert into the list and the write to the user's counter. -/
def AddKept : Prop :=
  n = 5 ∨ n = 7 → (∀ r ∈ d.fileInfo, r.hasMd5 md5 = false) ∨
    ∃ r ∈ d.userFileList, r.isRow user md5 filename

/-- `store_fileinfo_to_mysql`: nothing fails after the row of the file was inserted. -/
def StoreKept : Prop := n ≠ 3 ∧ n ≠ 5

/-- `share_file`: it does not get to its writes, or the write to the share counter does not
fail and neither does the insert, unless the row was marked as shared before. -/
def ShareKept : Prop :=
  zsetExit d (md5 ++ filename) ≠ 0 ∨ (∃ r ∈ d.shareFileList, r.isNamed md5 filename) ∨
    (n ≠ 8 ∧ (n = 6 → ∀ r ∈ d.userFileList, r.isRow user md5 filename → r.sharedStatus = 1))

/-- `cancel_share_file`: it fails before or at its first write; or it gets no further than
the share counter and the row was not marked; or all goes well, in the cache too. -/
def CancelKept : Prop :=
  n = 0 ∨ n = 1 ∨ n = 3 ∨
    ((n = 4 ∨ n = 5 ∨ ∀ r ∈ d.userFileCount, r.ofUser shareCountKey = false) ∧
      ∀ r ∈ d.userFileList, r.isRow user md5 filename → r.sharedStatus = 0) ∨
    ((∃ r ∈ d.userFileCount, r.ofUser shareCountKey) ∧ ¬ (4 ≤ n ∧ n ≤ 8) ∧
      InSet d.redis (md5 ++ filename) ∧ InHash d.redis (md5 ++ filename))

theorem dealMd5_undone_iff :
    FailSpec n 0 (dealMd5 now user md5 filename) d fun ret d' =>
      Undone d ret d' ↔ AddKept user md5 filename d n := by
  unfold dealMd5 dealMd5In
  refine failSpec_msqlConn (fun _ => ?_) fun h0 => failSpec_ret ?_
  · apply failSpec_setNames
    intro _
    refine failSpec_selectFileCount (fun _ r hr hm => ?_) (fun _ hn => failSpec_ret ?_)
      fun h2 => failSpec_ret ?_
    · have hknown : ¬ ∀ r ∈ d.fileInfo, r.hasMd5 md5 = false :=
        fun hn => none_iff_not_exists.mp hn ⟨r, hr, hm⟩
      refine failSpec_selectUserFile (fun _ s hs hu => failSpec_ret ?_)
        (fun _ hno => ?_) fun h3 => ?_
      · exact iff_of_true (undone_self _) fun _ => Or.inr ⟨s, hs, hu⟩
      · have hnone : ¬ ∃ r ∈ d.userFileList, r.isRow user md5 filename :=
          none_iff_not_exists.mp hno
        refine (failSpec_addReference hr hm rfl).mono fun ret d' h => h.trans ?_
        simp [AddKept, hknown, hnone]
      · refine (failSpec_addReference hr hm rfl).mono fun ret d' h => h.trans ?_
        simp [AddKept, h3]
    · exact iff_of_true (undone_self _) fun _ => Or.inl hn
    · exact iff_of_true (undone_self _) (by simp [AddKept, h2])
  · exact iff_of_true (undone_self _) (by simp [AddKept, h0])

theorem saveFile_undone_iff :
    FailSpec n 0 (saveFile now user md5 filename) d fun ret d' =>
      Undone d ret d' ↔ AddKept user md5 filename d n := by
  unfold saveFile saveFileIn
  refine failSpec_msqlConn (fun _ => ?_) fun h0 => failSpec_ret ?_
  · apply failSpec_setNames
    intro _
    have hrest : (n = 2 ∨ ¬ ∃ r ∈ d.userFileList, r.isRow user md5 filename) →
        FailSpec n 3 (saveFileReference now user md5 filename) d fun ret d' =>
          Undone d ret d' ↔ AddKept user md5 filename d n := by
      intro hown
      refine failSpec_selectFileCount (fun _ r hr hm => ?_) (fun _ hn => failSpec_ret ?_)
        fun h3 => failSpec_ret ?_
      · have hknown : ¬ ∀ r ∈ d.fileInfo, r.hasMd5 md5 = false :=
          fun hn => none_iff_not_exists.mp hn ⟨r, hr, hm⟩
        refine (failSpec_addReference hr hm rfl).mono fun ret d' h => h.trans ?_
        rcases hown with h2 | hnone
        · simp [AddKept, h2]
        · simp [AddKept, hknown, hnone]
      · exact iff_of_true (undone_self _) fun _ => Or.inl hn
      · exact iff_of_true (undone_self _) (by simp [AddKept, h3])
    refine failSpec_selectUserFile (fun _ s hs hu => failSpec_ret ?_) (fun _ hno => ?_) fun h2 => ?_
    · exact iff_of_true (undone_self _) fun _ => Or.inr ⟨s, hs, hu⟩
    · exact hrest (Or.inr (none_iff_not_exists.mp hno))
    · exact hrest (Or.inl h2)
  · exact iff_of_true (undone_self _) (by simp [AddKept, h0])

theorem storeFile_undone_iff (size : ℤ) (fileid url : CString) :
    FailSpec n 0 (storeFileinfoToMysql now user filename md5 size fileid url) d fun ret d' =>
      Undone d ret d' ↔ StoreKept n := by
  have hne : ∀ d' : Disk, d'.fileInfo =
      ⟨md5, fileid, url, size, getFileSuffix filename, 1⟩ ::ₘ d.fileInfo → ¬ SameTables d d' := by
    intro d' hd' hs
    have := congrArg Multiset.card (hd'.symm.trans hs.fileInfo)
    simp at this
  unfold storeFileinfoToMysql storeFileinfoToMysqlIn StoreKept
  refine failSpec_msqlConn (fun _ => ?_) fun h0 => failSpec_ret ?_
  · apply failSpec_setNames
    intro _
    refine failSpec_mysqlQuery (fun _ => rfl) (fun _ => ?_) fun h2 => failSpec_ret ?_
    · refine failSpec_mysqlQuery (fun _ => rfl) (fun h3 => ?_) fun h3 => failSpec_ret ?_
      · refine failSpec_raiseUserCount (fun h5 t => failSpec_ret ?_) fun h5 => failSpec_ret ?_
        · exact iff_of_true undone_success (by omega)
        · exact iff_of_false (not_undone (by decide) (hne _ rfl)) (by omega)
      · exact iff_of_false (not_undone (by decide) (hne _ rfl)) (by omega)
    · exact iff_of_true (undone_self _) (by omega)
  · exact iff_of_true (undone_self _) (by omega)

theorem shareFile_undone_iff :
    FailSpec n 0 (shareFile now user md5 filename) d fun ret d' =>
      Undone d ret d' ↔ ShareKept user md5 filename d n := by
  unfold shareFile
  refine failSpec_ropConnect (fun _ => ?_) fun h0 => failSpec_ret ?_
  · refine failSpec_msqlConn (fun _ => ?_) fun h1 => failSpec_ret ?_
    · apply failSpec_setNames
      intro _
      refine failSpec_ropZsetExit (fun _ => ?_) fun h3 => failSpec_ret ?_
      · by_cases hz1 : zsetExit d (md5 ++ filename) = 1
        · rw [if_pos hz1]
          exact failSpec_ret (iff_of_true (undone_self _) (Or.inl (by omega)))
        rw [if_neg hz1]
        by_cases hz0 : zsetExit d (md5 ++ filename) = 0
        · rw [if_neg (not_not.mpr hz0)]
          have hwrite : (n = 4 ∨ ¬ ∃ r ∈ d.shareFileList, r.isNamed md5 filename) →
              (n ≠ 8 ∧ (n = 6 → ∀ r ∈ d.userFileList, r.isRow user md5 filename →
                r.sharedStatus = 1) ↔ ShareKept user md5 filename d n) := by
            rintro (h4 | hnone)
            · simp [ShareKept, h4]
            · simp [ShareKept, hz0, hnone]
          refine failSpec_selectShareFile (fun _ r hr hm => ?_) (fun _ hno => ?_) fun h4 => ?_
          · have hkept : ShareKept user md5 filename d n := Or.inr (Or.inl ⟨r, hr, hm⟩)
            refine failSpec_ropWantsOne (fun _ k m _ => failSpec_ret ?_) fun _ => failSpec_ret ?_
            · exact iff_of_true (fun _ => ⟨rfl, rfl, rfl, rfl⟩) hkept
            · exact iff_of_true (undone_self _) hkept
          · exact (failSpec_shareWrites rfl).mono fun ret d' h =>
              h.trans (hwrite (Or.inr (none_iff_not_exists.mp hno)))
          · exact (failSpec_shareWrites rfl).mono fun ret d' h => h.trans (hwrite (Or.inl h4))
        · rw [if_pos hz0]
          exact failSpec_ret (iff_of_true (undone_self _) (Or.inl hz0))
      · exact iff_of_true (undone_self _) (by simp [ShareKept, h3])
    · exact iff_of_true (undone_self _) (by simp [ShareKept, h1])
  · exact iff_of_true (undone_self _) (by simp [ShareKept, h0])

theorem cancelShareFile_undone_iff :
    FailSpec n 0 (cancelShareFile user md5 filename) d fun ret d' =>
      Undone d ret d' ↔ CancelKept user md5 filename d n := by
  unfold cancelShareFile cancelShareFileIn
  refine failSpec_ropConnect (fun h0 => ?_) fun h0 => failSpec_ret ?_
  · refine failSpec_msqlConn (fun h1 => ?_) fun h1 => failSpec_ret ?_
    · apply failSpec_setNames
      intro _
      refine failSpec_mysqlQuery (fun _ => rfl) (fun h3 => ?_) fun h3 => failSpec_ret ?_
      · refine failSpec_lowerUserCount (fun h4 h5 t ht => ?_) (fun h5 => failSpec_ret ?_)
          (fun h4 hn => failSpec_ret ?_) fun h4 => failSpec_ret ?_
        · obtain ⟨r, hr, hu, -⟩ := lowered_from ht
          have hcount : ¬ ∀ r ∈ d.userFileCount, r.ofUser shareCountKey = false :=
            fun hn => none_iff_not_exists.mp hn ⟨r, hr, hu⟩
          have hne : ∀ d' : Disk, d'.userFileCount = t → ¬ SameTables d d' :=
            fun d' hd' hs => lowered_ne ht (hd'.symm.trans hs.userFileCount)
          have hkept : CancelKept user md5 filename d n ↔ ¬ (4 ≤ n ∧ n ≤ 8) ∧
              InSet d.redis (md5 ++ filename) ∧ InHash d.redis (md5 ++ filename) := by
            have hex : ∃ r ∈ d.userFileCount, r.ofUser shareCountKey := ⟨r, hr, hu⟩
            simp only [CancelKept, h0, h1, h3, h4, h5, hcount, hex, false_or, false_and, true_and]
          rw [hkept]
          refine (failSpec_cancelWrites hne rfl).mono fun ret d' h => h.trans ?_
          exact and_congr_left fun _ => by omega
        · rw [undone_mark_iff]
          simp [CancelKept, h5]
        · rw [undone_mark_iff]
          have hnone : ¬ ∃ r ∈ d.userFileCount, r.ofUser shareCountKey :=
            none_iff_not_exists.mp hn
          have hall : ∀ r ∈ d.userFileCount, r.ofUser shareCountKey = false := hn
          simp only [CancelKept, h0, h1, h3, hnone, false_or, false_and, or_false]
          exact ⟨fun h => ⟨Or.inr (Or.inr hall), h⟩, fun h => h.2⟩
        · rw [undone_mark_iff]
          simp [CancelKept, h4]
      · exact iff_of_true (undone_self _) (by simp [CancelKept, h3])
    · exact iff_of_true (undone_self _) (by simp [CancelKept, h1])
  · exact iff_of_true (undone_self _) (by simp [CancelKept, h0])

/-- For each handler, and every state and position of the failing command, when a call that
reports failure has changed nothing. -/
theorem failed_undone_iff (size : ℤ) (fileid url : CString) {e : ℕ → Outcome}
    (he : FailsAt n e) :
    (Undone d ((dealMd5 now user md5 filename).run Cmd.exec e d).1
        ((dealMd5 now user md5 filename).run Cmd.exec e d).2 ↔ AddKept user md5 filename d n) ∧
    (Undone d ((storeFileinfoToMysql now user filename md5 size fileid url).run Cmd.exec e d).1
        ((storeFileinfoToMysql now user filename md5 size fileid url).run Cmd.exec e d).2 ↔
      StoreKept n) ∧
    (Undone d ((saveFile now user md5 filename).run Cmd.exec e d).1
        ((saveFile now user md5 filename).run Cmd.exec e d).2 ↔ AddKept user md5 filename d n) ∧
    (Undone d ((shareFile now user md5 filename).run Cmd.exec e d).1
        ((shareFile now user md5 filename).run Cmd.exec e d).2 ↔ ShareKept user md5 filename d n) ∧
    (Undone d ((cancelShareFile user md5 filename).run Cmd.exec e d).1
        ((cancelShareFile user md5 filename).run Cmd.exec e d).2 ↔
      CancelKept user md5 filename d n) := by
  refine ⟨?_, ?_, ?_, ?_, ?_⟩
  · exact (dealMd5_undone_iff now user md5 filename d n).run he
  · exact (storeFile_undone_iff now user md5 filename d n size fileid url).run he
  · exact (saveFile_undone_iff now user md5 filename d n).run he
  · exact (shareFile_undone_iff now user md5 filename d n).run he
  · exact (cancelShareFile_undone_iff user md5 filename d n).run he

end Handlers

theorem failsAt_failAt (n : ℕ) : FailsAt n (failAt n) := by
  intro i
  by_cases h : i = n <;> simp [failAt, h]

/-- The update of the reference count fails, and with it the call. -/
theorem failed_undone_update : FailsAt 4 (failAt 4) ∧
    ((dealMd5 [] [98] [1] [103]).run Cmd.exec (failAt 4) oneFile).1 = -1 ∧
    SameTables oneFile ((dealMd5 [] [98] [1] [103]).run Cmd.exec (failAt 4) oneFile).2 := by
  have hkept : AddKept [98] [1] [103] oneFile 4 := fun hn => absurd hn (by decide)
  have hret : ((dealMd5 [] [98] [1] [103]).run Cmd.exec (failAt 4) oneFile).1 = -1 := by decide
  have h := failed_undone_iff [] [98] [1] [103] oneFile 4 9 [8] [] (failsAt_failAt 4)
  refine ⟨failsAt_failAt 4, hret, ?_⟩
  apply h.1.mpr hkept
  rw [hret]
  decide

def sharedFile : Disk :=
  { oneFile with
    userFileList := {⟨[97], [1], [], [102], 1, 0⟩}
    shareFileList := {⟨[97], [1], [], [102], 0⟩}
    userFileCount := {⟨[97], 1⟩, ⟨shareCountKey, 1⟩} }

/-- In each handler one failing statement is enough to leave half of the work. -/
theorem failed_not_undone :
    ¬ Undone oneFile ((dealMd5 [] [98] [1] [103]).run Cmd.exec (failAt 5) oneFile).1
      ((dealMd5 [] [98] [1] [103]).run Cmd.exec (failAt 5) oneFile).2 ∧
    ¬ Undone oneFile
      ((storeFileinfoToMysql [] [98] [103] [2] 9 [8] []).run Cmd.exec (failAt 3) oneFile).1
      ((storeFileinfoToMysql [] [98] [103] [2] 9 [8] []).run Cmd.exec (failAt 3) oneFile).2 ∧
    ¬ Undone oneFile ((saveFile [] [98] [1] [103]).run Cmd.exec (failAt 7) oneFile).1
      ((saveFile [] [98] [1] [103]).run Cmd.exec (failAt 7) oneFile).2 ∧
    ¬ Undone oneFile ((shareFile [] [97] [1] [102]).run Cmd.exec (failAt 6) oneFile).1
      ((shareFile [] [97] [1] [102]).run Cmd.exec (failAt 6) oneFile).2 ∧
    ¬ Undone sharedFile ((cancelShareFile [97] [1] [102]).run Cmd.exec (failAt 6) sharedFile).1
      ((cancelShareFile [97] [1] [102]).run Cmd.exec (failAt 6) sharedFile).2 := by
  refine ⟨?_, ?_, ?_, ?_, ?_⟩
  · rw [(dealMd5_undone_iff [] [98] [1] [103] oneFile 5).run (failsAt_failAt 5)]
    simp [AddKept, oneFile, FileInfo.hasMd5, UserFile.isRow]
  · rw [(storeFile_undone_iff [] [98] [2] [103] oneFile 3 9 [8] []).run (failsAt_failAt 3)]
    simp [StoreKept]
  · rw [(saveFile_undone_iff [] [98] [1] [103] oneFile 7).run (failsAt_failAt 7)]
    simp [AddKept, oneFile, FileInfo.hasMd5, UserFile.isRow]
  · rw [(shareFile_undone_iff [] [97] [1] [102] oneFile 6).run (failsAt_failAt 6)]
    simp [ShareKept, zsetExit, oneFile, UserFile.isRow]
  · rw [(cancelShareFile_undone_iff [97] [1] [102] sharedFile 6).run (failsAt_failAt 6)]
    simp [CancelKept, sharedFile, UserCount.ofUser]

end FailedCalls
