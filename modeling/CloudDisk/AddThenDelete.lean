import CloudDisk.ForeignShares
import CloudDisk.ReferenceCounts
import CloudDisk.SuccessReplies
import Mathlib.Data.Fintype.EquivFin

/-! # Deleting what has just been added

There are three ways to add a file to a user's list and one to delete it. Counters are
inserted at one and deleted at one; between the two they are written, not incremented. -/
namespace AddThenDelete

open ByteStrings CommandPrograms RowTables SortedSets DiskState DiskHandlers HandlerRules
  HandlerEffects ReferenceCounts CacheEntries ShareReplies MembershipTests
  SuccessReplies

section Counters
variable {user : CString} {t t₁ t₂ : Multiset UserCount}

theorem setCount_eq_iff {c : ℤ} :
    updateWhere (UserCount.ofUser user) (fun s => { s with count := c }) t = t ↔
      ∀ r ∈ t, r.ofUser user → r.count = c :=
  updateWhere_column_iff UserCount.count (fun _ => rfl) fun _ h => by rw [← h]

theorem started_lowered (hn : ∀ r ∈ t, r.ofUser user = false)
    (hl : Lowered user (⟨user, 1⟩ ::ₘ t) t₂) : t₂ = t := by
  have hself : UserCount.ofUser user ⟨user, 1⟩ := by simp [UserCount.ofUser]
  cases hl with
  | last q hq hqu h1 =>
    rw [deleteWhere_cons, if_pos hself]
    exact deleteWhere_of_none hn
  | less q hq hqu h1 =>
    rcases Multiset.mem_cons.mp hq with rfl | hq
    · exact absurd rfl h1
    · simp [hn q hq] at hqu

theorem raised_again_lowered_iff {r : UserCount} (hr : r ∈ t) (hu : r.ofUser user)
    (hl : Lowered user
      (updateWhere (UserCount.ofUser user) (fun s => { s with count := r.count + 1 }) t) t₂) :
    t₂ = t ↔ r.count ≠ 0 ∧ ∀ a ∈ t, a.ofUser user → a.count = r.count := by
  cases hl with
  | last q hq hqu h1 =>
    have hset : q.count = r.count + 1 := mem_setCount hq hqu
    have hzero : r.count = 0 := by omega
    refine iff_of_false ?_ fun h => h.1 hzero
    intro h
    have hmem := h ▸ hr
    have := (mem_deleteWhere.mp hmem).2
    simp [hu] at this
  | less q hq hqu h1 =>
    have hset : q.count = r.count + 1 := mem_setCount hq hqu
    have hback : q.count - 1 = r.count := by omega
    have hne : r.count ≠ 0 := by omega
    rw [hback, updateWhere_updateWhere (by exact fun _ hs => hs), setCount_eq_iff,
      and_iff_right hne]

/-- A counter raised and lowered again is as before if its rows agree and none is zero:
zero would have become one, and one is deleted. -/
theorem raised_lowered_iff (hr : Raised user t t₁) (hl : Lowered user t₁ t₂) :
    t₂ = t ↔ Agrees user t ∧ ∀ r ∈ t, r.ofUser user → r.count ≠ 0 := by
  cases hr with
  | first hn =>
    refine iff_of_true (started_lowered hn hl) ⟨fun r hr s _ hru => ?_, fun r hr hru => ?_⟩
    · simp [hn r hr] at hru
    · simp [hn r hr] at hru
  | again r hr hu =>
    rw [raised_again_lowered_iff hr hu hl]
    constructor
    · rintro ⟨hne, h⟩
      constructor
      · intro a ha b hb hau hbu
        rw [h a ha hau, h b hb hbu]
      · intro a ha hau
        rw [h a ha hau]
        exact hne
    · rintro ⟨hagree, hne⟩
      exact ⟨hne r hr hu, fun a ha hau => hagree a ha r hr hau hu⟩

theorem raised_row (hr : Raised user t t₁) : ∃ r ∈ t₁, r.ofUser user := by
  cases hr with
  | first hn => exact ⟨_, Multiset.mem_cons_self _ _, by simp [UserCount.ofUser]⟩
  | again r hr hu => exact ⟨_, mem_updateWhere.mpr (.inl ⟨r, hr, hu, rfl⟩), hu⟩

end Counters

section Delete
variable {now user md5 filename : CString} {d d' : Disk}

/-- Everything but the cache is as before. -/
structure Restored (d d' : Disk) : Prop where
  fileInfo : d'.fileInfo = d.fileInfo
  userFileList : d'.userFileList = d.userFileList
  userFileCount : d'.userFileCount = d.userFileCount
  shareFileList : d'.shareFileList = d.shareFileList
  storage : d'.storage = d.storage

/-- The state in which an added reference has been dropped again, except for the file. -/
def withoutReference (d : Disk) (files : Multiset FileInfo) (counts : Multiset UserCount)
    (storage : Finset CString) : Disk :=
  { d with fileInfo := files, userFileCount := counts, storage }

theorem delete_added (now : CString) (files : Multiset FileInfo) {counts : Multiset UserCount}
    (storage : Finset CString) (hz : zsetExit d (md5 ++ filename) = 0)
    (hout : ∀ r ∈ d.userFileList, r.isRow user md5 filename = false)
    (hcounts : ∃ r ∈ counts, r.ofUser user) :
    Spec Cmd.exec NoFail (delFile user md5 filename)
      { addReference now user md5 filename d files counts with storage } fun n d' =>
        ∃ t b, Lowered user counts t ∧ Released md5 (withoutReference d files t storage) b d' ∧
          n = if b then 0 else -1 := by
  have hself : UserFile.isRow user md5 filename ⟨user, md5, now, filename, 0, 0⟩ := by
    simp [UserFile.isRow]
  have hmark : ∀ r ∈ (⟨user, md5, now, filename, 0, 0⟩ ::ₘ d.userFileList : Multiset UserFile),
      r.isRow user md5 filename → r.sharedStatus ≠ 1 := by
    intro r hr hu
    rcases Multiset.mem_cons.mp hr with rfl | hr
    · simp
    · simp [hout r hr] at hu
  have hlist : deleteWhere (UserFile.isRow user md5 filename)
      (⟨user, md5, now, filename, 0, 0⟩ ::ₘ d.userFileList) = d.userFileList := by
    rw [deleteWhere_cons, if_pos hself, deleteWhere_of_none hout]
  have hnot : ∀ flag, ¬ ShareMark user md5 filename
      { addReference now user md5 filename d files counts with storage } (some (1, flag)) :=
    ForeignShares.not_marked hz hmark
  refine (delFile_effect user md5 filename _).mono fun n d' he => ?_
  cases he with
  | confused hm => exact (ForeignShares.mark_none hm hz).elim
  | stuck flag hm _ hu => exact absurd hm (hnot flag)
  | uncounted _ hc hn =>
    cases hc with
    | unshared share flag hm h1 => exact absurd hcounts (none_iff_not_exists.mp hn)
    | shared flag hm _ hu => exact absurd hm (hnot flag)
  | deleted e hc t ht b _ hr =>
    cases hc with
    | shared flag hm _ hu => exact absurd hm (hnot flag)
    | unshared share flag hm h1 =>
      refine ⟨t, b, ht, ?_, rfl⟩
      have hdrop : dropUserFile user md5 filename t
          { addReference now user md5 filename d files counts with storage } =
            withoutReference d files t storage := by
        simp only [dropUserFile, addReference, withoutReference, hlist]
      rw [hdrop] at hr
      exact hr

theorem count_ne_zero (hc : CountsAgree d) {r : FileInfo} (hr : r ∈ d.fileInfo) :
    r.count ≠ 0 := by
  obtain ⟨s, hs, hsm⟩ := (hc.file_iff r.md5).mp ⟨r, hr, rfl⟩
  have href : 0 < references d r.md5 := countWhere_pos.mpr ⟨s, hs, by simpa [refersTo] using hsm⟩
  rw [hc.file_count r hr]
  omega

theorem setFileCount_back (hc : CountsAgree d) {r : FileInfo} (hr : r ∈ d.fileInfo)
    (hm : r.hasMd5 md5) (n : ℤ) :
    setFileCount md5 r.count (setFileCount md5 n d.fileInfo) = d.fileInfo := by
  rw [setFileCount_setFileCount, setFileCount_eq_iff]
  intro s hs hsm
  have hmd5 : s.md5 = r.md5 := by
    simp only [FileInfo.hasMd5, decide_eq_true_eq] at hsm hm
    rw [hsm, hm]
  rw [hc.file_count s hs, hc.file_count r hr, hmd5]

theorem release_raised {r : FileInfo} {t : Multiset UserCount} {storage : Finset CString} {b : Bool}
    (hc : CountsAgree d) (hr : r ∈ d.fileInfo) (hm : r.hasMd5 md5)
    (h : Released md5
      (withoutReference d (setFileCount md5 (r.count + 1) d.fileInfo) t storage) b d') :
    b = true ∧ d' = withoutReference d d.fileInfo t storage := by
  have hpos := count_ne_zero hc hr
  have hset : ∀ q ∈ setFileCount md5 (r.count + 1) d.fileInfo, q.hasMd5 md5 →
      q.count = r.count + 1 := by
    intro q hq hqm
    obtain ⟨s, -, m, rfl, hcount⟩ := mem_setFileCount hq
    exact hcount hqm
  cases h with
  | missing hn =>
    have := hn _ (mem_updateWhere.mpr (.inl ⟨r, hr, hm, rfl⟩))
    exact absurd hm (by simpa [FileInfo.hasMd5] using this)
  | dropped q s hq hqm hq1 hs hsm hst =>
    have := hset q hq hqm
    omega
  | lost q s hq hqm hq1 hs hsm hst =>
    have := hset q hq hqm
    omega
  | kept q hq hqm hq1 =>
    refine ⟨rfl, ?_⟩
    have hback : q.count - 1 = r.count := by
      have := hset q hq hqm
      omega
    simp only [withoutReference, hback, setFileCount_back hc hr hm]

theorem release_inserted {r : FileInfo} {t : Multiset UserCount} {b : Bool}
    (hm : r.hasMd5 md5) (hone : r.count = 1) (hnew : ∀ s ∈ d.fileInfo, s.hasMd5 md5 = false)
    (hid : r.fileId ∉ d.storage)
    (h : Released md5
      (withoutReference d (r ::ₘ d.fileInfo) t (insert r.fileId d.storage)) b d') :
    b = true ∧ d' = withoutReference d d.fileInfo t d.storage := by
  have honly : ∀ s ∈ (r ::ₘ d.fileInfo), s.hasMd5 md5 → s = r := by
    intro s hs hsm
    rcases Multiset.mem_cons.mp hs with rfl | hs
    · rfl
    · simp [hnew s hs] at hsm
  have hfiles : deleteWhere (FileInfo.hasMd5 md5) (r ::ₘ d.fileInfo) = d.fileInfo := by
    rw [deleteWhere_cons, if_pos hm, deleteWhere_of_none hnew]
  cases h with
  | missing hn => exact absurd hm (by simp [hn r (Multiset.mem_cons_self _ _)])
  | kept q hq hqm hq1 =>
    rw [honly q hq hqm] at hq1
    exact absurd hone hq1
  | lost q s hq hqm hq1 hs hsm hst =>
    rw [honly s hs hsm] at hst
    exact absurd (Finset.mem_insert_self _ _) hst
  | dropped q s hq hqm hq1 hs hsm hst =>
    refine ⟨rfl, ?_⟩
    have hobject : (insert r.fileId d.storage).erase s.fileId = d.storage := by
      rw [honly s hs hsm]
      exact Finset.erase_insert hid
    simp only [withoutReference, hfiles, hobject]

end Delete

section Undo
variable (user md5 filename : CString) (d : Disk)

/-- From the state `added` the deletion succeeds and leads back to `d`. -/
def Undone (added : Disk) (e : ℕ → Outcome) : Prop :=
  delFileStatus ((delFile user md5 filename).run Cmd.exec e added).1 = .c013 ∧
    Restored d ((delFile user md5 filename).run Cmd.exec e added).2

/-- The rows of the caller's counter agree and none of them is zero. Only the counter of
the shares can be otherwise. -/
def Restorable : Prop :=
  Agrees user d.userFileCount ∧ ∀ r ∈ d.userFileCount, r.ofUser user → r.count ≠ 0

end Undo

section Undo
variable {now user md5 filename : CString} {d : Disk} {e : ℕ → Outcome}

theorem restorable_of_agree (hc : CountsAgree d) (hkey : user ≠ shareCountKey) :
    Restorable user d := by
  have hcount : ∀ r ∈ d.userFileCount, r.ofUser user → r.count = owned d user := by
    intro r hr hu
    obtain rfl : r.user = user := by simpa [UserCount.ofUser] using hu
    exact hc.user_count r hr hkey
  constructor
  · intro r hr s hs hru hsu
    rw [hcount r hr hru, hcount s hs hsu]
  · intro r hr hu
    have hname : r.user = user := by simpa [UserCount.ofUser] using hu
    obtain ⟨s, hs, hsu⟩ := (hc.user_iff user hkey).mp ⟨r, hr, hname⟩
    have hpos : 0 < owned d user := countWhere_pos.mpr ⟨s, hs, by simpa [ownedBy] using hsu⟩
    rw [hcount r hr hu]
    omega

theorem undone_iff (now : CString) (files : Multiset FileInfo) {counts : Multiset UserCount}
    (storage : Finset CString) (hz : zsetExit d (md5 ++ filename) = 0)
    (hout : ∀ r ∈ d.userFileList, r.isRow user md5 filename = false)
    (hraised : Raised user d.userFileCount counts)
    (hback : ∀ t b d', Released md5 (withoutReference d files t storage) b d' →
      b = true ∧ d' = withoutReference d d.fileInfo t d.storage)
    (he : ∀ i, NoFail (e i)) :
    Undone user md5 filename d
      { addReference now user md5 filename d files counts with storage } e ↔
      Restorable user d := by
  obtain ⟨t, b, ht, hrel, hn⟩ := delete_added now files storage hz hout
    (raised_row hraised) e he
  obtain ⟨rfl, hd'⟩ := hback t b _ hrel
  unfold Undone Restorable
  rw [hd', hn, ← raised_lowered_iff hraised ht]
  constructor
  · rintro ⟨-, h⟩
    exact h.userFileCount
  · intro h
    exact ⟨by decide, rfl, rfl, h, rfl, rfl⟩

theorem reference_undone_iff {r : FileInfo} {counts : Multiset UserCount} (hc : CountsAgree d)
    (hz : zsetExit d (md5 ++ filename) = 0)
    (hout : ∀ r ∈ d.userFileList, r.isRow user md5 filename = false) (hr : r ∈ d.fileInfo)
    (hm : r.hasMd5 md5) (hraised : Raised user d.userFileCount counts) (he : ∀ i, NoFail (e i)) :
    Undone user md5 filename d
        (addReference now user md5 filename d
          (setFileCount md5 (r.count + 1) d.fileInfo) counts) e ↔
      Restorable user d :=
  undone_iff now (setFileCount md5 (r.count + 1) d.fileInfo) d.storage hz hout hraised
    (fun _ _ _ h => release_raised hc hr hm h) he

theorem dealMd5_undone (now : CString) (hc : CountsAgree d)
    (hz : zsetExit d (md5 ++ filename) = 0)
    (hout : ∀ r ∈ d.userFileList, r.isRow user md5 filename = false) (he : ∀ i, NoFail (e i)) :
    Spec Cmd.exec NoFail (dealMd5 now user md5 filename) d fun n d₁ =>
      (n = 0 → (Undone user md5 filename d d₁ e ↔ Restorable user d)) ∧
      ((∃ r ∈ d.fileInfo, r.hasMd5 md5) → n = 0) := by
  refine (dealMd5_effect now user md5 filename d).mono fun n d₁ h => ?_
  cases h with
  | unknown hn => exact ⟨by simp, fun h => absurd h (none_iff_not_exists.mp hn)⟩
  | owned r hr hu => simp [hout r hr] at hu
  | added r hr hm hn t ht =>
    exact ⟨fun _ => reference_undone_iff hc hz hout hr hm ht he, fun _ => rfl⟩

theorem saveFile_undone (now : CString) (hc : CountsAgree d)
    (hz : zsetExit d (md5 ++ filename) = 0)
    (hout : ∀ r ∈ d.userFileList, r.isRow user md5 filename = false) (he : ∀ i, NoFail (e i)) :
    Spec Cmd.exec NoFail (saveFile now user md5 filename) d fun n d₁ =>
      n = 0 → (Undone user md5 filename d d₁ e ↔ Restorable user d) := by
  refine (saveFile_effect now user md5 filename d).mono fun n d₁ h => ?_
  cases h with
  | unknown hn => simp
  | owned r hr hu => simp [hout r hr] at hu
  | added r hr hm hn t ht => exact fun _ => reference_undone_iff hc hz hout hr hm ht he

theorem storeFile_undone (now : CString) (size : ℤ) {fileid : CString} (url : CString)
    (hz : zsetExit d (md5 ++ filename) = 0)
    (hout : ∀ r ∈ d.userFileList, r.isRow user md5 filename = false)
    (hnew : ∀ r ∈ d.fileInfo, r.hasMd5 md5 = false) (hid : fileid ∉ d.storage)
    (he : ∀ i, NoFail (e i)) :
    Spec Cmd.exec NoFail (storeFileinfoToMysql now user filename md5 size fileid url)
      { d with storage := insert fileid d.storage } fun n d₁ =>
        n = 0 ∧ (Undone user md5 filename d d₁ e ↔ Restorable user d) := by
  refine (storeFileinfoToMysql_effect now user md5 filename size fileid url _).mono
    fun n d₁ h => ?_
  cases h with
  | stored t ht =>
    refine ⟨rfl, ?_⟩
    refine undone_iff now _ (insert fileid d.storage) hz hout ht ?_ he
    intro t' b d' h
    exact release_inserted (by simp [FileInfo.hasMd5]) rfl hnew hid h

end Undo

/-- Adding by any of the three ways and deleting again leads back exactly when the
caller's counter can be restored; for every ordinary user it can. -/
theorem deletion_undoes_addition_iff (now user md5 filename : CString) (d : Disk) (z : SortedSet)
    (hc : CountsAgree d) (hz : d.redis filePublicZset = keepZset z)
    (hout : ∀ r ∈ d.userFileList, r.isRow user md5 filename = false)
    (hcache : md5 ++ filename ∉ z.entries.map Entry.member)
    (e e' : ℕ → Outcome) (he : ∀ i, NoFail (e i)) (he' : ∀ i, NoFail (e' i)) :
    ((dealMd5Status ((dealMd5 now user md5 filename).run Cmd.exec e d).1 = .c005 →
        Undone user md5 filename d ((dealMd5 now user md5 filename).run Cmd.exec e d).2 e') ∧
      (saveFileStatus ((saveFile now user md5 filename).run Cmd.exec e d).1 = some .c020 →
        Undone user md5 filename d ((saveFile now user md5 filename).run Cmd.exec e d).2 e') ∧
      ((∀ r ∈ d.fileInfo, r.hasMd5 md5 = false) → ∀ size fileid url, fileid ∉ d.storage →
        let stored := (storeFileinfoToMysql now user filename md5 size fileid url).run Cmd.exec e
          { d with storage := insert fileid d.storage }
        stored.1 = 0 → Undone user md5 filename d stored.2 e')) ↔
      (user = shareCountKey → Restorable user d) := by
  have hexit : zsetExit d (md5 ++ filename) = 0 := by
    rw [zsetExit_keepZset hz]
    apply SortedSet.lexCount_absent
    intro s hs
    exact hcache (score?_isSome.mp (by rw [SortedSet.score?_eq_some.mpr hs]; rfl))
  have hrestorable : (user = shareCountKey → Restorable user d) ↔ Restorable user d := by
    constructor
    · intro h
      by_cases hkey : user = shareCountKey
      · exact h hkey
      · exact restorable_of_agree hc hkey
    · exact fun h _ => h
  rw [hrestorable, dealMd5_status, saveFile_status]
  have hdeal := dealMd5_undone now hc hexit hout he' e he
  have hsave := saveFile_undone now hc hexit hout he' e he
  constructor
  · rintro ⟨hdealt, -, hstored⟩
    -- some addition succeeds: a reference if the file is there, an upload otherwise
    by_cases hm : ∃ r ∈ d.fileInfo, r.hasMd5 md5
    · exact (hdeal.1 (hdeal.2 hm)).mp (hdealt (hdeal.2 hm))
    · have hnew := none_iff_not_exists.mpr hm
      obtain ⟨fileid, hid⟩ := Infinite.exists_notMem_finset d.storage
      have hstore := storeFile_undone now 0 [] hexit hout hnew hid he' e he
      exact hstore.2.mp (hstored hnew 0 fileid [] hid hstore.1)
  · intro h
    refine ⟨fun h0 => (hdeal.1 h0).mpr h, fun h0 => (hsave h0).mpr h, ?_⟩
    intro hnew size fileid url hid stored _
    exact (storeFile_undone now size url hexit hout hnew hid he' e he).2.mpr h

theorem oneFile_agree : CountsAgree oneFile := by
  constructor
  · exact fun md5 => (countWhere_le_card _ _).trans (by decide)
  · intro md5
    simp [oneFile]
  · intro r hr
    rw [Multiset.mem_singleton.mp hr]
    decide
  · simp [oneFile]
  · intro user _
    simp [oneFile]
  · intro r hr _
    rw [Multiset.mem_singleton.mp hr]
    decide
  · exact fun user md5 filename => (countWhere_le_card _ _).trans (by decide)

/-- A second user takes the file and gives it up again. -/
theorem deletion_undoes_second_owner :
    dealMd5Status ((dealMd5 [] [98] [1] [103]).run Cmd.exec (fun _ => .ok 0) oneFile).1 = .c005 ∧
      Undone [98] [1] [103] oneFile
        ((dealMd5 [] [98] [1] [103]).run Cmd.exec (fun _ => .ok 0) oneFile).2 fun _ => .ok 0 := by
  have hok : ∀ i : ℕ, NoFail ((fun _ => .ok 0 : ℕ → Outcome) i) := fun _ => by simp [NoFail]
  have hstatus : dealMd5Status
      ((dealMd5 [] [98] [1] [103]).run Cmd.exec (fun _ => .ok 0) oneFile).1 = .c005 := by decide
  have hiff := deletion_undoes_addition_iff [] [98] [1] [103] oneFile (SortedSet.fresh [])
    oneFile_agree rfl (by decide) (by decide) (fun _ => .ok 0) (fun _ => .ok 0) hok hok
  exact ⟨hstatus, (hiff.mpr fun hkey => absurd hkey (by decide)).1 hstatus⟩

/-- The counter of the shares as the last deletion of a shared file leaves it. -/
def noSharesLeft : Disk := { emptyDisk with userFileCount := {⟨shareCountKey, 0⟩} }

theorem noSharesLeft_agree : CountsAgree noSharesLeft := by
  constructor
  · exact fun md5 => (countWhere_le_card _ _).trans (by decide)
  · simp [noSharesLeft, emptyDisk]
  · simp [noSharesLeft, emptyDisk]
  · simp [noSharesLeft, emptyDisk]
  · intro user hkey
    simp [noSharesLeft, emptyDisk, hkey.symm]
  · intro r hr hkey
    rw [Multiset.mem_singleton.mp hr] at hkey
    exact absurd rfl hkey
  · exact fun user md5 filename => (countWhere_le_card _ _).trans (by decide)

/-- A user whose name is the reserved key uploads a file and deletes it: the counter of the
shares is gone. -/
theorem deletion_loses_counter : CountsAgree noSharesLeft ∧
    noSharesLeft.redis filePublicZset = keepZset (SortedSet.fresh []) ∧
    (∀ r ∈ noSharesLeft.userFileList, r.isRow shareCountKey [1] [102] = false) ∧
    (∀ r ∈ noSharesLeft.shareFileList, r.isNamed [1] [102] = false) ∧
    (∀ r ∈ noSharesLeft.fileInfo, r.hasMd5 [1] = false) ∧ [7] ∉ noSharesLeft.storage ∧
    ∃ e : ℕ → Outcome, (∀ i, NoFail (e i)) ∧
      let stored := (storeFileinfoToMysql [] shareCountKey [102] [1] 9 [7] []).run Cmd.exec e
        { noSharesLeft with storage := insert [7] noSharesLeft.storage }
      stored.1 = 0 ∧ ¬ Undone shareCountKey [1] [102] noSharesLeft stored.2 e := by
  have hok : ∀ i : ℕ, NoFail ((fun _ => .ok 0 : ℕ → Outcome) i) := fun _ => by simp [NoFail]
  have hnobody : ∀ r ∈ noSharesLeft.userFileList, r.isRow shareCountKey [1] [102] = false := by
    simp [noSharesLeft, emptyDisk]
  have hnew : ∀ r ∈ noSharesLeft.fileInfo, r.hasMd5 [1] = false := by
    simp [noSharesLeft, emptyDisk]
  have hid : [7] ∉ noSharesLeft.storage := by simp [noSharesLeft, emptyDisk]
  have hstore := storeFile_undone [] 9 [] rfl hnobody hnew hid hok (fun _ => .ok 0) hok
  refine ⟨noSharesLeft_agree, rfl, hnobody, by simp [noSharesLeft, emptyDisk], hnew, hid,
    fun _ => .ok 0, hok, hstore.1, ?_⟩
  intro h
  exact (hstore.2.mp h).2 ⟨shareCountKey, 0⟩ (Multiset.mem_singleton_self _)
    (by simp [UserCount.ofUser]) rfl

end AddThenDelete
