import CloudDisk.ReferenceCounts

/-! # The list of shares, the status column and the share counter

Three records of the same fact: the rows of `share_file_list`, `shared_status` in
`user_file_list` and the row of the share count in `user_file_count`. They are changed by
separate statements that select by different columns, and none of the handlers looks at
how many rows a statement changed. -/
namespace ShareLedger

open ByteStrings CommandPrograms RowTables DiskState HandlerRules HandlerEffects DiskCalls
  ReferenceCounts

def Shared (d : Disk) (user md5 filename : CString) : Prop :=
  ∃ s ∈ d.shareFileList, s.isRow user md5 filename

structure Ledger (d : Disk) : Prop where
  once : ∀ user md5 filename,
    countWhere (DiskState.ShareFile.isRow user md5 filename) d.shareFileList ≤ 1
  listed : ∀ user md5 filename, Shared d user md5 filename →
    ∃ r ∈ d.userFileList, r.isRow user md5 filename
  status : ∀ r ∈ d.userFileList, r.sharedStatus = 1 ↔ Shared d r.user r.md5 r.filename
  counter : Counted (UserCount.ofUser shareCountKey) UserCount.count d.userFileCount
    (Multiset.card d.shareFileList)
  users : ∀ user, user ≠ shareCountKey → ∃ n, owned d user ≤ n ∧
    Tallied (UserCount.ofUser user) UserCount.count d.userFileCount n

theorem ledger_empty {d : Disk} (h : TablesEmpty d) : Ledger d := by
  obtain ⟨-, hl, hs, hc⟩ := h
  constructor
  · simp [hs]
  · simp [Shared, hs]
  · simp [hl]
  · exact Or.inl (by simp [hs, hc, rowsWhere])
  · intro user _
    refine ⟨0, by simp [owned, hl], ?_⟩
    rw [hc]
    exact tallied_none (by simp)

section Rows
variable {user md5 filename : CString} {d : Disk}

theorem userRow_iff {r : UserFile} :
    r.isRow user md5 filename ↔ r.user = user ∧ r.md5 = md5 ∧ r.filename = filename := by
  simp [UserFile.isRow]

theorem shareRow_iff {s : DiskState.ShareFile} :
    s.isRow user md5 filename ↔ s.user = user ∧ s.md5 = md5 ∧ s.filename = filename := by
  simp [DiskState.ShareFile.isRow]

theorem shareRow_named {s : DiskState.ShareFile} (h : s.isRow user md5 filename) :
    s.isNamed md5 filename := by
  obtain ⟨-, hm, hf⟩ := shareRow_iff.mp h
  simp [DiskState.ShareFile.isNamed, hm, hf]

theorem mem_setSharedStatus {n : ℤ} {t : Multiset UserFile} {r : UserFile} :
    r ∈ setSharedStatus user md5 filename n t ↔
      (∃ s ∈ t, s.isRow user md5 filename ∧ { s with sharedStatus := n } = r) ∨
      (r ∈ t ∧ r.isRow user md5 filename = false) := mem_updateWhere

theorem exists_setSharedStatus {n : ℤ} {t : Multiset UserFile} {u m f : CString} :
    (∃ r ∈ setSharedStatus user md5 filename n t, r.isRow u m f) ↔ ∃ r ∈ t, r.isRow u m f := by
  rw [← countWhere_pos, ← countWhere_pos, count_setSharedStatus _ _ _ _ _ fun _ _ => rfl]

theorem Ledger.no_shares (h : Ledger d)
    (hn : ∀ r ∈ d.userFileCount, r.ofUser shareCountKey = false) : d.shareFileList = 0 :=
  Multiset.card_eq_zero.mp (h.counter.of_none hn)

theorem Ledger.card_unshared (h : Ledger d) (hs : Shared d user md5 filename) :
    Multiset.card (deleteWhere (DiskState.ShareFile.isRow user md5 filename) d.shareFileList) + 1 =
      Multiset.card d.shareFileList := by
  have hle := h.once user md5 filename
  have hpos := countWhere_pos.mpr hs
  have hcard := card_deleteWhere (p := DiskState.ShareFile.isRow user md5 filename)
    (t := d.shareFileList)
  omega

theorem exists_unshared {t : Multiset DiskState.ShareFile} {u m f : CString} :
    (∃ s ∈ deleteWhere (DiskState.ShareFile.isRow user md5 filename) t, s.isRow u m f) ↔
      (∃ s ∈ t, s.isRow u m f) ∧ ¬ (u = user ∧ m = md5 ∧ f = filename) := by
  constructor
  · rintro ⟨s, hs, hrow⟩
    obtain ⟨hs, hno⟩ := mem_deleteWhere.mp hs
    refine ⟨⟨s, hs, hrow⟩, ?_⟩
    rintro ⟨rfl, rfl, rfl⟩
    simp [hrow] at hno
  · rintro ⟨⟨s, hs, hrow⟩, hne⟩
    refine ⟨s, mem_deleteWhere.mpr ⟨hs, ?_⟩, hrow⟩
    obtain ⟨rfl, rfl, rfl⟩ := shareRow_iff.mp hrow
    simpa [DiskState.ShareFile.isRow] using hne

end Rows

section Steps
variable {now user md5 filename : CString} {d : Disk} {t : Multiset UserCount}

theorem Ledger.redis (h : Ledger d) (redis : Redis) : Ledger { d with redis } :=
  ⟨h.once, h.listed, h.status, h.counter, h.users⟩

theorem Ledger.users_frame (h : Ledger d) {d' : Disk}
    (hown : ∀ u, owned d' u ≤ owned d u)
    (hcount : ∀ u, u ≠ shareCountKey → rowsWhere (UserCount.ofUser u) d'.userFileCount =
      rowsWhere (UserCount.ofUser u) d.userFileCount) :
    ∀ u, u ≠ shareCountKey → ∃ n, owned d' u ≤ n ∧
      Tallied (UserCount.ofUser u) UserCount.count d'.userFileCount n := by
  intro u hu
  obtain ⟨n, hn, ht⟩ := h.users u hu
  exact ⟨n, (hown u).trans hn, ht.frame (hcount u hu)⟩

theorem shared_addShare {u m f : CString} : Shared (addShare now user md5 filename d t) u m f ↔
    (u = user ∧ m = md5 ∧ f = filename) ∨ Shared d u m f := by
  constructor
  · rintro ⟨s, hs, hsr⟩
    rcases Multiset.mem_cons.mp hs with rfl | hs
    · obtain ⟨rfl, rfl, rfl⟩ := shareRow_iff.mp hsr
      exact Or.inl ⟨rfl, rfl, rfl⟩
    · exact Or.inr ⟨s, hs, hsr⟩
  · rintro (⟨rfl, rfl, rfl⟩ | ⟨s, hs, hsr⟩)
    · exact ⟨_, Multiset.mem_cons_self _ _, shareRow_iff.mpr ⟨rfl, rfl, rfl⟩⟩
    · exact ⟨s, Multiset.mem_cons_of_mem hs, hsr⟩

theorem Ledger.addShare (h : Ledger d) (hrow : ∃ r ∈ d.userFileList, r.isRow user md5 filename)
    (hn : ∀ s ∈ d.shareFileList, s.isNamed md5 filename = false)
    (ht : Raised shareCountKey d.userFileCount t) :
    Ledger (addShare now user md5 filename d t) := by
  have hnew : ∀ u, countWhere (DiskState.ShareFile.isRow u md5 filename) d.shareFileList = 0 := by
    intro u
    apply countWhere_eq_zero.mpr
    intro s hs
    by_contra hs'
    have hnamed := shareRow_named (by simpa using hs')
    simp [hn s hs] at hnamed
  constructor
  · intro u m f
    change countWhere _ (_ ::ₘ _) ≤ 1
    rw [countWhere_cons]
    have hle := h.once u m f
    by_cases heq : user = u ∧ md5 = m ∧ filename = f
    · obtain ⟨rfl, rfl, rfl⟩ := heq
      have := hnew user
      split <;> omega
    · simpa [DiskState.ShareFile.isRow, heq] using hle
  · intro u m f hs
    apply exists_setSharedStatus.mpr
    rcases shared_addShare.mp hs with ⟨rfl, rfl, rfl⟩ | hs
    · exact hrow
    · exact h.listed u m f hs
  · intro r hr
    rw [shared_addShare]
    rcases mem_setSharedStatus.mp hr with ⟨s, hs, hsr, rfl⟩ | ⟨hr, hno⟩
    · simp [userRow_iff.mp hsr]
    · have hne : ¬ (r.user = user ∧ r.md5 = md5 ∧ r.filename = filename) := by
        simpa [UserFile.isRow] using hno
      simp [h.status r hr, hne]
  · change Counted _ _ t (Multiset.card (_ ::ₘ _))
    rw [Multiset.card_cons]
    exact ht.counted h.counter
  · refine h.users_frame (fun u => ?_) fun u hu => ht.frame hu
    exact (count_setSharedStatus _ _ _ _ _ (fun _ _ => rfl) _).le

theorem Ledger.dropShare (h : Ledger d) (hs : Shared d user md5 filename)
    (ht : Lowered shareCountKey d.userFileCount t) :
    Ledger (dropShare user md5 filename d t) := by
  constructor
  · intro u m f
    exact countWhere_delete_le.trans (h.once u m f)
  · intro u m f hs'
    exact exists_setSharedStatus.mpr (h.listed u m f (exists_unshared.mp hs').1)
  · intro r hr
    refine Iff.trans ?_ exists_unshared.symm
    rcases mem_setSharedStatus.mp hr with ⟨s, hs, hsr, rfl⟩ | ⟨hr, hno⟩
    · simp [userRow_iff.mp hsr]
    · have hne : ¬ (r.user = user ∧ r.md5 = md5 ∧ r.filename = filename) := by
        simpa [UserFile.isRow] using hno
      rw [h.status r hr]
      exact ⟨fun h => ⟨h, hne⟩, fun h => h.1⟩
  · have hcounter := h.counter
    rw [← h.card_unshared hs] at hcounter
    exact ht.counted hcounter
  · refine h.users_frame (fun u => ?_) fun u hu => ht.frame hu
    exact (count_setSharedStatus _ _ _ _ _ (fun _ _ => rfl) _).le

/-- Without a counter row nothing is shared, and taking the status back changes nothing
that matters. -/
theorem Ledger.clearStatus (h : Ledger d)
    (hn : ∀ r ∈ d.userFileCount, r.ofUser shareCountKey = false) :
    Ledger { d with userFileList := setSharedStatus user md5 filename 0 d.userFileList } := by
  have hnone := h.no_shares hn
  refine ⟨h.once, ?_, ?_, h.counter, h.users_frame (fun u => ?_) fun _ _ => rfl⟩
  · intro u m f hs
    exact exists_setSharedStatus.mpr (h.listed u m f hs)
  · intro r hr
    have hno : ¬ Shared d r.user r.md5 r.filename := by simp [Shared, hnone]
    rcases mem_setSharedStatus.mp hr with ⟨s, hs, -, rfl⟩ | ⟨hr, -⟩
    · exact ⟨fun h => absurd h (by simp), fun h => absurd h hno⟩
    · exact h.status r hr
  · exact (count_setSharedStatus _ _ _ _ _ (fun _ _ => rfl) _).le

theorem Ledger.addRow (h : Ledger d) {files : Multiset FileInfo} {storage : Finset CString}
    (hkey : user ≠ shareCountKey) (hn : ¬ Shared d user md5 filename)
    (ht : Raised user d.userFileCount t) :
    Ledger (addReference now user md5 filename { d with storage } files t) := by
  refine ⟨h.once, ?_, ?_, h.counter.frame (ht.frame hkey.symm), ?_⟩
  · intro u m f hs
    obtain ⟨r, hr, hrow⟩ := h.listed u m f hs
    exact ⟨r, Multiset.mem_cons_of_mem hr, hrow⟩
  · intro r hr
    rcases Multiset.mem_cons.mp hr with rfl | hr
    · exact ⟨fun h => absurd h (by simp), fun h => absurd h hn⟩
    · exact h.status r hr
  · intro u hu
    obtain ⟨n, hle, htally⟩ := h.users u hu
    have hown : owned (addReference now user md5 filename { d with storage } files t) u =
        owned d u + if u = user then 1 else 0 := by
      simp [owned, HandlerEffects.addReference, ownedBy, eq_comm]
    rw [hown]
    by_cases hne : u = user
    · rw [if_pos hne]
      subst hne
      exact ⟨n + 1, by omega, ht.tallied htally⟩
    · rw [if_neg hne]
      exact ⟨n, hle, htally.frame (ht.frame hne)⟩

/-- Between the two halves of `del_file` the row still says that it is shared. -/
structure Unlisted (user md5 filename : CString) (d : Disk) : Prop where
  once : ∀ u m f, countWhere (DiskState.ShareFile.isRow u m f) d.shareFileList ≤ 1
  listed : ∀ u m f, Shared d u m f → ∃ r ∈ d.userFileList, r.isRow u m f
  status : ∀ r ∈ d.userFileList, r.isRow user md5 filename = false →
    (r.sharedStatus = 1 ↔ Shared d r.user r.md5 r.filename)
  gone : ¬ Shared d user md5 filename
  counter : Counted (UserCount.ofUser shareCountKey) UserCount.count d.userFileCount
    (Multiset.card d.shareFileList)
  users : ∀ u, u ≠ shareCountKey → ∃ n, owned d u ≤ n ∧
    Tallied (UserCount.ofUser u) UserCount.count d.userFileCount n

theorem Ledger.unlisted (h : Ledger d) (hn : ¬ Shared d user md5 filename) :
    Unlisted user md5 filename d :=
  ⟨h.once, h.listed, fun r hr _ => h.status r hr, hn, h.counter, h.users⟩

theorem Ledger.unlist (h : Ledger d) (hs : Shared d user md5 filename) {r : UserCount}
    (hr : r ∈ d.userFileCount) (hu : r.ofUser shareCountKey) (redis : Redis) :
    Unlisted user md5 filename
      { d with
        shareFileList := deleteWhere (DiskState.ShareFile.isRow user md5 filename) d.shareFileList
        userFileCount := updateWhere (UserCount.ofUser shareCountKey)
          (fun s => { s with count := r.count - 1 }) d.userFileCount
        redis } := by
  constructor
  · intro u m f
    exact countWhere_delete_le.trans (h.once u m f)
  · intro u m f hs'
    exact h.listed u m f (exists_unshared.mp hs').1
  · intro q hq hno
    refine Iff.trans ?_ exists_unshared.symm
    have hne : ¬ (q.user = user ∧ q.md5 = md5 ∧ q.filename = filename) := by
      simpa [UserFile.isRow] using hno
    rw [h.status q hq]
    exact ⟨fun h => ⟨h, hne⟩, fun h => h.1⟩
  · intro hs'
    exact (exists_unshared.mp hs').2 ⟨rfl, rfl, rfl⟩
  · have hcount := (h.counter.of_mem hr hu).2
    have hcard := h.card_unshared hs
    refine h.counter.update hr hu (fun _ => rfl) fun _ => ?_
    change r.count - 1 = (Multiset.card (deleteWhere _ d.shareFileList) : ℤ)
    omega
  · refine h.users_frame (fun _ => le_rfl) fun u hne => ?_
    exact rowsWhere_update_of_disjoint fun s hs =>
      ⟨ofUser_other hne s hs, ofUser_other hne s hs⟩

theorem Unlisted.counted (h : Unlisted user md5 filename d) (hkey : user ≠ shareCountKey)
    (hrow : ∃ r ∈ d.userFileList, r.isRow user md5 filename) :
    ∃ r ∈ d.userFileCount, r.ofUser user := by
  obtain ⟨n, hle, ht⟩ := h.users user hkey
  obtain ⟨r, hr, hu⟩ := hrow
  have hpos : 0 < owned d user := countWhere_pos.mpr ⟨r, hr, isRow_ownedBy r hu⟩
  exact ht.exists_mem (by omega)

theorem Unlisted.dropRow (h : Unlisted user md5 filename d) (hkey : user ≠ shareCountKey)
    (hrow : ∃ r ∈ d.userFileList, r.isRow user md5 filename)
    (ht : Lowered user d.userFileCount t) :
    Ledger (dropUserFile user md5 filename t d) := by
  refine ⟨h.once, ?_, ?_, h.counter.frame (ht.frame hkey.symm), ?_⟩
  · intro u m f hs
    obtain ⟨r, hr, hrow⟩ := h.listed u m f hs
    refine ⟨r, mem_deleteWhere.mpr ⟨hr, ?_⟩, hrow⟩
    by_contra hthis
    obtain ⟨rfl, rfl, rfl⟩ := userRow_iff.mp hrow
    obtain ⟨rfl, rfl, rfl⟩ := userRow_iff.mp (by simpa using hthis)
    exact h.gone hs
  · intro r hr
    obtain ⟨hr, hno⟩ := mem_deleteWhere.mp hr
    exact h.status r hr hno
  · intro u hu
    obtain ⟨n, hle, hn⟩ := h.users u hu
    by_cases hne : u = user
    · subst hne
      have himp : ∀ r, UserFile.isRow u md5 filename r → ownedBy u r := isRow_ownedBy
      have hown := countWhere_delete_of_imp (t := d.userFileList) himp
      have hpos := countWhere_pos.mpr hrow
      have hle : countWhere (ownedBy u) d.userFileList ≤ n := hle
      obtain ⟨k, rfl⟩ : ∃ k, n = k + 1 := ⟨n - 1, by omega⟩
      refine ⟨k, ?_, ht.tallied hn⟩
      change countWhere _ (deleteWhere _ _) ≤ k
      omega
    · exact ⟨n, countWhere_delete_le.trans hle, hn.frame (ht.frame hne)⟩

theorem Ledger.released (h : Ledger d) {b : Bool} {e : Disk} (hr : Released md5 d b e) :
    Ledger e := by
  cases hr <;> exact ⟨h.once, h.listed, h.status, h.counter, h.users⟩

end Steps

/-- What a caller must respect for the three records to stay in step: nobody is called
like the share counter, only owned files are shared, uploaded once and deleted, and only
shared files are withdrawn. A deletion counts as a withdrawal when the cache lists the
same content under the same name, whoever shared it. -/
def Allowed (d : Disk) : Call → Prop
  | .upload _ user md5 filename _ _ _ =>
    user ≠ shareCountKey ∧ ¬ Shared d user md5 filename
  | .dealMd5 _ user _ _ => user ≠ shareCountKey
  | .saveFile _ user _ _ => user ≠ shareCountKey
  | .shareFile _ user md5 filename =>
    zsetExit d (md5 ++ filename) = 0 → (∀ s ∈ d.shareFileList, s.isNamed md5 filename = false) →
      ∃ r ∈ d.userFileList, r.isRow user md5 filename
  | .cancelShareFile user md5 filename =>
    Shared d user md5 filename ∨ ∀ r ∈ d.userFileCount, r.ofUser shareCountKey = false
  | .delFile user md5 filename =>
    user ≠ shareCountKey ∧ (∃ r ∈ d.userFileList, r.isRow user md5 filename) ∧
      (zsetExit d (md5 ++ filename) = 1 → Shared d user md5 filename ∨
        ∀ r ∈ d.userFileCount, r.ofUser shareCountKey = false)

section Calls
variable {now user md5 filename : CString} {d d' : Disk} {n : ℤ}

theorem ledger_shareFile (h : Ledger d)
    (ha : Allowed d (.shareFile now user md5 filename))
    (he : HandlerEffects.ShareFile now user md5 filename d n d') : Ledger d' := by
  cases he with
  | already _ => exact h
  | confused _ _ => exact h
  | readded _ r _ _ k => exact h.redis _
  | shared hz hn t ht k l => exact ((h.addShare (ha hz hn) hn ht).redis _).redis _

theorem ledger_cancelShareFile (h : Ledger d)
    (ha : Allowed d (.cancelShareFile user md5 filename))
    (he : CancelShareFile user md5 filename d n d') : Ledger d' := by
  have hdrop : ∀ t, Lowered shareCountKey d.userFileCount t →
      Ledger (HandlerEffects.dropShare user md5 filename d t) := by
    intro t ht
    rcases ha with hs | hn
    · exact h.dropShare hs ht
    · cases ht with
      | last r hr hu _ => simp [hn r hr] at hu
      | less r hr hu _ => simp [hn r hr] at hu
  cases he with
  | uncounted hn => exact h.clearStatus hn
  | uncached t ht k m hm => exact (hdrop t ht).redis _
  | cancelled t ht k l m => exact ((hdrop t ht).redis _).redis _

theorem shared_of_mark (h : Ledger d) (ha : Allowed d (.delFile user md5 filename))
    {flag : Bool} (hm : ShareMark user md5 filename d (some (1, flag))) {r : UserCount}
    (hr : r ∈ d.userFileCount) (hu : r.ofUser shareCountKey) : Shared d user md5 filename := by
  generalize ho : some ((1 : ℤ), flag) = o at hm
  cases hm with
  | listed hz =>
    rcases ha.2.2 hz with hs | hn
    · exact hs
    · simp [hn r hr] at hu
  | status hz s hs hsr =>
    have hone : s.sharedStatus = 1 := by simp at ho; exact ho.1.symm
    obtain ⟨rfl, rfl, rfl⟩ := userRow_iff.mp hsr
    exact (h.status s hs).mp hone
  | absent _ _ => simp at ho
  | confused _ _ => simp at ho

theorem not_shared_of_mark (h : Ledger d)
    (hrow : ∃ r ∈ d.userFileList, r.isRow user md5 filename) {share : ℤ} {flag : Bool}
    (hm : ShareMark user md5 filename d (some (share, flag))) (h1 : share ≠ 1) :
    ¬ Shared d user md5 filename := by
  cases hm with
  | listed hz => exact absurd rfl h1
  | status hz s hs hsr =>
    obtain ⟨rfl, rfl, rfl⟩ := userRow_iff.mp hsr
    exact fun hshared => h1 ((h.status s hs).mpr hshared)
  | absent _ hn =>
    obtain ⟨r, hr, hu⟩ := hrow
    simp [hn r hr] at hu

theorem unlisted_cleared (h : Ledger d) (ha : Allowed d (.delFile user md5 filename))
    (hc : Cleared user md5 filename d d') :
    Unlisted user md5 filename d' ∧ d'.userFileList = d.userFileList := by
  cases hc with
  | unshared share flag hm h1 => exact ⟨h.unlisted (not_shared_of_mark h ha.2.1 hm h1), rfl⟩
  | shared flag hm _ hu =>
    cases hu with
    | counted r hr hkey redis hs =>
      exact ⟨h.unlist (shared_of_mark h ha hm hr hkey) hr hkey redis, rfl⟩

theorem ledger_delFile (h : Ledger d) (ha : Allowed d (.delFile user md5 filename))
    (he : DelFile user md5 filename d n d') : Ledger d' := by
  cases he with
  | confused _ => exact h
  | stuck flag _ _ hu =>
    cases hu with
    | uncounted hn =>
      have hnone : deleteWhere (DiskState.ShareFile.isRow user md5 filename) d.shareFileList =
          d.shareFileList := by simp [h.no_shares hn, deleteWhere]
      rw [hnone]
      exact h
  | uncounted _ hc hn =>
    obtain ⟨hu, hlist⟩ := unlisted_cleared h ha hc
    obtain ⟨r, hr, huser⟩ := hu.counted ha.1 (hlist ▸ ha.2.1)
    simp [hn r hr] at huser
  | deleted e hc t ht b _ hr =>
    obtain ⟨hu, hlist⟩ := unlisted_cleared h ha hc
    exact (hu.dropRow ha.1 (hlist ▸ ha.2.1) ht).released hr

theorem ledger_call {c : Call} (h : Ledger d) (ha : Allowed d c)
    (he : c.Effect (c.arrive d) n d') : Ledger d' := by
  cases c with
  | upload now user md5 filename size fileid url =>
    cases he with
    | stored t ht => exact h.addRow ha.1 ha.2 ht
  | dealMd5 now user md5 filename =>
    cases he with
    | unknown _ => exact h
    | owned _ _ _ => exact h
    | added r hr hm hn t ht =>
      refine h.addRow ha (fun hs => ?_) ht
      obtain ⟨s, hs, hsr⟩ := h.listed _ _ _ hs
      simp [hn s hs] at hsr
  | saveFile now user md5 filename =>
    cases he with
    | owned _ _ _ => exact h
    | unknown _ => exact h
    | added r hr hm hn t ht =>
      refine h.addRow ha (fun hs => ?_) ht
      obtain ⟨s, hs, hsr⟩ := h.listed _ _ _ hs
      simp [hn s hs] at hsr
  | shareFile now user md5 filename => exact ledger_shareFile h ha he
  | cancelShareFile user md5 filename => exact ledger_cancelShareFile h ha he
  | delFile user md5 filename => exact ledger_delFile h ha he

end Calls

structure SharesAgree (d : Disk) : Prop where
  once : ∀ user md5 filename,
    countWhere (DiskState.ShareFile.isRow user md5 filename) d.shareFileList ≤ 1
  status : ∀ user md5 filename, Shared d user md5 filename ↔
    ∃ r ∈ d.userFileList, r.isRow user md5 filename ∧ r.sharedStatus = 1
  counted : ∀ r ∈ d.userFileCount, r.user = shareCountKey →
    r.count = Multiset.card d.shareFileList
  absent : (∀ r ∈ d.userFileCount, r.user ≠ shareCountKey) → d.shareFileList = 0

theorem Ledger.agree {d : Disk} (h : Ledger d) : SharesAgree d := by
  constructor
  · exact h.once
  · intro user md5 filename
    constructor
    · intro hs
      obtain ⟨r, hr, hrow⟩ := h.listed user md5 filename hs
      obtain ⟨rfl, rfl, rfl⟩ := userRow_iff.mp hrow
      exact ⟨r, hr, hrow, (h.status r hr).mpr hs⟩
    · rintro ⟨r, hr, hrow, hone⟩
      obtain ⟨rfl, rfl, rfl⟩ := userRow_iff.mp hrow
      exact (h.status r hr).mp hone
  · intro r hr hkey
    exact (h.counter.of_mem hr (by simp [UserCount.ofUser, hkey])).2
  · intro hn
    exact h.no_shares fun r hr => by simpa [UserCount.ofUser] using hn r hr

theorem shares_agree_reachable {d : Disk} (h : Reachable NoFail Allowed d) : SharesAgree d :=
  have hledger : Ledger d :=
    reachable_effects (fun _ => ledger_empty) (fun _ _ hd ha _ _ he => ledger_call hd ha he) h
  hledger.agree

theorem shares_agree_one_share : ∃ d, Reachable NoFail Allowed d ∧
    Multiset.card d.shareFileList = 1 ∧ SharesAgree d := by
  have hok : ∀ _ : ℕ, NoFail (.ok 0) := fun _ => by simp [NoFail]
  have h0 : Reachable NoFail Allowed emptyDisk := .start _ emptyDisk_tables
  have h1 := h0.call _ (.upload [] [97] [1] [102] 9 [7] []) (fun _ => .ok 0)
    ⟨by decide, by simp [Shared, emptyDisk]⟩ hok
  have h2 := h1.call _ (.shareFile [] [97] [1] [102]) (fun _ => .ok 0)
    (fun _ _ => ⟨⟨[97], [1], [], [102], 0, 0⟩, by decide, by decide⟩) hok
  exact ⟨_, h2, by decide, shares_agree_reachable h2⟩

/-- Somebody withdraws a share that is not theirs: nothing of theirs changes, but the
share counter goes down with the share still listed. -/
theorem shares_disagree_foreign_cancel :
    ∃ d, Reachable NoFail (fun _ _ => True) d ∧ ¬ SharesAgree d := by
  have hok : ∀ _ : ℕ, NoFail (.ok 0) := fun _ => by simp [NoFail]
  have h0 : Reachable NoFail (fun _ _ => True) emptyDisk := .start _ emptyDisk_tables
  have h1 := h0.call _ (.upload [] [97] [1] [102] 9 [7] []) (fun _ => .ok 0) trivial hok
  have h2 := h1.call _ (.shareFile [] [97] [1] [102]) (fun _ => .ok 0) trivial hok
  have h3 := h2.call _ (.cancelShareFile [98] [1] [102]) (fun _ => .ok 0) trivial hok
  refine ⟨_, h3, fun hagree => ?_⟩
  have hnone := hagree.absent (by
    intro r hr
    rw [show Disk.userFileCount _ = {⟨[97], 1⟩} by decide, Multiset.mem_singleton] at hr
    rw [hr]
    decide)
  exact absurd hnone (by decide)

end ShareLedger
