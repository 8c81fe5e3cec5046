import CloudDisk.DiskCalls

/-! # Reference counts while nothing fails

`file_info.count`, `user_file_count.count` and the storage are redundant with
`user_file_list`. The invariant ties them together; no table has a key constraint, so
that a key has one row is part of the invariant. The row of the share count lives among
the rows of the users and is exempt. -/
namespace ReferenceCounts

open ByteStrings CommandPrograms RowTables DiskState HandlerRules HandlerEffects DiskCalls

def refersTo (md5 : CString) (r : UserFile) : Bool := r.md5 = md5

def ownedBy (user : CString) (r : UserFile) : Bool := r.user = user

def references (d : Disk) (md5 : CString) : ℕ := countWhere (refersTo md5) d.userFileList

def owned (d : Disk) (user : CString) : ℕ := countWhere (ownedBy user) d.userFileList

structure Exact (d : Disk) : Prop where
  files : ∀ md5, Tallied (FileInfo.hasMd5 md5) FileInfo.count d.fileInfo (references d md5)
  stored : ∀ r ∈ d.fileInfo, r.fileId ∈ d.storage
  separate : ∀ r ∈ d.fileInfo, ∀ s ∈ d.fileInfo, r.fileId = s.fileId → r.md5 = s.md5
  users : ∀ user, user ≠ shareCountKey →
    Tallied (UserCount.ofUser user) UserCount.count d.userFileCount (owned d user)
  triples : ∀ user md5 filename,
    countWhere (UserFile.isRow user md5 filename) d.userFileList ≤ 1

/-- The part of the invariant that is about the tables only. -/
structure Tallies (d : Disk) : Prop where
  files : ∀ md5, Tallied (FileInfo.hasMd5 md5) FileInfo.count d.fileInfo (references d md5)
  users : ∀ user, user ≠ shareCountKey →
    Tallied (UserCount.ofUser user) UserCount.count d.userFileCount (owned d user)
  triples : ∀ user md5 filename,
    countWhere (UserFile.isRow user md5 filename) d.userFileList ≤ 1

theorem Exact.tallies {d : Disk} (h : Exact d) : Tallies d := ⟨h.files, h.users, h.triples⟩

theorem Tallies.exact {d : Disk} (h : Tallies d) (hstored : ∀ r ∈ d.fileInfo, r.fileId ∈ d.storage)
    (hseparate : ∀ r ∈ d.fileInfo, ∀ s ∈ d.fileInfo, r.fileId = s.fileId → r.md5 = s.md5) :
    Exact d :=
  ⟨h.files, hstored, hseparate, h.users, h.triples⟩

theorem tallies_empty {d : Disk} (h : TablesEmpty d) : Tallies d := by
  obtain ⟨hf, hl, -, hc⟩ := h
  constructor
  · intro md5
    rw [references, hl, hf]
    exact tallied_none (by simp)
  · intro user _
    rw [owned, hl, hc]
    exact tallied_none (by simp)
  · simp [hl]

theorem exact_empty {d : Disk} (h : TablesEmpty d) : Exact d :=
  (tallies_empty h).exact (by simp [h.fileInfo]) (by simp [h.fileInfo])

section Frame
variable {d d' : Disk}

/-- The files and who lists them, up to the status column. -/
structure SameFiles (d d' : Disk) : Prop where
  fileInfo : d'.fileInfo = d.fileInfo
  storage : d'.storage = d.storage
  rows : ∀ p : UserFile → Bool, (∀ r n, p { r with sharedStatus := n } = p r) →
    countWhere p d'.userFileList = countWhere p d.userFileList

theorem SameFiles.refl (d : Disk) : SameFiles d d := ⟨rfl, rfl, fun _ _ => rfl⟩

theorem SameFiles.trans {d'' : Disk} (h : SameFiles d d') (h' : SameFiles d' d'') :
    SameFiles d d'' :=
  ⟨h'.fileInfo.trans h.fileInfo, h'.storage.trans h.storage,
    fun p hp => (h'.rows p hp).trans (h.rows p hp)⟩

theorem SameFiles.references (h : SameFiles d d') (md5 : CString) :
    references d' md5 = references d md5 := h.rows _ fun _ _ => rfl

theorem SameFiles.isRow (h : SameFiles d d') {user md5 filename : CString}
    (hr : ∃ r ∈ d.userFileList, r.isRow user md5 filename) :
    ∃ r ∈ d'.userFileList, r.isRow user md5 filename := by
  rw [← countWhere_pos] at hr ⊢
  rw [h.rows _ fun _ _ => rfl]
  exact hr

/-- What sharing may change: the status column, the share list, the row of the share
count and the cache. -/
structure SharesOnly (d d' : Disk) : Prop extends SameFiles d d' where
  counts : ∀ user, user ≠ shareCountKey →
    rowsWhere (UserCount.ofUser user) d'.userFileCount =
      rowsWhere (UserCount.ofUser user) d.userFileCount

theorem Tallies.sharesOnly (h : Tallies d) (hs : SharesOnly d d') : Tallies d' := by
  have hown : ∀ user, owned d' user = owned d user := fun user => hs.rows _ fun _ _ => rfl
  constructor
  · intro md5
    rw [hs.toSameFiles.references, hs.fileInfo]
    exact h.files md5
  · intro user hu
    rw [hown]
    exact (h.users user hu).frame (hs.counts user hu)
  · intro user md5 filename
    rw [hs.rows _ fun _ _ => rfl]
    exact h.triples user md5 filename

theorem Exact.sharesOnly (h : Exact d) (hs : SharesOnly d d') : Exact d' := by
  apply (h.tallies.sharesOnly hs).exact
  · rw [hs.fileInfo, hs.storage]
    exact h.stored
  · rw [hs.fileInfo]
    exact h.separate

theorem count_setSharedStatus (user md5 filename : CString) (n : ℤ)
    (p : UserFile → Bool) (hp : ∀ r n, p { r with sharedStatus := n } = p r)
    (t : Multiset UserFile) :
    countWhere p (setSharedStatus user md5 filename n t) = countWhere p t :=
  countWhere_update fun r _ => hp r n

theorem shareFile_sharesOnly {now user md5 filename : CString} {n : ℤ}
    (h : HandlerEffects.ShareFile now user md5 filename d n d') : SharesOnly d d' := by
  cases h with
  | already _ => exact ⟨⟨rfl, rfl, fun _ _ => rfl⟩, fun _ _ => rfl⟩
  | confused _ _ => exact ⟨⟨rfl, rfl, fun _ _ => rfl⟩, fun _ _ => rfl⟩
  | readded _ r _ _ k => exact ⟨⟨rfl, rfl, fun _ _ => rfl⟩, fun _ _ => rfl⟩
  | shared _ _ t ht k l =>
    exact ⟨⟨rfl, rfl, fun p hp => count_setSharedStatus user md5 filename 1 p hp _⟩,
      fun _ hu => ht.frame hu⟩

theorem cancelShareFile_sharesOnly {user md5 filename : CString} {n : ℤ}
    (h : CancelShareFile user md5 filename d n d') : SharesOnly d d' := by
  cases h with
  | uncounted _ =>
    exact ⟨⟨rfl, rfl, fun p hp => count_setSharedStatus user md5 filename 0 p hp _⟩,
      fun _ _ => rfl⟩
  | uncached t ht k n hn =>
    exact ⟨⟨rfl, rfl, fun p hp => count_setSharedStatus user md5 filename 0 p hp _⟩,
      fun _ hu => ht.frame hu⟩
  | cancelled t ht k l n =>
    exact ⟨⟨rfl, rfl, fun p hp => count_setSharedStatus user md5 filename 0 p hp _⟩,
      fun _ hu => ht.frame hu⟩

theorem unshared_sharesOnly {user md5 filename : CString} {flag b : Bool}
    (h : Unshared user md5 filename flag d b d') : SharesOnly d d' := by
  cases h with
  | uncounted _ => exact ⟨⟨rfl, rfl, fun _ _ => rfl⟩, fun _ _ => rfl⟩
  | counted r hr hu redis hs =>
    refine ⟨⟨rfl, rfl, fun _ _ => rfl⟩, fun user hne => ?_⟩
    exact rowsWhere_update_of_disjoint fun s hs =>
      ⟨ofUser_other hne s hs, ofUser_other hne s hs⟩

theorem cleared_sharesOnly {user md5 filename : CString}
    (h : Cleared user md5 filename d d') :
    SharesOnly d d' ∧ d'.userFileList = d.userFileList := by
  cases h with
  | unshared share flag _ _ => exact ⟨⟨⟨rfl, rfl, fun _ _ => rfl⟩, fun _ _ => rfl⟩, rfl⟩
  | shared flag _ _ hu => exact ⟨unshared_sharesOnly hu, by cases hu; rfl⟩

end Frame

section Rows
variable {user md5 filename other : CString}

theorem isRow_refersTo (r : UserFile) (h : r.isRow user md5 filename) : refersTo md5 r := by
  simp only [UserFile.isRow, decide_eq_true_eq] at h
  simp [refersTo, h]

theorem isRow_ownedBy (r : UserFile) (h : r.isRow user md5 filename) : ownedBy user r := by
  simp only [UserFile.isRow, decide_eq_true_eq] at h
  simp [ownedBy, h]

theorem isRow_refersTo_other (hne : other ≠ md5) (r : UserFile)
    (h : r.isRow user md5 filename) : refersTo other r = false := by
  simp only [UserFile.isRow, decide_eq_true_eq] at h
  simpa [refersTo, h] using hne.symm

theorem isRow_ownedBy_other (hne : other ≠ user) (r : UserFile)
    (h : r.isRow user md5 filename) : ownedBy other r = false := by
  simp only [UserFile.isRow, decide_eq_true_eq] at h
  simpa [ownedBy, h] using hne.symm

theorem hasMd5_other (hne : other ≠ md5) (r : FileInfo) (h : r.hasMd5 md5) :
    r.hasMd5 other = false := by
  simp only [FileInfo.hasMd5, decide_eq_true_eq, decide_eq_false_iff_not] at h ⊢
  rw [h]
  exact hne.symm

theorem setFileCount_frame {n : ℤ} {files : Multiset FileInfo} (hne : other ≠ md5) :
    rowsWhere (FileInfo.hasMd5 other) (setFileCount md5 n files) =
      rowsWhere (FileInfo.hasMd5 other) files :=
  rowsWhere_update_of_disjoint fun r hr => ⟨hasMd5_other hne r hr, hasMd5_other hne r hr⟩

end Rows

section Steps
variable {now user md5 filename : CString} {d : Disk} {t : Multiset UserCount}

/-- A table of files that differs from the present one by one reference to `md5`. -/
structure OneMore (d : Disk) (md5 : CString) (files : Multiset FileInfo) : Prop where
  tally : Tallied (FileInfo.hasMd5 md5) FileInfo.count files (references d md5 + 1)
  others : ∀ other, other ≠ md5 →
    rowsWhere (FileInfo.hasMd5 other) files = rowsWhere (FileInfo.hasMd5 other) d.fileInfo
  stored : ∀ r ∈ files, r.fileId ∈ d.storage
  separate : ∀ r ∈ files, ∀ s ∈ files, r.fileId = s.fileId → r.md5 = s.md5

theorem Tallies.raised_tally (h : Tallies d) {r : FileInfo} (hr : r ∈ d.fileInfo)
    (hm : r.hasMd5 md5) : Tallied (FileInfo.hasMd5 md5) FileInfo.count
      (setFileCount md5 (r.count + 1) d.fileInfo) (references d md5 + 1) := by
  obtain ⟨-, hc, hpos⟩ := (h.files md5).of_mem hr hm
  exact (h.files md5).update hpos (Nat.succ_pos _) (fun _ => rfl) fun _ => by simp [hc]

theorem Exact.stored_setFileCount (h : Exact d) {n : ℤ} {r : FileInfo}
    (hr : r ∈ setFileCount md5 n d.fileInfo) : r.fileId ∈ d.storage := by
  obtain ⟨s, hs, m, rfl, -⟩ := mem_setFileCount hr
  exact h.stored s hs

theorem Exact.separate_setFileCount (h : Exact d) {n : ℤ} {r s : FileInfo}
    (hr : r ∈ setFileCount md5 n d.fileInfo) (hs : s ∈ setFileCount md5 n d.fileInfo)
    (heq : r.fileId = s.fileId) : r.md5 = s.md5 := by
  obtain ⟨r', hr', m, rfl, -⟩ := mem_setFileCount hr
  obtain ⟨s', hs', m', rfl, -⟩ := mem_setFileCount hs
  exact h.separate r' hr' s' hs' heq

theorem Exact.oneMore_setFileCount (h : Exact d) {r : FileInfo} (hr : r ∈ d.fileInfo)
    (hm : r.hasMd5 md5) : OneMore d md5 (setFileCount md5 (r.count + 1) d.fileInfo) := by
  constructor
  · exact h.tallies.raised_tally hr hm
  · exact fun other hne => setFileCount_frame hne
  · exact fun s hs => h.stored_setFileCount hs
  · exact fun s hs q hq => h.separate_setFileCount hs hq

theorem references_addReference (files : Multiset FileInfo) (other : CString) :
    references (addReference now user md5 filename d files t) other =
      references d other + if other = md5 then 1 else 0 := by
  simp [references, addReference, refersTo, eq_comm]

theorem Tallies.addReference (h : Tallies d) {files : Multiset FileInfo}
    (htally : Tallied (FileInfo.hasMd5 md5) FileInfo.count files (references d md5 + 1))
    (hothers : ∀ other, other ≠ md5 →
      rowsWhere (FileInfo.hasMd5 other) files = rowsWhere (FileInfo.hasMd5 other) d.fileInfo)
    (hn : ∀ s ∈ d.userFileList, s.isRow user md5 filename = false)
    (ht : Raised user d.userFileCount t) :
    Tallies (addReference now user md5 filename d files t) := by
  constructor
  · intro other
    rw [references_addReference]
    by_cases hne : other = md5
    · rw [if_pos hne, hne]
      exact htally
    · rw [if_neg hne]
      exact (h.files other).frame (hothers other hne)
  · intro other hkey
    by_cases hne : other = user
    · subst hne
      simpa [owned, HandlerEffects.addReference, ownedBy] using ht.tallied (h.users other hkey)
    · have hown : owned (HandlerEffects.addReference now user md5 filename d files t) other =
          owned d other := by
        simp [owned, HandlerEffects.addReference, ownedBy, Ne.symm hne]
      rw [hown]
      exact (h.users other hkey).frame (ht.frame hne)
  · intro u m f
    have hle := h.triples u m f
    by_cases heq : u = user ∧ m = md5 ∧ f = filename
    · obtain ⟨rfl, rfl, rfl⟩ := heq
      have h0 := countWhere_eq_zero.mpr hn
      simp [HandlerEffects.addReference, h0, UserFile.isRow]
    · have hno : ¬ (user = u ∧ md5 = m ∧ filename = f) := by
        rintro ⟨rfl, rfl, rfl⟩
        exact heq ⟨rfl, rfl, rfl⟩
      simpa [HandlerEffects.addReference, UserFile.isRow, hno] using hle

theorem Exact.addReference (h : Exact d) {files : Multiset FileInfo} (hf : OneMore d md5 files)
    (hn : ∀ s ∈ d.userFileList, s.isRow user md5 filename = false)
    (ht : Raised user d.userFileCount t) :
    Exact (HandlerEffects.addReference now user md5 filename d files t) :=
  (h.tallies.addReference hf.tally hf.others hn ht).exact hf.stored hf.separate

theorem Tallies.noReference (h : Tallies d) (hm : ∀ r ∈ d.fileInfo, r.hasMd5 md5 = false) :
    references d md5 = 0 ∧ ∀ s ∈ d.userFileList, s.isRow user md5 filename = false := by
  have h0 : references d md5 = 0 := (h.files md5).of_none hm
  refine ⟨h0, fun s hs => ?_⟩
  cases hrow : s.isRow user md5 filename with
  | false => rfl
  | true =>
    have := countWhere_eq_zero.mp h0 s hs
    rw [isRow_refersTo s hrow] at this
    exact this

theorem Tallies.inserted_tally (h : Tallies d) {r : FileInfo}
    (hm : ∀ s ∈ d.fileInfo, s.hasMd5 r.md5 = false) (hc : r.count = 1) :
    Tallied (FileInfo.hasMd5 r.md5) FileInfo.count (r ::ₘ d.fileInfo)
      (references d r.md5 + 1) := by
  have h0 : references d r.md5 = 0 := (h.files r.md5).of_none hm
  rw [h0]
  exact tallied_insert hm (by simp [FileInfo.hasMd5]) hc

theorem inserted_others {r : FileInfo} {files : Multiset FileInfo} {other : CString}
    (hne : other ≠ r.md5) : rowsWhere (FileInfo.hasMd5 other) (r ::ₘ files) =
      rowsWhere (FileInfo.hasMd5 other) files := by
  rw [rowsWhere_cons, if_neg]
  simpa [FileInfo.hasMd5] using hne.symm

theorem Exact.oneMore_insert (h : Exact d) {r : FileInfo}
    (hm : ∀ s ∈ d.fileInfo, s.hasMd5 r.md5 = false) (hc : r.count = 1)
    (hid : r.fileId ∉ d.storage) :
    OneMore { d with storage := insert r.fileId d.storage } r.md5 (r ::ₘ d.fileInfo) := by
  have hdiff : ∀ s ∈ d.fileInfo, s.fileId ≠ r.fileId := by
    intro s hs heq
    exact hid (heq ▸ h.stored s hs)
  constructor
  · exact h.tallies.inserted_tally hm hc
  · exact fun other hne => inserted_others hne
  · intro s hs
    rcases Multiset.mem_cons.mp hs with rfl | hs
    · exact Finset.mem_insert_self _ _
    · exact Finset.mem_insert_of_mem (h.stored s hs)
  · intro s hs q hq heq
    rcases Multiset.mem_cons.mp hs with hs | hs <;> rcases Multiset.mem_cons.mp hq with hq | hq
    · rw [hs, hq]
    · exact absurd (heq.symm.trans (congrArg _ hs)) (hdiff q hq)
    · exact absurd (heq.trans (congrArg _ hq)) (hdiff s hs)
    · exact h.separate s hs q hq heq

theorem Exact.putStorage (h : Exact d) (fileid : CString) :
    Exact { d with storage := insert fileid d.storage } :=
  ⟨h.files, fun r hr => Finset.mem_insert_of_mem (h.stored r hr), h.separate, h.users, h.triples⟩

theorem Tallies.dropUserFile_counts (h : Tallies d)
    (hrow : ∃ r ∈ d.userFileList, r.isRow user md5 filename) :
    references (dropUserFile user md5 filename t d) md5 + 1 = references d md5 ∧
    owned (dropUserFile user md5 filename t d) user + 1 = owned d user ∧
    (∀ other, other ≠ md5 →
      references (dropUserFile user md5 filename t d) other = references d other) ∧
    (∀ other, other ≠ user →
      owned (dropUserFile user md5 filename t d) other = owned d other) := by
  have hone : countWhere (UserFile.isRow user md5 filename) d.userFileList = 1 := by
    have hle := h.triples user md5 filename
    have hpos := countWhere_pos.mpr hrow
    omega
  refine ⟨?_, ?_, ?_, ?_⟩
  · rw [← hone]
    exact countWhere_delete_of_imp isRow_refersTo
  · rw [← hone]
    exact countWhere_delete_of_imp isRow_ownedBy
  · intro other hne
    exact congrArg Multiset.card
      (rowsWhere_delete_of_disjoint fun r hr => isRow_refersTo_other hne r hr)
  · intro other hne
    exact congrArg Multiset.card
      (rowsWhere_delete_of_disjoint fun r hr => isRow_ownedBy_other hne r hr)

theorem Tallies.release_other (h : Tallies d)
    (hrow : ∃ r ∈ d.userFileList, r.isRow user md5 filename) {files : Multiset FileInfo}
    {other : CString} (hne : other ≠ md5)
    (hframe : rowsWhere (FileInfo.hasMd5 other) files =
      rowsWhere (FileInfo.hasMd5 other) d.fileInfo) :
    Tallied (FileInfo.hasMd5 other) FileInfo.count files
      (references (dropUserFile user md5 filename t d) other) := by
  obtain ⟨-, -, hothers, -⟩ := h.dropUserFile_counts (t := t) hrow
  rw [hothers other hne]
  exact (h.files other).frame hframe

/-- The ways the file of a deleted row can end: its count goes down, or it was the last
reference and the row of the file goes, with the stored object if that is there. -/
theorem Tallies.release_files (h : Tallies d)
    (hrow : ∃ r ∈ d.userFileList, r.isRow user md5 filename) {b : Bool} {e : Disk}
    (hr : Released md5 (dropUserFile user md5 filename t d) b e) (other : CString) :
    Tallied (FileInfo.hasMd5 other) FileInfo.count e.fileInfo
      (references (dropUserFile user md5 filename t d) other) := by
  obtain ⟨href, -, -, -⟩ := h.dropUserFile_counts (t := t) hrow
  have hfile := h.files md5
  rw [← href] at hfile
  have hdelete : ∀ r : FileInfo, r ∈ d.fileInfo → r.hasMd5 md5 → r.count = 1 →
      Tallied (FileInfo.hasMd5 other) FileInfo.count (deleteWhere (FileInfo.hasMd5 md5) d.fileInfo)
        (references (dropUserFile user md5 filename t d) other) := by
    intro r hr hm hc
    obtain ⟨-, hcount, -⟩ := hfile.of_mem hr hm
    by_cases hne : other = md5
    · subst hne
      rw [show references (dropUserFile user other filename t d) other = 0 by omega]
      exact tallied_delete
    · exact h.release_other hrow hne (rowsWhere_delete_of_disjoint fun s hs =>
        hasMd5_other hne s hs)
  cases hr with
  | missing hn => exact absurd (hfile.of_none hn) (Nat.succ_ne_zero _)
  | lost r s hr hm hc hs hsm hst => exact hdelete r hr hm hc
  | dropped r s hr hm hc hs hsm hst => exact hdelete r hr hm hc
  | kept r hr hm hc =>
    have hr : r ∈ d.fileInfo := hr
    obtain ⟨-, hcount, hpos⟩ := hfile.of_mem hr hm
    by_cases hne : other = md5
    · subst hne
      exact hfile.update hpos (by omega) (fun _ => rfl) fun _ => by simp [hcount]
    · exact h.release_other hrow hne (setFileCount_frame hne)

theorem Tallies.release (h : Tallies d)
    (hrow : ∃ r ∈ d.userFileList, r.isRow user md5 filename)
    (ht : Lowered user d.userFileCount t) {b : Bool} {e : Disk}
    (hr : Released md5 (dropUserFile user md5 filename t d) b e) : Tallies e := by
  have hlist : e.userFileList = (dropUserFile user md5 filename t d).userFileList := by
    cases hr <;> rfl
  have hcounts : e.userFileCount = t := by cases hr <;> rfl
  obtain ⟨-, hown, -, hothers⟩ := h.dropUserFile_counts (t := t) hrow
  constructor
  · intro other
    rw [references, hlist]
    exact h.release_files hrow hr other
  · intro other hkey
    rw [owned, hlist, hcounts]
    change Tallied _ _ t (owned (dropUserFile user md5 filename t d) other)
    by_cases hne : other = user
    · subst hne
      have := h.users other hkey
      rw [← hown] at this
      exact ht.tallied this
    · rw [hothers other hne]
      exact (h.users other hkey).frame (ht.frame hne)
  · intro u m f
    rw [hlist]
    exact countWhere_delete_le.trans (h.triples u m f)

theorem Exact.stored_released (h : Exact d) {b : Bool} {e : Disk}
    (hr : Released md5 (dropUserFile user md5 filename t d) b e) :
    (∀ r ∈ e.fileInfo, r.fileId ∈ e.storage) ∧
    ∀ r ∈ e.fileInfo, ∀ s ∈ e.fileInfo, r.fileId = s.fileId → r.md5 = s.md5 := by
  cases hr with
  | missing hn => exact ⟨h.stored, h.separate⟩
  | lost r s _ _ _ hs _ hst => exact absurd (h.stored s hs) hst
  | kept r hr hm hc =>
    exact ⟨fun s hs => h.stored_setFileCount hs, fun s hs q hq => h.separate_setFileCount hs hq⟩
  | dropped r s hr hm hc hs hsm hst =>
    have hs : s ∈ d.fileInfo := hs
    constructor
    · intro q hq
      obtain ⟨hq, hqm⟩ := mem_deleteWhere.mp hq
      refine Finset.mem_erase.mpr ⟨fun heq => ?_, h.stored q hq⟩
      have hmd := h.separate q hq s hs heq
      simp only [FileInfo.hasMd5, decide_eq_true_eq, decide_eq_false_iff_not] at hqm hsm
      exact hqm (hmd.trans hsm)
    · intro q hq q' hq' heq
      exact h.separate q (mem_deleteWhere.mp hq).1 q' (mem_deleteWhere.mp hq').1 heq

theorem Exact.release (h : Exact d)
    (hrow : ∃ r ∈ d.userFileList, r.isRow user md5 filename)
    (ht : Lowered user d.userFileCount t) {b : Bool} {e : Disk}
    (hr : Released md5 (dropUserFile user md5 filename t d) b e) : Exact e :=
  (h.tallies.release hrow ht hr).exact (h.stored_released hr).1 (h.stored_released hr).2

end Steps

/-- The client uploads only what `/md5` did not find, under an object name the storage
has just made up, and deletes only files in its list. -/
def Allowed (d : Disk) : Call → Prop
  | .upload _ _ md5 _ _ fileid _ =>
    fileid ∉ d.storage ∧ ∀ r ∈ d.fileInfo, r.hasMd5 md5 = false
  | .delFile user md5 filename => ∃ r ∈ d.userFileList, r.isRow user md5 filename
  | _ => True

theorem exact_call {d d' : Disk} {c : Call} {n : ℤ} (h : Exact d) (ha : Allowed d c)
    (he : c.Effect (c.arrive d) n d') : Exact d' := by
  cases c with
  | upload now user md5 filename size fileid url =>
    obtain ⟨hid, hm⟩ := ha
    cases he with
    | stored t ht =>
      have hn : ∀ s ∈ d.userFileList, s.isRow user md5 filename = false :=
        (h.tallies.noReference hm).2
      have hf := h.oneMore_insert
        (r := ⟨md5, fileid, url, size, DiskHandlers.getFileSuffix filename, 1⟩) hm rfl hid
      exact (h.putStorage fileid).addReference hf hn ht
  | dealMd5 now user md5 filename =>
    cases he with
    | unknown _ => exact h
    | owned _ _ _ => exact h
    | added r hr hm hn t ht => exact h.addReference (h.oneMore_setFileCount hr hm) hn ht
  | saveFile now user md5 filename =>
    cases he with
    | owned _ _ _ => exact h
    | unknown _ => exact h
    | added r hr hm hn t ht => exact h.addReference (h.oneMore_setFileCount hr hm) hn ht
  | shareFile now user md5 filename => exact h.sharesOnly (shareFile_sharesOnly he)
  | cancelShareFile user md5 filename => exact h.sharesOnly (cancelShareFile_sharesOnly he)
  | delFile user md5 filename =>
    cases he with
    | confused _ => exact h
    | stuck flag _ _ hu => exact h.sharesOnly (unshared_sharesOnly hu)
    | uncounted _ hc _ => exact h.sharesOnly (cleared_sharesOnly hc).1
    | deleted e hc t ht b _ hr =>
      obtain ⟨hs, hlist⟩ := cleared_sharesOnly hc
      exact (h.sharesOnly hs).release (hlist ▸ ha) ht hr

theorem exact_reachable {d : Disk} (h : Reachable NoFail Allowed d) : Exact d :=
  reachable_effects (fun _ => exact_empty) (fun _ _ hd ha _ _ he => exact_call hd ha he) h

/-- The tables of files and of user counts say what the list of user files says. -/
structure CountsAgree (d : Disk) : Prop where
  file_unique : ∀ md5, countWhere (FileInfo.hasMd5 md5) d.fileInfo ≤ 1
  file_iff : ∀ md5, (∃ r ∈ d.fileInfo, r.md5 = md5) ↔ ∃ s ∈ d.userFileList, s.md5 = md5
  file_count : ∀ r ∈ d.fileInfo, r.count = references d r.md5
  file_stored : ∀ r ∈ d.fileInfo, r.fileId ∈ d.storage
  user_iff : ∀ user, user ≠ shareCountKey →
    ((∃ r ∈ d.userFileCount, r.user = user) ↔ ∃ s ∈ d.userFileList, s.user = user)
  user_count : ∀ r ∈ d.userFileCount, r.user ≠ shareCountKey → r.count = owned d r.user
  row_unique : ∀ user md5 filename,
    countWhere (UserFile.isRow user md5 filename) d.userFileList ≤ 1

theorem Exact.agree {d : Disk} (hx : Exact d) : CountsAgree d := by
  constructor
  · intro md5
    exact (hx.files md5).count_le_one
  · intro md5
    constructor
    · rintro ⟨r, hr, rfl⟩
      have hpos := ((hx.files r.md5).of_mem hr (by simp [FileInfo.hasMd5])).2.2
      simpa [refersTo] using countWhere_pos.mp hpos
    · rintro ⟨s, hs, rfl⟩
      have hpos : 0 < references d s.md5 := countWhere_pos.mpr ⟨s, hs, by simp [refersTo]⟩
      simpa [FileInfo.hasMd5] using (hx.files s.md5).exists_mem hpos
  · intro r hr
    exact ((hx.files r.md5).of_mem hr (by simp [FileInfo.hasMd5])).2.1
  · exact hx.stored
  · intro user hkey
    constructor
    · rintro ⟨r, hr, rfl⟩
      have hpos := ((hx.users r.user hkey).of_mem hr (by simp [UserCount.ofUser])).2.2
      simpa [ownedBy] using countWhere_pos.mp hpos
    · rintro ⟨s, hs, rfl⟩
      have hpos : 0 < owned d s.user := countWhere_pos.mpr ⟨s, hs, by simp [ownedBy]⟩
      simpa [UserCount.ofUser] using (hx.users s.user hkey).exists_mem hpos
  · intro r hr hkey
    exact ((hx.users r.user hkey).of_mem hr (by simp [UserCount.ofUser])).2.1
  · exact hx.triples

theorem counts_agree_reachable {d : Disk} (h : Reachable NoFail Allowed d) : CountsAgree d :=
  (exact_reachable h).agree

/-- The state with empty tables and nothing stored or cached. -/
def emptyDisk : Disk := ⟨0, 0, 0, 0, ∅, fun _ => none⟩

theorem emptyDisk_tables : TablesEmpty emptyDisk := ⟨rfl, rfl, rfl, rfl⟩

/-- One user uploads a file and another one is found to have the same content. -/
theorem counts_agree_second_owner : ∃ d, Reachable NoFail Allowed d ∧
    d.fileInfo.map FileInfo.count = {2} ∧ CountsAgree d := by
  have h0 : Reachable NoFail Allowed emptyDisk := .start _ emptyDisk_tables
  have h1 := h0.call _ (.upload [] [97] [1] [102] 9 [7] []) (fun _ => .ok 0)
    ⟨by simp [emptyDisk], by simp [emptyDisk]⟩ (fun _ => by simp [NoFail])
  have h2 := h1.call _ (.dealMd5 [] [98] [1] [103]) (fun _ => .ok 0) trivial
    (fun _ => by simp [NoFail])
  exact ⟨_, h2, by decide, counts_agree_reachable h2⟩

end ReferenceCounts
