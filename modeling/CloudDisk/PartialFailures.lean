import CloudDisk.ReferenceCounts

/-! # Statements that fail midway

There are no transactions. Whatever fails, a count is raised before the row that needs it
is inserted and lowered after that row is deleted, so a count is never below the number
of rows. Between two statements the count may hold a reserve for one file; a handler that
stops there leaves the reserve behind for ever. -/
namespace PartialFailures

open ByteStrings CommandPrograms RowTables DiskState DiskHandlers HandlerRules HandlerEffects
  DiskCalls ReferenceCounts

structure Safe (reserve : CString → ℕ) (d : Disk) : Prop where
  unique : ∀ md5, countWhere (FileInfo.hasMd5 md5) d.fileInfo ≤ 1
  covered : ∀ md5, 0 < references d md5 → ∃ r ∈ d.fileInfo, r.hasMd5 md5
  enough : ∀ r ∈ d.fileInfo, ((references d r.md5 + reserve r.md5 : ℕ) : ℤ) ≤ r.count
  stored : ∀ r ∈ d.fileInfo, r.fileId ∈ d.storage
  separate : ∀ r ∈ d.fileInfo, ∀ s ∈ d.fileInfo, r.fileId = s.fileId → r.md5 = s.md5

def noReserve : CString → ℕ := fun _ => 0

def reserveOne (md5 : CString) : CString → ℕ := fun other => if other = md5 then 1 else 0

section Statements
variable {reserve : CString → ℕ} {user md5 filename now : CString} {d d' : Disk}

theorem safe_empty (h : TablesEmpty d) : Safe noReserve d := by
  obtain ⟨hf, hl, -, -⟩ := h
  constructor
  · simp [hf]
  · simp [references, hl]
  · simp [hf]
  · simp [hf]
  · simp [hf]

theorem Safe.sameFiles (h : Safe reserve d) (hs : SameFiles d d') : Safe reserve d' := by
  constructor
  · rw [hs.fileInfo]
    exact h.unique
  · intro md5 hpos
    rw [hs.fileInfo]
    rw [hs.references] at hpos
    exact h.covered md5 hpos
  · intro r hr
    rw [hs.fileInfo] at hr
    rw [hs.references]
    exact h.enough r hr
  · rw [hs.fileInfo, hs.storage]
    exact h.stored
  · rw [hs.fileInfo]
    exact h.separate

theorem Safe.release (h : Safe reserve d) : Safe noReserve d := by
  refine ⟨h.unique, h.covered, fun r hr => ?_, h.stored, h.separate⟩
  have := h.enough r hr
  simp only [noReserve]
  omega

theorem Safe.setFileCount {reserve' : CString → ℕ} (h : Safe reserve d) (n : ℤ)
    (hothers : ∀ other, other ≠ md5 → reserve' other = reserve other)
    (hn : ((references d md5 + reserve' md5 : ℕ) : ℤ) ≤ n) :
    Safe reserve' { d with fileInfo := setFileCount md5 n d.fileInfo } := by
  constructor
  · intro other
    have hsame : countWhere (FileInfo.hasMd5 other) (HandlerEffects.setFileCount md5 n d.fileInfo) =
        countWhere (FileInfo.hasMd5 other) d.fileInfo := countWhere_update fun _ _ => rfl
    exact hsame.le.trans (h.unique other)
  · intro other hpos
    obtain ⟨r, hr, hm⟩ := h.covered other hpos
    by_cases hne : r.hasMd5 md5
    · exact ⟨_, mem_updateWhere.mpr (.inl ⟨r, hr, hne, rfl⟩), hm⟩
    · exact ⟨r, mem_updateWhere.mpr (.inr ⟨hr, by simpa using hne⟩), hm⟩
  · intro r hr
    rcases mem_updateWhere.mp hr with ⟨s, -, hsm, rfl⟩ | ⟨hr, hm⟩
    · simp only [FileInfo.hasMd5, decide_eq_true_eq] at hsm
      simp only [hsm]
      exact hn
    · simp only [FileInfo.hasMd5, decide_eq_false_iff_not] at hm
      rw [hothers _ hm]
      exact h.enough r hr
  · intro r hr
    obtain ⟨s, hs, m, rfl, -⟩ := mem_setFileCount hr
    exact h.stored s hs
  · intro r hr s hs heq
    obtain ⟨r', hr', m, rfl, -⟩ := mem_setFileCount hr
    obtain ⟨s', hs', m', rfl, -⟩ := mem_setFileCount hs
    exact h.separate r' hr' s' hs' heq

theorem Safe.raise (h : Safe noReserve d) {r : FileInfo} (hr : r ∈ d.fileInfo)
    (hm : r.hasMd5 md5) :
    Safe (reserveOne md5) ((updateFileCount md5 (r.count + 1)).effect d) := by
  apply h.setFileCount (r.count + 1) (fun other hne => by simp [reserveOne, noReserve, hne])
  have hc := h.enough r hr
  simp only [FileInfo.hasMd5, decide_eq_true_eq] at hm
  simp only [hm, noReserve, reserveOne, if_true] at hc ⊢
  omega

theorem Safe.lower (h : Safe (reserveOne md5) d) {r : FileInfo} (hr : r ∈ d.fileInfo)
    (hm : r.hasMd5 md5) :
    Safe noReserve ((updateFileCount md5 (r.count - 1)).effect d) := by
  apply h.setFileCount (r.count - 1) (fun other hne => by simp [reserveOne, noReserve, hne])
  have hc := h.enough r hr
  simp only [FileInfo.hasMd5, decide_eq_true_eq] at hm
  simp only [hm, noReserve, reserveOne, if_true] at hc ⊢
  omega

theorem Safe.insertRow (h : Safe (reserveOne md5) d) (hf : ∃ r ∈ d.fileInfo, r.hasMd5 md5) :
    Safe noReserve ((insertUserFile user md5 filename now).effect d) := by
  have href : ∀ other, references ((insertUserFile user md5 filename now).effect d) other =
      references d other + reserveOne md5 other := by
    intro other
    change countWhere _ (_ ::ₘ _) = _
    rw [countWhere_cons]
    simp [references, reserveOne, refersTo, eq_comm]
  refine ⟨h.unique, fun other hpos => ?_, fun r hr => ?_, h.stored, h.separate⟩
  · by_cases hne : other = md5
    · rw [hne]
      exact hf
    · rw [href, reserveOne, if_neg hne] at hpos
      exact h.covered other hpos
  · rw [href]
    simpa [noReserve] using h.enough r hr

theorem Safe.deleteRow (h : Safe noReserve d)
    (hrow : ∃ r ∈ d.userFileList, r.isRow user md5 filename) :
    Safe (reserveOne md5) ((deleteUserFile user md5 filename).effect d) := by
  have hle : ∀ other, references ((deleteUserFile user md5 filename).effect d) other ≤
      references d other := fun other => countWhere_delete_le
  have hlt : references ((deleteUserFile user md5 filename).effect d) md5 + 1 ≤
      references d md5 := by
    have himp : ∀ r, UserFile.isRow user md5 filename r → refersTo md5 r := isRow_refersTo
    have hdel := countWhere_delete_of_imp (t := d.userFileList) himp
    have hpos := countWhere_pos.mpr hrow
    change countWhere _ (deleteWhere _ _) + 1 ≤ countWhere _ _
    omega
  refine ⟨h.unique, fun other hpos => ?_, fun r hr => ?_, h.stored, h.separate⟩
  · exact h.covered other (Nat.lt_of_lt_of_le hpos (hle other))
  · have hc := h.enough r hr
    have hler := hle r.md5
    by_cases hne : r.md5 = md5
    · rw [hne] at hc hler ⊢
      simp only [noReserve, reserveOne, if_true] at hc ⊢
      omega
    · simp only [noReserve, reserveOne, if_neg hne] at hc ⊢
      omega

theorem Safe.insertFile (h : Safe noReserve d) {r : FileInfo}
    (hm : ∀ s ∈ d.fileInfo, s.hasMd5 r.md5 = false) (hc : r.count = 1)
    (hid : r.fileId ∉ d.storage) :
    Safe (reserveOne r.md5) ((insertFileInfo r).effect
      { d with storage := insert r.fileId d.storage }) := by
  have h0 : references d r.md5 = 0 := by
    by_contra hne
    obtain ⟨s, hs, hsm⟩ := h.covered r.md5 (Nat.pos_of_ne_zero hne)
    simp [hm s hs] at hsm
  have hdiff : ∀ s ∈ d.fileInfo, s.fileId ≠ r.fileId := by
    intro s hs heq
    exact hid (heq ▸ h.stored s hs)
  constructor
  · intro other
    change countWhere _ (_ ::ₘ _) ≤ 1
    rw [countWhere_cons]
    by_cases hne : r.hasMd5 other
    · simp only [FileInfo.hasMd5, decide_eq_true_eq] at hne
      have hnone := countWhere_eq_zero.mpr hm
      rw [hne] at hnone
      simp [hnone, hne, FileInfo.hasMd5]
    · have := h.unique other
      simpa [hne] using this
  · intro other hpos
    obtain ⟨s, hs, hsm⟩ := h.covered other hpos
    exact ⟨s, Multiset.mem_cons_of_mem hs, hsm⟩
  · intro s hs
    rcases Multiset.mem_cons.mp hs with rfl | hs
    · change ((references d s.md5 + _ : ℕ) : ℤ) ≤ s.count
      simp [h0, reserveOne, hc]
    · have hne : s.md5 ≠ r.md5 := by simpa [FileInfo.hasMd5] using hm s hs
      have := h.enough s hs
      change ((references d s.md5 + _ : ℕ) : ℤ) ≤ s.count
      simpa [reserveOne, hne, noReserve] using this
  · intro s hs
    rcases Multiset.mem_cons.mp hs with rfl | hs
    · exact Finset.mem_insert_self _ _
    · exact Finset.mem_insert_of_mem (h.stored s hs)
  · intro s hs q hq heq
    rcases Multiset.mem_cons.mp hs with hs | hs <;> rcases Multiset.mem_cons.mp hq with hq | hq
    · rw [hs, hq]
    · exact absurd (heq.symm.trans (congrArg _ hs)) (hdiff q hq)
    · exact absurd (heq.trans (congrArg _ hq)) (hdiff s hs)
    · exact h.separate s hs q hq heq

theorem Safe.deleteFile (h : Safe noReserve d) (h0 : references d md5 = 0) :
    Safe noReserve ((deleteFileInfo md5).effect d) := by
  constructor
  · intro other
    exact countWhere_delete_le.trans (h.unique other)
  · intro other hpos
    obtain ⟨r, hr, hm⟩ := h.covered other hpos
    have hne : other ≠ md5 := by
      rintro rfl
      exact absurd h0 (Nat.pos_iff_ne_zero.mp hpos)
    refine ⟨r, mem_deleteWhere.mpr ⟨hr, ?_⟩, hm⟩
    exact hasMd5_other hne.symm r hm
  · intro r hr
    exact h.enough r (mem_deleteWhere.mp hr).1
  · intro r hr
    exact h.stored r (mem_deleteWhere.mp hr).1
  · intro r hr s hs
    exact h.separate r (mem_deleteWhere.mp hr).1 s (mem_deleteWhere.mp hs).1

theorem Safe.eraseObject (h : Safe noReserve d) {fileid : CString}
    (hn : ∀ r ∈ d.fileInfo, r.fileId ≠ fileid) :
    Safe noReserve { d with storage := d.storage.erase fileid } :=
  ⟨h.unique, h.covered, h.enough,
    fun r hr => Finset.mem_erase.mpr ⟨hn r hr, h.stored r hr⟩, h.separate⟩

end Statements

/-! ## Commands beside the files -/

/-- Commands that change neither the files nor who lists them. -/
def Aside : Cmd → Prop
  | .query (.fileInfo op) => ∃ p columns, op = .select p columns
  | .query (.userFileList op) => (∃ p columns, op = .select p columns) ∨
      ∃ p n, op = .update p fun r => { r with sharedStatus := n }
  | .fdfsDelete _ => False
  | _ => True

theorem aside_sameFiles (c : Cmd) (hc : Aside c) (o : Outcome) (d : Disk) :
    SameFiles d (Cmd.exec o c d).2 := by
  cases o with
  | fail => exact SameFiles.refl d
  | ok k =>
    cases c with
    | mysqlConnect => exact SameFiles.refl d
    | redisConnect => exact SameFiles.refl d
    | redis c => exact ⟨rfl, rfl, fun _ _ => rfl⟩
    | fdfsDelete fileid => exact absurd hc id
    | query q =>
      simp only [Cmd.exec]
      cases q.result k d with
      | none => exact SameFiles.refl d
      | some rs =>
        cases q with
        | fileInfo op =>
          obtain ⟨p, columns, rfl⟩ := hc
          exact ⟨rfl, rfl, fun _ _ => rfl⟩
        | userFileList op =>
          rcases hc with ⟨p, columns, rfl⟩ | ⟨p, n, rfl⟩
          · exact ⟨rfl, rfl, fun _ _ => rfl⟩
          · exact ⟨rfl, rfl, fun q hq => countWhere_update fun r _ => hq r n⟩
        | _ => exact ⟨rfl, rfl, fun _ _ => rfl⟩

section Handlers
variable {α : Type} {adm : Outcome → Prop} (now user md5 filename : CString)

theorem spec_aside {p : Handler α} (hp : p.All Aside) {β : Type} {f : α → Handler β} {d : Disk}
    {Q : β → Disk → Prop}
    (h : ∀ a d', SameFiles d d' → Spec Cmd.exec adm (f a) d' Q) :
    Spec Cmd.exec adm (p >>= f) d Q := by
  have hI : ∀ c, Aside c → ∀ o d', SameFiles d d' → SameFiles d (Cmd.exec o c d').2 :=
    fun c hc o d' hd => hd.trans (aside_sameFiles c hc o d')
  exact spec_bind ((spec_all hI hp (SameFiles.refl d)).mono h)

theorem aside_plumbing : Plumbing Aside :=
  ⟨trivial, trivial, trivial, fun _ => trivial, fun _ _ => trivial⟩

theorem aside_shareFile : (shareFile now user md5 filename).All Aside :=
  all_shareFile aside_plumbing trivial (.inr ⟨_, 1, rfl⟩) trivial

theorem aside_cancelShareFile : (cancelShareFile user md5 filename).All Aside :=
  all_cancelShareFile aside_plumbing (.inr ⟨_, 0, rfl⟩) trivial

abbrev KeepsSafe (adm : Outcome → Prop) (p : Handler α) (reserve : CString → ℕ) (d : Disk) :
    Prop :=
  Safe reserve d → Spec Cmd.exec adm p d fun _ d' => Safe noReserve d'

variable {now user md5 filename} {d : Disk}

theorem safe_addReference {r : FileInfo} (hr : r ∈ d.fileInfo) (hm : r.hasMd5 md5) :
    KeepsSafe adm (do
      if !(← mysqlQuery (updateFileCount md5 (r.count + 1))) then return -1
      if !(← mysqlQuery (insertUserFile user md5 filename now)) then return -1
      if !(← raiseUserCount user) then return -1
      return (0 : ℤ)) noReserve d := by
  intro h
  have hraised := h.raise hr hm
  have hfile : ∃ s ∈ ((updateFileCount md5 (r.count + 1)).effect d).fileInfo, s.hasMd5 md5 :=
    ⟨_, mem_updateWhere.mpr (.inl ⟨r, hr, hm, rfl⟩), hm⟩
  have hadded : Safe noReserve ((insertUserFile user md5 filename now).effect
      ((updateFileCount md5 (r.count + 1)).effect d)) := hraised.insertRow hfile
  refine spec_mysqlQuery (fun _ => rfl) ?_ fun _ => spec_ret h
  refine spec_mysqlQuery (fun _ => rfl) ?_ fun _ => spec_ret hraised.release
  refine spec_aside (all_raiseUserCount aside_plumbing) fun b d' hs => ?_
  cases b <;> exact spec_ret (hadded.sameFiles hs)

theorem safe_dealMd5 : KeepsSafe adm (dealMd5 now user md5 filename) noReserve d := by
  intro h
  refine spec_msqlConn ?_ fun _ => spec_ret h
  apply spec_setNames
  intro _
  refine spec_selectFileCount ?_ (fun _ => spec_ret h) fun _ => spec_ret h
  intro r hr hm
  refine spec_selectUserFile (fun _ _ _ => spec_ret h) ?_ ?_
  · intro _
    exact safe_addReference hr hm h
  · intro _
    exact safe_addReference hr hm h

theorem safe_saveFile : KeepsSafe adm (saveFile now user md5 filename) noReserve d := by
  intro h
  have hsave : Spec Cmd.exec adm (saveFileReference now user md5 filename) d fun _ d' =>
      Safe noReserve d' := by
    refine spec_selectFileCount ?_ (fun _ => spec_ret h) fun _ => spec_ret h
    intro r hr hm
    exact safe_addReference hr hm h
  refine spec_msqlConn ?_ fun _ => spec_ret h
  apply spec_setNames
  intro _
  exact spec_selectUserFile (fun _ _ _ => spec_ret h) (fun _ => hsave) fun _ => hsave

theorem safe_storeFileinfoToMysql {size : ℤ} {fileid url : CString} (h : Safe noReserve d)
    (hid : fileid ∉ d.storage) (hm : ∀ r ∈ d.fileInfo, r.hasMd5 md5 = false) :
    Spec Cmd.exec adm (storeFileinfoToMysql now user filename md5 size fileid url)
      { d with storage := insert fileid d.storage } fun _ d' => Safe noReserve d' := by
  have hput : Safe noReserve { d with storage := insert fileid d.storage } :=
    ⟨h.unique, h.covered, h.enough, fun r hr => Finset.mem_insert_of_mem (h.stored r hr),
      h.separate⟩
  have hfile := h.insertFile
    (r := ⟨md5, fileid, url, size, getFileSuffix filename, 1⟩) hm rfl hid
  have hrow : Safe noReserve ((insertUserFile user md5 filename now).effect _) :=
    hfile.insertRow ⟨_, Multiset.mem_cons_self _ _, by simp [FileInfo.hasMd5]⟩
  refine spec_msqlConn ?_ fun _ => spec_ret hput
  apply spec_setNames
  intro _
  refine spec_mysqlQuery (fun _ => rfl) ?_ fun _ => spec_ret hput
  refine spec_mysqlQuery (fun _ => rfl) ?_ fun _ => spec_ret hfile.release
  refine spec_aside (all_raiseUserCount aside_plumbing) fun b d' hs => ?_
  cases b <;> exact spec_ret (hrow.sameFiles hs)

theorem safe_delFileReference : KeepsSafe adm (delFileReference md5) (reserveOne md5) d := by
  intro h
  refine spec_selectFileCount ?_ (fun _ => spec_ret h.release) fun _ => spec_ret h.release
  intro r hr hm
  have hlow := h.lower hr hm
  refine spec_mysqlQuery (fun _ => rfl) ?_ fun _ => spec_ret h.release
  by_cases hc : r.count = 1
  · have h0 : references ((updateFileCount md5 (r.count - 1)).effect d) md5 = 0 := by
      have henough := h.enough r hr
      simp only [FileInfo.hasMd5, decide_eq_true_eq] at hm
      simp only [hm, reserveOne, if_true] at henough
      change references d md5 = 0
      omega
    have hdel := hlow.deleteFile h0
    rw [if_neg (by decide), if_pos (by simp [Cell.atoi, hc])]
    refine spec_selectFileId ?_ (fun _ => spec_ret hlow) fun _ => spec_ret hlow
    intro s hs hsm
    refine spec_mysqlQuery (fun _ => rfl) ?_ fun _ => spec_ret hlow
    have hother : ∀ q ∈ ((deleteFileInfo md5).effect
        ((updateFileCount md5 (r.count - 1)).effect d)).fileInfo, q.fileId ≠ s.fileId := by
      intro q hq heq
      obtain ⟨hq, hqm⟩ := mem_deleteWhere.mp hq
      have hmd := hlow.separate q hq s hs heq
      simp only [FileInfo.hasMd5, decide_eq_true_eq, decide_eq_false_iff_not] at hqm hsm
      exact hqm (hmd.trans hsm)
    rw [if_neg (by decide), ← bind_pure (removeFileFromStorage s.fileId)]
    exact spec_removeFile (fun _ => spec_ret (hdel.eraseObject hother))
      (fun _ => spec_ret hdel) fun _ => spec_ret hdel
  · rw [if_neg (by decide), if_neg (by simp only [Cell.atoi]; omega)]
    exact spec_ret hlow

private theorem safe_delFile_tail (hrow : ∃ r ∈ d.userFileList, r.isRow user md5 filename) :
    KeepsSafe adm (do
      if !(← lowerUserCount user) then return -1
      if !(← mysqlQuery (deleteUserFile user md5 filename)) then return -1
      if !(← delFileReference md5) then return -1
      return (0 : ℤ)) noReserve d := by
  intro h
  refine spec_aside (all_lowerUserCount aside_plumbing) fun b d' hs => ?_
  have h' := h.sameFiles hs
  cases b with
  | false => exact spec_ret h'
  | true =>
    refine spec_mysqlQuery (fun _ => rfl) ?_ fun _ => spec_ret h'
    refine spec_bind ((safe_delFileReference (h'.deleteRow (hs.isRow hrow))).mono ?_)
    intro b d'' h''
    cases b <;> exact spec_ret h''

theorem safe_delFile (hrow : ∃ r ∈ d.userFileList, r.isRow user md5 filename) :
    KeepsSafe adm (delFile user md5 filename) noReserve d := by
  intro h
  refine spec_ropConnect ?_ fun _ => spec_ret h
  refine spec_msqlConn ?_ fun _ => spec_ret h
  apply spec_setNames
  intro _
  refine spec_aside (all_delFileShare aside_plumbing (.inl ⟨_, _, rfl⟩)) fun o d' hs => ?_
  rcases o with - | ⟨share, flag⟩
  · exact spec_ret (h.sameFiles hs)
  · by_cases h1 : share = 1
    · simp only [if_pos h1]
      have hunshare : (delFileUnshare user md5 filename flag).All Aside :=
        all_delFileUnshare aside_plumbing trivial
      refine spec_aside hunshare fun b d'' hs' => ?_
      have hs'' := hs.trans hs'
      cases b with
      | false => exact spec_ret (h.sameFiles hs'')
      | true => exact safe_delFile_tail (hs''.isRow hrow) (h.sameFiles hs'')
    · simp only [if_neg h1]
      exact safe_delFile_tail (hs.isRow hrow) (h.sameFiles hs)

end Handlers

theorem safe_call {d : Disk} {c : Call} (h : Safe noReserve d) (ha : Allowed d c) :
    Spec Cmd.exec AnyOutcome c.handler (c.arrive d) fun _ d' => Safe noReserve d' := by
  cases c with
  | upload now user md5 filename size fileid url =>
    exact safe_storeFileinfoToMysql h ha.1 ha.2
  | dealMd5 now user md5 filename => exact safe_dealMd5 h
  | saveFile now user md5 filename => exact safe_saveFile h
  | shareFile now user md5 filename =>
    exact spec_all (fun c hc o _ hd => hd.sameFiles (aside_sameFiles c hc o _))
      (aside_shareFile now user md5 filename) h
  | cancelShareFile user md5 filename =>
    exact spec_all (fun c hc o _ hd => hd.sameFiles (aside_sameFiles c hc o _))
      (aside_cancelShareFile user md5 filename) h
  | delFile user md5 filename => exact safe_delFile ha h

/-- However calls fail midway, a file that some user still lists is in the storage and
counted often enough. -/
theorem listed_file_kept {d : Disk} (h : Reachable AnyOutcome Allowed d) :
    ∀ s ∈ d.userFileList, ∃ r, rowsWhere (FileInfo.hasMd5 s.md5) d.fileInfo = {r} ∧
      (references d s.md5 : ℤ) ≤ r.count ∧ r.fileId ∈ d.storage := by
  have hsafe : Safe noReserve d := reachable_invariant (fun _ => safe_empty)
    (fun _ _ hd ha => safe_call hd ha) h
  intro s hs
  have hpos : 0 < references d s.md5 := countWhere_pos.mpr ⟨s, hs, by simp [refersTo]⟩
  obtain ⟨r, hr, hm⟩ := hsafe.covered s.md5 hpos
  have hcount : countWhere (FileInfo.hasMd5 s.md5) d.fileInfo = 1 := by
    have hle := hsafe.unique s.md5
    have hge := countWhere_pos.mpr ⟨r, hr, hm⟩
    omega
  obtain ⟨q, hq⟩ := Multiset.card_eq_one.mp hcount
  have hrq : r = q := by
    have : r ∈ rowsWhere (FileInfo.hasMd5 s.md5) d.fileInfo := mem_rowsWhere.mpr ⟨hr, hm⟩
    rw [hq] at this
    exact Multiset.mem_singleton.mp this
  have henough := hsafe.enough r hr
  simp only [FileInfo.hasMd5, decide_eq_true_eq] at hm
  rw [hm] at henough
  refine ⟨r, hrq ▸ hq, ?_, hsafe.stored r hr⟩
  simpa [noReserve] using henough

/-- An upload, then a second owner whose row could not be inserted: the count is one too
high and the file is kept. -/
theorem listed_file_kept_failed_insert : ∃ d, Reachable AnyOutcome Allowed d ∧
    d.fileInfo.map FileInfo.count = {2} ∧ Multiset.card d.userFileList = 1 ∧
    ∀ s ∈ d.userFileList, ∃ r, rowsWhere (FileInfo.hasMd5 s.md5) d.fileInfo = {r} ∧
      (references d s.md5 : ℤ) ≤ r.count ∧ r.fileId ∈ d.storage := by
  have h0 : Reachable AnyOutcome Allowed emptyDisk := .start _ emptyDisk_tables
  have h1 := h0.call _ (.upload [] [97] [1] [102] 9 [7] []) (fun _ => .ok 0)
    ⟨by simp [emptyDisk], by simp [emptyDisk]⟩ (fun _ => trivial)
  have h2 := h1.call _ (.dealMd5 [] [98] [1] [103]) (fun i => if i = 5 then .fail else .ok 0)
    trivial (fun _ => trivial)
  exact ⟨_, h2, by decide, by decide, listed_file_kept h2⟩

end PartialFailures
