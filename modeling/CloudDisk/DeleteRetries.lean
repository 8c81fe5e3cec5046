import CloudDisk.FailedCalls
import CloudDisk.ReferenceCounts

/-! # Deleting again after a failed delete

A delete that fails leaves its earlier writes in the tables and is then asked for once more.
The second attempt reads what the first one left. Up to the write to the user's counter this
is harmless, unless the row is marked as shared: then the share counter is lowered a second
time. After that write the counter is lowered twice, or its row is gone and every further
attempt is refused. -/
namespace DeleteRetries

open ByteStrings CommandPrograms RowTables SortedSets DiskState DiskHandlers HandlerRules
  HandlerEffects ReferenceCounts FailurePoints SuccessReplies FailedCalls

/-- The counters agree with the lists, and no counter has two rows. -/
structure Counts (d : Disk) : Prop extends CountsAgree d where
  counter_unique : ∀ user, countWhere (UserCount.ofUser user) d.userFileCount ≤ 1

/-! ## Without failures a delete has one result -/

section Unique
variable {user md5 filename : CString} {d d₁ d₂ : Disk}

theorem shareMark_unique (hrow : countWhere (UserFile.isRow user md5 filename) d.userFileList ≤ 1)
    {a b : Option (ℤ × Bool)} (ha : ShareMark user md5 filename d a)
    (hb : ShareMark user md5 filename d b) : a = b := by
  cases ha with
  | listed hz => cases hb <;> first | rfl | omega
  | confused h0 h1 => cases hb <;> first | rfl | omega
  | absent hz hn =>
    cases hb with
    | absent _ _ => rfl
    | status _ r hr hu => simp [hn r hr] at hu
    | listed _ => omega
    | confused _ _ => omega
  | status hz r hr hu =>
    cases hb with
    | status _ s hs hsu => rw [eq_of_countWhere_le_one hrow hr hs hu hsu]
    | absent _ hn => simp [hn r hr] at hu
    | listed _ => omega
    | confused _ _ => omega

theorem lowered_unique {t t₁ t₂ : Multiset UserCount}
    (ht : countWhere (UserCount.ofUser user) t ≤ 1) (h₁ : Lowered user t t₁)
    (h₂ : Lowered user t t₂) : t₁ = t₂ := by
  cases h₁ with
  | last r hr hu h1 =>
    cases h₂ with
    | last _ _ _ _ => rfl
    | less s hs hsu h2 =>
      rw [eq_of_countWhere_le_one ht hr hs hu hsu] at h1
      exact absurd h1 h2
  | less r hr hu h1 =>
    cases h₂ with
    | last s hs hsu h2 =>
      rw [eq_of_countWhere_le_one ht hr hs hu hsu] at h1
      exact absurd h2 h1
    | less s hs hsu h2 => rw [eq_of_countWhere_le_one ht hr hs hu hsu]

theorem unshared_unique {flag : Bool}
    (ht : countWhere (UserCount.ofUser shareCountKey) d.userFileCount ≤ 1)
    (h₁ : Unshared user md5 filename flag d true d₁)
    (h₂ : Unshared user md5 filename flag d true d₂) : d₁ = d₂ := by
  cases h₁ with
  | counted r hr hu redis₁ hs₁ =>
    cases h₂ with
    | counted s hs hsu redis₂ hs₂ =>
      rw [eq_of_countWhere_le_one ht hr hs hu hsu, hs₁, hs₂]

theorem released_unique (ht : countWhere (FileInfo.hasMd5 md5) d.fileInfo ≤ 1)
    (h₁ : Released md5 d true d₁) (h₂ : Released md5 d true d₂) : d₁ = d₂ := by
  cases h₁ with
  | kept r hr hm hc =>
    cases h₂ with
    | kept s hs hsm _ => rw [eq_of_countWhere_le_one ht hr hs hm hsm]
    | dropped s _ hs hsm hsc _ _ _ =>
      rw [eq_of_countWhere_le_one ht hr hs hm hsm] at hc
      exact absurd hsc hc
  | dropped r q hr hm hc hq hqm _ =>
    cases h₂ with
    | kept s hs hsm hsc =>
      rw [eq_of_countWhere_le_one ht hr hs hm hsm] at hc
      exact absurd hc hsc
    | dropped _ s _ _ _ hs hsm _ => rw [eq_of_countWhere_le_one ht hq hs hqm hsm]

theorem cleared_unique (h : Counts d) (h₁ : Cleared user md5 filename d d₁)
    (h₂ : Cleared user md5 filename d d₂) : d₁ = d₂ := by
  have hrow := h.row_unique user md5 filename
  cases h₁ with
  | unshared share flag hm h1 =>
    cases h₂ with
    | unshared _ _ _ _ => rfl
    | shared flag' hm' _ _ =>
      have := shareMark_unique hrow hm hm'
      simp_all
  | shared flag hm _ hu =>
    cases h₂ with
    | unshared share flag' hm' h1 =>
      have := shareMark_unique hrow hm hm'
      simp_all
    | shared flag' hm' _ hu' =>
      have hflag : flag = flag' := by simpa using shareMark_unique hrow hm hm'
      subst hflag
      exact unshared_unique (h.counter_unique shareCountKey) hu hu'

end Unique

theorem cleared_countWhere {user md5 filename key : CString} {d d' : Disk}
    (h : Cleared user md5 filename d d') :
    countWhere (UserCount.ofUser key) d'.userFileCount =
      countWhere (UserCount.ofUser key) d.userFileCount := by
  cases h with
  | unshared _ _ _ _ => rfl
  | shared flag _ _ hu =>
    cases hu with
    | counted r hr hu redis hs => exact countWhere_update fun _ _ => rfl

theorem delFile_unique {user md5 filename : CString} {d d₁ d₂ : Disk} (h : Counts d)
    (h₁ : DelFile user md5 filename d 0 d₁) (h₂ : DelFile user md5 filename d 0 d₂) :
    d₁ = d₂ := by
  generalize hn : (0 : ℤ) = n at h₁
  generalize hn' : (0 : ℤ) = n' at h₂
  cases h₁ with
  | confused _ => omega
  | stuck _ _ _ _ => omega
  | uncounted _ _ _ => omega
  | deleted c hc t ht b _ hr =>
    cases h₂ with
    | confused _ => omega
    | stuck _ _ _ _ => omega
    | uncounted _ _ _ => omega
    | deleted c' hc' t' ht' b' _ hr' =>
      cases b with
      | false => simp at hn
      | true =>
        cases b' with
        | false => simp at hn'
        | true =>
          obtain rfl := cleared_unique h hc hc'
          have hone : countWhere (UserCount.ofUser user) c.userFileCount ≤ 1 := by
            rw [cleared_countWhere hc]
            exact h.counter_unique user
          obtain rfl := lowered_unique hone ht ht'
          refine released_unique ?_ hr hr'
          have hfile : c.fileInfo = d.fileInfo := (cleared_sharesOnly hc).1.fileInfo
          change countWhere (FileInfo.hasMd5 md5) c.fileInfo ≤ 1
          rw [hfile]
          exact h.file_unique md5

/-! ## When a delete succeeds -/

section Success
variable (user md5 filename : CString) (d : Disk) (row : UserFile)

/-- The share set answers zero or one, and there is a share counter where one is lowered. -/
def Deletable : Prop :=
  (zsetExit d (md5 ++ filename) = 0 ∨ zsetExit d (md5 ++ filename) = 1) ∧
    (zsetExit d (md5 ++ filename) = 1 ∨ row.sharedStatus = 1 ∨ user = shareCountKey →
      ∃ r ∈ d.userFileCount, r.ofUser shareCountKey)

/-- The position of the command that reads the user's counter. -/
def counterAt : ℕ :=
  if zsetExit d (md5 ++ filename) = 1 then 9 else if row.sharedStatus = 1 then 8 else 5

end Success

section Success
variable {user md5 filename : CString} {d d' : Disk} {row : UserFile}

theorem Counts.user_counter (h : Counts d) (hr : row ∈ d.userFileList)
    (hu : row.isRow user md5 filename) (hne : user ≠ shareCountKey) :
    ∃ r ∈ d.userFileCount, r.ofUser user := by
  have hrow : row.user = user := by
    simp only [UserFile.isRow, decide_eq_true_eq] at hu
    exact hu.1
  obtain ⟨r, hr, hru⟩ := (h.user_iff user hne).mpr ⟨row, hr, hrow⟩
  exact ⟨r, hr, by simpa [UserCount.ofUser] using hru⟩

theorem Counts.file (h : Counts d) (hr : row ∈ d.userFileList)
    (hu : row.isRow user md5 filename) : ∃ r ∈ d.fileInfo, r.hasMd5 md5 := by
  have hrow : row.md5 = md5 := by
    simp only [UserFile.isRow, decide_eq_true_eq] at hu
    exact hu.2.1
  obtain ⟨r, hr, hrm⟩ := (h.file_iff md5).mpr ⟨row, hr, hrow⟩
  exact ⟨r, hr, by simpa [FileInfo.hasMd5] using hrm⟩

theorem Deletable.counter (hd : Deletable user md5 filename d row) (h : Counts d)
    (hr : row ∈ d.userFileList) (hu : row.isRow user md5 filename) :
    ∃ r ∈ d.userFileCount, r.ofUser user := by
  by_cases hkey : user = shareCountKey
  · rw [hkey]
    exact hd.2 (Or.inr (Or.inr hkey))
  · exact h.user_counter hr hu hkey

theorem shareMark_row (h : Counts d) (hr : row ∈ d.userFileList)
    (hu : row.isRow user md5 filename) {share : ℤ} {flag : Bool}
    (hm : ShareMark user md5 filename d (some (share, flag))) :
    (zsetExit d (md5 ++ filename) = 1 ∧ share = 1 ∧ flag = true) ∨
      (zsetExit d (md5 ++ filename) = 0 ∧ share = row.sharedStatus ∧ flag = false) := by
  cases hm with
  | listed hz => exact Or.inl ⟨hz, rfl, rfl⟩
  | status hz s hs hsu =>
    rw [eq_of_countWhere_le_one (h.row_unique user md5 filename) hs hr hsu hu]
    exact Or.inr ⟨hz, rfl, rfl⟩
  | absent hz hn => simp [hn row hr] at hu

theorem cleared_deletable (h : Counts d) (hr : row ∈ d.userFileList)
    (hu : row.isRow user md5 filename) (hc : Cleared user md5 filename d d')
    (hown : ∃ r ∈ d'.userFileCount, r.ofUser user) : Deletable user md5 filename d row := by
  have hkey : user = shareCountKey → ∃ r ∈ d.userFileCount, r.ofUser shareCountKey := by
    intro heq
    rw [← countWhere_pos] at hown ⊢
    rw [← cleared_countWhere hc, ← heq]
    exact hown
  cases hc with
  | unshared share flag hm h1 =>
    rcases shareMark_row h hr hu hm with ⟨-, hs, -⟩ | ⟨hz, hs, -⟩
    · exact absurd hs h1
    · refine ⟨Or.inl hz, fun hcase => ?_⟩
      rcases hcase with hz1 | hs1 | heq
      · omega
      · omega
      · exact hkey heq
  | shared flag hm _ hun =>
    have hz : zsetExit d (md5 ++ filename) = 0 ∨ zsetExit d (md5 ++ filename) = 1 := by
      rcases shareMark_row h hr hu hm with ⟨hz, -, -⟩ | ⟨hz, -, -⟩
      · exact Or.inr hz
      · exact Or.inl hz
    cases hun with
    | counted r hr hu redis hs => exact ⟨hz, fun _ => ⟨r, hr, hu⟩⟩

theorem deletable_of_success (h : Counts d) (hr : row ∈ d.userFileList)
    (hu : row.isRow user md5 filename) (he : DelFile user md5 filename d 0 d') :
    Deletable user md5 filename d row := by
  generalize hn : (0 : ℤ) = n at he
  cases he with
  | confused _ => omega
  | stuck _ _ _ _ => omega
  | uncounted _ _ _ => omega
  | deleted c hc t ht b _ _ =>
    obtain ⟨q, hq, hqu, -⟩ := lowered_from ht
    exact cleared_deletable h hr hu hc ⟨q, hq, hqu⟩

theorem success_of_deletable (h : Counts d) (hr : row ∈ d.userFileList)
    (hu : row.isRow user md5 filename) (hd : Deletable user md5 filename d row) {n : ℤ}
    (he : DelFile user md5 filename d n d') : n = 0 := by
  cases he with
  | confused hm =>
    cases hm with
    | confused h0 h1 => exact (hd.1.elim h0 h1).elim
  | stuck flag hm _ hun =>
    cases hun with
    | uncounted hn =>
      refine absurd (hd.2 ?_) (none_iff_not_exists.mp hn)
      rcases shareMark_row h hr hu hm with ⟨hz, -, -⟩ | ⟨-, hs, -⟩
      · exact Or.inl hz
      · exact Or.inr (Or.inl hs.symm)
  | uncounted _ hc hn =>
    have hown := hd.counter h hr hu
    rw [← countWhere_pos, ← cleared_countWhere hc, countWhere_pos] at hown
    exact absurd hown (none_iff_not_exists.mp hn)
  | deleted c hc t ht b _ hrel =>
    have hfile : c.fileInfo = d.fileInfo := (cleared_sharesOnly hc).1.fileInfo
    have hstore : c.storage = d.storage := (cleared_sharesOnly hc).1.storage
    cases hrel with
    | missing hn =>
      have hn : ∀ r ∈ c.fileInfo, r.hasMd5 md5 = false := hn
      rw [hfile] at hn
      exact absurd (h.file hr hu) (none_iff_not_exists.mp hn)
    | lost _ s _ _ _ hs _ hst =>
      have hs : s ∈ c.fileInfo := hs
      have hst : s.fileId ∉ c.storage := hst
      rw [hfile] at hs
      rw [hstore] at hst
      exact absurd (h.file_stored s hs) hst
    | kept _ _ _ _ => rfl
    | dropped _ _ _ _ _ _ _ _ => rfl

end Success

/-! ## What the first attempt can leave -/

section FirstAttempt
variable {n j : ℕ} {user md5 filename : CString} {d d' : Disk} {row : UserFile}

def dropShareRows (user md5 filename : CString) (d : Disk) : Disk :=
  { d with
    shareFileList := deleteWhere (DiskState.ShareFile.isRow user md5 filename) d.shareFileList }

/-- Nothing but the share rows has been touched, and those only on the way to unsharing. -/
inductive Early (user md5 filename : CString) (d : Disk) : Disk → Prop where
  | untouched : Early user md5 filename d d
  | share (flag : Bool) (hm : ShareMark user md5 filename d (some (1, flag))) :
      Early user md5 filename d (dropShareRows user md5 filename d)

/-- What a failed attempt leaves, by the position of the failing command. -/
inductive Half (user md5 filename : CString) (d : Disk) (row : UserFile) (n : ℕ) :
    Disk → Prop where
  | early (d₁ : Disk) (h : Early user md5 filename d d₁)
      (hn : Deletable user md5 filename d row → n < counterAt md5 filename d row) :
      Half user md5 filename d row n d₁
  | cleared (d₁ : Disk) (h : Cleared user md5 filename d d₁)
      (hn : Deletable user md5 filename d row →
        n = counterAt md5 filename d row ∨ n = counterAt md5 filename d row + 1) :
      Half user md5 filename d row n d₁
  | late (d₁ c : Disk) (h : Cleared user md5 filename d c)
      (ht : Lowered user c.userFileCount d₁.userFileCount)
      (hn : counterAt md5 filename d row + 2 ≤ n) : Half user md5 filename d row n d₁

/-- What `del_file` does to the user's own data, and how far a failure gets in it. -/
inductive TailHalf (user : CString) (n j : ℕ) (c : Disk) : Disk → Prop where
  | counter (h : n = j ∨ n = j + 1 ∨ ∀ r ∈ c.userFileCount, r.ofUser user = false) :
      TailHalf user n j c c
  | late (d₁ : Disk) (ht : Lowered user c.userFileCount d₁.userFileCount) (hn : j + 2 ≤ n) :
      TailHalf user n j c d₁

theorem failSpec_delFileReference {α : Type} {f : Bool → Handler α} {Q : α → Disk → Prop}
    (hfile : ∃ r ∈ d.fileInfo, r.hasMd5 md5) (hstored : ∀ r ∈ d.fileInfo, r.fileId ∈ d.storage)
    (h : ∀ i d', d'.userFileCount = d.userFileCount → FailSpec n i (f true) d' Q)
    (hf : ∀ i d', d'.userFileCount = d.userFileCount → j ≤ n → FailSpec n i (f false) d' Q) :
    FailSpec n j (delFileReference md5 >>= f) d Q := by
  unfold delFileReference
  rw [bind_assoc]
  refine failSpec_selectFileCount (fun _ r hr hm => ?_) (fun _ hn => ?_) fun h0 => ?_
  · rw [bind_assoc]
    refine failSpec_mysqlQuery (fun _ => rfl) (fun _ => ?_) fun h1 => ?_
    · rw [if_neg (by decide)]
      by_cases hc : (Cell.int r.count).atoi - 1 = 0
      · rw [if_pos hc, bind_assoc]
        refine failSpec_selectFileId (fun _ s hs hsm => ?_) (fun _ hn => ?_) fun h2 => ?_
        · rw [bind_assoc]
          refine failSpec_mysqlQuery (fun _ => rfl) (fun _ => ?_) fun h3 => ?_
          · rw [if_neg (by decide)]
            refine failSpec_removeFile (fun _ _ => h _ _ rfl) (fun _ hst => ?_) fun h4 => ?_
            · obtain ⟨s', hs', m, rfl, -⟩ :=
                mem_setFileCount (show s ∈ setFileCount md5 _ _ from hs)
              exact absurd (hstored s' hs') hst
            · exact hf _ _ rfl (by omega)
          · exact hf _ _ rfl (by omega)
        · have hno := hn _ (mem_updateWhere.mpr (Or.inl ⟨r, hr, hm, rfl⟩))
          exact absurd hm (by simpa [FileInfo.hasMd5] using hno)
        · exact hf _ _ rfl (by omega)
      · rw [if_neg hc]
        exact h _ _ rfl
    · exact hf _ _ rfl (by omega)
  · exact absurd hfile (none_iff_not_exists.mp hn)
  · exact hf _ _ rfl (by omega)

theorem failSpec_delFileTail (hfile : ∃ r ∈ d.fileInfo, r.hasMd5 md5)
    (hstored : ∀ r ∈ d.fileInfo, r.fileId ∈ d.storage) {p : Handler ℤ} (hp : p = do
      if !(← lowerUserCount user) then return -1
      if !(← mysqlQuery (deleteUserFile user md5 filename)) then return -1
      if !(← delFileReference md5) then return -1
      return (0 : ℤ)) :
    FailSpec n j p d fun ret d₁ => ret ≠ 0 → TailHalf user n j d d₁ := by
  subst hp
  refine failSpec_lowerUserCount (fun _ _ t ht => ?_) (fun h1 => ?_) (fun _ hn => ?_) fun h0 => ?_
  · refine failSpec_mysqlQuery (fun _ => rfl) (fun _ => ?_) fun h2 => ?_
    · refine failSpec_delFileReference hfile hstored (fun i d' _ => ?_) fun i d' hd' hn => ?_
      · exact failSpec_ret fun h => absurd rfl h
      · refine failSpec_ret fun _ => .late d' ?_ (by omega)
        rw [hd']
        exact ht
    · exact failSpec_ret fun _ => .late _ ht (by omega)
  · exact failSpec_ret fun _ => .counter (Or.inr (Or.inl h1))
  · exact failSpec_ret fun _ => .counter (Or.inr (Or.inr hn))
  · exact failSpec_ret fun _ => .counter (Or.inl h0)

/-- A failure in the cache is ignored; every earlier one is answered. -/
theorem failSpec_delFileUnshare {α : Type} {flag : Bool} {f : Bool → Handler α}
    {Q : α → Disk → Prop}
    (h : ∀ d₁, Unshared user md5 filename flag d true d₁ →
      FailSpec n (j + if flag then 5 else 3) (f true) d₁ Q)
    (hcache : ∀ d₁, flag = true → n = j + 3 ∨ n = j + 4 → d₁.fileInfo = d.fileInfo →
      d₁.storage = d.storage → (∃ r ∈ d.userFileCount, r.ofUser shareCountKey) →
      (∀ key, countWhere (UserCount.ofUser key) d₁.userFileCount =
        countWhere (UserCount.ofUser key) d.userFileCount) → FailSpec n (j + 5) (f true) d₁ Q)
    (hf : ∀ i d₁, (d₁ = d ∨ d₁ = dropShareRows user md5 filename d) →
      (n < j + 3 ∨ ∀ r ∈ d.userFileCount, r.ofUser shareCountKey = false) →
      FailSpec n i (f false) d₁ Q) :
    FailSpec n j (delFileUnshare user md5 filename flag >>= f) d Q := by
  unfold delFileUnshare
  rw [bind_assoc]
  refine failSpec_mysqlQuery (fun _ => rfl) (fun _ => ?_) fun h0 => ?_
  · rw [if_neg (by decide), bind_assoc]
    refine failSpec_selectUserCount (fun _ r hr hu => ?_) (fun _ hn => ?_) fun h1 => ?_
    · rw [bind_assoc]
      refine failSpec_mysqlQuery (fun _ => rfl) (fun _ => ?_) fun h2 => ?_
      · rw [if_neg (by decide)]
        cases flag with
        | false => exact h _ (.counted (d := d) r hr hu _ rfl)
        | true =>
          have hkeep : ∀ d₁ : Disk, d₁.fileInfo = d.fileInfo → d₁.storage = d.storage →
              d₁.userFileCount = updateWhere (UserCount.ofUser shareCountKey)
                (fun s => { s with count := r.count - 1 }) d.userFileCount →
              n = j + 3 ∨ n = j + 4 → FailSpec n (j + 5) (f true) d₁ Q := by
            intro d₁ hfile hstore hcounts hn
            apply hcache d₁ rfl hn hfile hstore ⟨r, hr, hu⟩
            intro key
            rw [hcounts]
            exact countWhere_update fun _ _ => rfl
          rw [if_pos rfl, bind_assoc]
          refine failSpec_ropWantsOne (fun _ k m _ => ?_) fun h3 => ?_
          · rw [bind_assoc]
            refine failSpec_ropWantsOne (fun _ l m' _ => ?_) fun h4 => ?_
            · exact h _ (.counted (d := d) r hr hu _ rfl)
            · exact hkeep _ rfl rfl rfl (Or.inr h4)
          · rw [bind_assoc]
            refine failSpec_ropWantsOne (fun _ l m' _ => ?_) fun h4 => ?_
            · exact hkeep _ rfl rfl rfl (Or.inl h3)
            · exact hkeep _ rfl rfl rfl (Or.inl h3)
      · exact hf _ _ (Or.inr rfl) (Or.inl (by omega))
    · exact hf _ _ (Or.inr rfl) (Or.inr hn)
    · exact hf _ _ (Or.inr rfl) (Or.inl (by omega))
  · exact hf _ _ (Or.inl rfl) (Or.inl (by omega))

theorem TailHalf.half (h : Counts d) (hr : row ∈ d.userFileList)
    (hu : row.isRow user md5 filename) {c d₁ : Disk} (hc : Cleared user md5 filename d c)
    (hj : counterAt md5 filename d row = j) (ht : TailHalf user n j c d₁) :
    Half user md5 filename d row n d₁ := by
  cases ht with
  | counter hcase =>
    refine .cleared c hc fun hd => ?_
    rw [hj]
    rcases hcase with h0 | h1 | hn
    · exact Or.inl h0
    · exact Or.inr h1
    · have hown := hd.counter h hr hu
      rw [← countWhere_pos, ← cleared_countWhere hc, countWhere_pos] at hown
      exact absurd hown (none_iff_not_exists.mp hn)
  | late _ ht hn => exact .late d₁ c hc ht (by omega)

theorem not_tailHalf {c d₁ : Disk} (hown : ∃ r ∈ c.userFileCount, r.ofUser user) (hn : n < j) :
    ¬ TailHalf user n j c d₁ := by
  intro ht
  cases ht with
  | counter hcase =>
    rcases hcase with h0 | h1 | hno
    · omega
    · omega
    · exact absurd hown (none_iff_not_exists.mp hno)
  | late _ _ hn' => omega

/-- The share was being taken back when a command failed, or its counter row was missing. -/
theorem Half.of_unshare (h : Counts d) (hr : row ∈ d.userFileList)
    (hu : row.isRow user md5 filename) {flag : Bool}
    (hm : ShareMark user md5 filename d (some (1, flag)))
    (hj : counterAt md5 filename d row = j + if flag then 5 else 3) {d₁ : Disk}
    (hd₁ : d₁ = d ∨ d₁ = dropShareRows user md5 filename d)
    (hn : n < j + 3 ∨ ∀ r ∈ d.userFileCount, r.ofUser shareCountKey = false) :
    Half user md5 filename d row n d₁ := by
  have hearly : Early user md5 filename d d₁ := by
    rcases hd₁ with rfl | rfl
    · exact .untouched
    · exact .share flag hm
  refine .early d₁ hearly fun hd => ?_
  rcases hn with hn | hn
  · rw [hj]
    cases flag <;> simp <;> omega
  · refine absurd (hd.2 ?_) (none_iff_not_exists.mp hn)
    rcases shareMark_row h hr hu hm with ⟨hz, -, -⟩ | ⟨-, hs, -⟩
    · exact Or.inl hz
    · exact Or.inr (Or.inl hs.symm)

theorem failSpec_delFileShared (h : Counts d) (hr : row ∈ d.userFileList)
    (hu : row.isRow user md5 filename) {flag : Bool}
    (hm : ShareMark user md5 filename d (some (1, flag)))
    (hj : counterAt md5 filename d row = j + if flag then 5 else 3) {p : Handler ℤ} (hp : p = do
      let shared ← delFileUnshare user md5 filename flag
      if !shared then return -1
      if !(← lowerUserCount user) then return -1
      if !(← mysqlQuery (deleteUserFile user md5 filename)) then return -1
      if !(← delFileReference md5) then return -1
      return (0 : ℤ)) :
    FailSpec n j p d fun ret d₁ => ret ≠ 0 → Half user md5 filename d row n d₁ := by
  subst hp
  refine failSpec_delFileUnshare (fun c hun => ?_) (fun c hflag hn hfile hstore hkey hcounts => ?_)
    fun i d₁ hd₁ hn => failSpec_ret fun _ => ?_
  · have hc : Cleared user md5 filename d c := .shared flag hm c hun
    have hs := (cleared_sharesOnly hc).1
    refine (failSpec_delFileTail ?_ ?_ rfl).mono fun ret d₁ ht hret =>
      (ht hret).half h hr hu hc hj
    · rw [hs.fileInfo]
      exact h.file hr hu
    · rw [hs.fileInfo, hs.storage]
      exact h.file_stored
  · -- the cache failed, so nothing else does: the rest succeeds
    refine (failSpec_delFileTail ?_ ?_ rfl).mono fun ret d₁ ht hret => ?_
    · rw [hfile]
      exact h.file hr hu
    · rw [hfile, hstore]
      exact h.file_stored
    · have hown : ∃ r ∈ c.userFileCount, r.ofUser user := by
        rw [← countWhere_pos, hcounts, countWhere_pos]
        by_cases heq : user = shareCountKey
        · rw [heq]
          exact hkey
        · exact h.user_counter hr hu heq
      exact absurd (ht hret) (not_tailHalf hown (by omega))
  · exact Half.of_unshare h hr hu hm hj hd₁ hn

theorem delFile_half (h : Counts d) (hr : row ∈ d.userFileList)
    (hu : row.isRow user md5 filename) :
    FailSpec n 0 (delFile user md5 filename) d fun ret d₁ =>
      ret ≠ 0 → Half user md5 filename d row n d₁ := by
  have hpos : 5 ≤ counterAt md5 filename d row := by
    unfold counterAt
    split
    · omega
    · split <;> omega
  have hstart : n < 5 → Half user md5 filename d row n d :=
    fun hn => .early d .untouched fun _ => by omega
  unfold delFile
  refine failSpec_ropConnect (fun _ => ?_) fun h0 => failSpec_ret fun _ => hstart (by omega)
  refine failSpec_msqlConn (fun _ => ?_) fun h1 => failSpec_ret fun _ => hstart (by omega)
  apply failSpec_setNames
  intro _
  unfold delFileShare
  rw [bind_assoc]
  refine failSpec_ropZsetExit (fun _ => ?_) fun h3 => failSpec_ret fun _ => hstart (by omega)
  by_cases hz1 : zsetExit d (md5 ++ filename) = 1
  · rw [if_pos hz1]
    exact failSpec_delFileShared h hr hu (.listed hz1) (by simp [counterAt, hz1]) rfl
  rw [if_neg hz1]
  by_cases hz0 : zsetExit d (md5 ++ filename) = 0
  · rw [if_pos hz0, bind_assoc]
    refine failSpec_selectSharedStatus (fun _ s hs hsu => ?_) (fun _ hn => ?_)
      fun h4 => failSpec_ret fun _ => hstart (by omega)
    · have hm := ShareMark.status hz0 s hs hsu
      obtain rfl := eq_of_countWhere_le_one (h.row_unique user md5 filename) hs hr hsu hu
      by_cases h1 : s.sharedStatus = 1
      · rw [h1] at hm
        simp only [bind_ret, pure_eq, Cell.atoi, h1, if_true]
        exact failSpec_delFileShared h hr hu hm (by simp [counterAt, hz1, h1]) rfl
      · simp only [bind_ret, pure_eq, Cell.atoi, h1, if_false]
        refine (failSpec_delFileTail (h.file hr hu) h.file_stored rfl).mono fun ret d₁ ht hret => ?_
        exact (ht hret).half h hr hu (.unshared _ false hm h1) (by simp [counterAt, hz1, h1])
    · simp [hn row hr] at hu
  · rw [if_neg hz0]
    refine failSpec_ret fun _ => .early d .untouched fun hd => ?_
    exact (hd.1.elim hz0 hz1).elim

end FirstAttempt

/-! ## The second attempt -/

section Retry
variable {user md5 filename : CString} {d d₁ d₂ : Disk} {row : UserFile} {m : ℤ}

theorem early_delFile (h : Counts d) (he : Early user md5 filename d d₁)
    (hd : DelFile user md5 filename d₁ m d₂) : DelFile user md5 filename d m d₂ := by
  cases he with
  | untouched => exact hd
  | share flag hm =>
    have hmark : ∀ o, ShareMark user md5 filename (dropShareRows user md5 filename d) o →
        ShareMark user md5 filename d o := by
      intro o ho
      cases ho with
      | listed hz => exact .listed hz
      | status hz r hr hu => exact .status (d := d) hz r hr hu
      | absent hz hn => exact .absent hz hn
      | confused h0 h1 => exact .confused h0 h1
    have hone : ∀ o, ShareMark user md5 filename (dropShareRows user md5 filename d) o →
        o = some (1, flag) :=
      fun o ho => shareMark_unique (h.row_unique user md5 filename) (hmark o ho) hm
    have hunshare : ∀ f b c, Unshared user md5 filename f (dropShareRows user md5 filename d) b c →
        Unshared user md5 filename f d b c := by
      intro f b c hun
      cases hun with
      | uncounted hn =>
        simp only [dropShareRows, deleteWhere_idem]
        exact .uncounted (d := d) hn
      | counted r hr hu redis hs =>
        simp only [dropShareRows, deleteWhere_idem]
        exact .counted (d := d) r hr hu redis hs
    have hcleared : ∀ c, Cleared user md5 filename (dropShareRows user md5 filename d) c →
        Cleared user md5 filename d c := by
      intro c hc
      cases hc with
      | unshared share f hm' h1 => exact absurd (hone _ hm') (by simp [h1])
      | shared f hm' _ hun => exact .shared f (hmark _ hm') c (hunshare _ _ _ hun)
    cases hd with
    | confused hm' => exact absurd (hone _ hm') (by simp)
    | stuck f hm' _ hun => exact .stuck f (hmark _ hm') _ (hunshare _ _ _ hun)
    | uncounted _ hc hn => exact .uncounted _ (hcleared _ hc) hn
    | deleted c hc t ht b _ hrel => exact .deleted c (hcleared c hc) t ht b _ hrel

theorem zsetExit_uncached {id : CString} (hz : zsetExit d id = 1) (hredis : d₁.redis =
    ((RedisCmd.hdel fileNameHash id).exec 0
      ((RedisCmd.zrem filePublicZset id).exec 0 d.redis).2).2) : zsetExit d₁ id = 0 := by
  have hne : filePublicZset ≠ fileNameHash := by decide
  have hhdel : ∀ s : Redis, ((RedisCmd.hdel fileNameHash id).exec 0 s).2 filePublicZset =
      s filePublicZset := by
    intro s
    simp only [RedisCmd.exec]
    split
    · rfl
    next fields _ => exact Function.update_of_ne hne (keepHash (fields.filter fun q => q.1 ≠ id)) s
    · rfl
  unfold zsetExit at hz ⊢
  rw [hredis, hhdel]
  cases hs : d.redis filePublicZset with
  | none => simp [hs] at hz
  | some v =>
    cases v with
    | string v => simp [hs] at hz
    | hash fields => simp [hs] at hz
    | zset z =>
      simp only [RedisCmd.exec, hs, Function.update_self, keepZset]
      by_cases hcard : (z.remove id).card = 0
      · simp [hcard]
      · simp only [hcard, if_false]
        apply SortedSet.lexCount_absent
        intro p hp
        exact (SortedSet.mem_pairs_remove.mp hp).2 rfl

theorem cleared_shareMark (h : Counts d) (hr : row ∈ d.userFileList)
    (hu : row.isRow user md5 filename) {flag : Bool}
    (hm : ShareMark user md5 filename d (some (1, flag)))
    (hun : Unshared user md5 filename flag d true d₁) {o : Option (ℤ × Bool)}
    (ho : ShareMark user md5 filename d₁ o) : o = some (row.sharedStatus, false) := by
  have hlist : d₁.userFileList = d.userFileList := by cases hun; rfl
  have hz : zsetExit d₁ (md5 ++ filename) = 0 := by
    rcases shareMark_row h hr hu hm with ⟨hz, -, rfl⟩ | ⟨hz, -, rfl⟩
    · cases hun with
      | counted r hr hu redis hs => exact zsetExit_uncached hz hs
    · cases hun with
      | counted r hr hu redis hs =>
        subst hs
        exact hz
  have hmark : ShareMark user md5 filename d₁ (some (row.sharedStatus, false)) :=
    .status hz row (hlist ▸ hr) hu
  refine shareMark_unique ?_ ho hmark
  rw [hlist]
  exact h.row_unique user md5 filename

theorem cleared_delFile (h : Counts d) (hr : row ∈ d.userFileList)
    (hu : row.isRow user md5 filename) (hs : row.sharedStatus ≠ 1)
    (hc : Cleared user md5 filename d d₁) (hd : DelFile user md5 filename d₁ m d₂) :
    DelFile user md5 filename d m d₂ := by
  cases hc with
  | unshared _ _ _ _ => exact hd
  | shared flag hm _ hun =>
    have hmark := fun o ho => cleared_shareMark h hr hu hm hun (o := o) ho
    have hcleared : ∀ c, Cleared user md5 filename d₁ c → c = d₁ := by
      intro c hc
      cases hc with
      | unshared _ _ _ _ => rfl
      | shared f hm' _ _ => exact absurd (hmark _ hm') (by simp [Ne.symm hs])
    have hc : Cleared user md5 filename d d₁ := .shared flag hm d₁ hun
    cases hd with
    | confused hm' => exact absurd (hmark _ hm') (by simp)
    | stuck f hm' _ _ => exact absurd (hmark _ hm') (by simp [Ne.symm hs])
    | uncounted _ hc' hn =>
      obtain rfl := hcleared _ hc'
      exact .uncounted _ hc hn
    | deleted c hc' t ht b _ hrel =>
      obtain rfl := hcleared _ hc'
      exact .deleted c hc t ht b _ hrel

theorem delFile_success (hd : DelFile user md5 filename d 0 d₂) :
    ∃ c, Cleared user md5 filename d c ∧ Lowered user c.userFileCount d₂.userFileCount := by
  generalize hn : (0 : ℤ) = n at hd
  cases hd with
  | confused _ => omega
  | stuck _ _ _ _ => omega
  | uncounted _ _ _ => omega
  | deleted c hc t ht b _ hrel =>
    refine ⟨c, hc, ?_⟩
    rw [released_counts md5 hrel]
    exact ht

theorem delFile_counts_ne (hd : DelFile user md5 filename d 0 d₂) :
    d₂.userFileCount ≠ d.userFileCount := by
  obtain ⟨c, hc, ht⟩ := delFile_success hd
  cases hc with
  | unshared _ _ _ _ => exact lowered_ne ht
  | shared flag _ _ hun =>
    cases hun with
    | counted r hr hu redis hs => exact setCount_lowered_ne hr hu ht

theorem lowered_setCount_ne {key : CString} {t s₁ s₂ : Multiset UserCount} {q : UserCount}
    (hq : q ∈ t) (hk : q.ofUser key) (hall : ∀ r ∈ t, r.ofUser key → r.count = q.count)
    (h₁ : Lowered user t s₁) (h₂ : Lowered user
      (updateWhere (UserCount.ofUser key) (fun s => { s with count := q.count - 1 }) t) s₂) :
    s₂ ≠ s₁ := by
  rintro rfl
  by_cases heq : user = key
  · subst heq
    obtain ⟨a, ha, hau, halls⟩ := lowered_from h₁
    obtain ⟨b, hb, hbu, halls'⟩ := lowered_from h₂
    have hac := hall a ha hau
    have hbc := mem_setCount hb hbu
    have hnone : ∀ r ∈ s₂, r.ofUser user = false := by
      intro r hr
      by_contra hru
      have h1 := halls r hr (by simpa using hru)
      have h2 := halls' r hr (by simpa using hru)
      omega
    obtain ⟨a', ha', hau', ha1⟩ := lowered_none h₁ hnone
    obtain ⟨b', hb', hbu', hb1⟩ := lowered_none h₂ hnone
    have := hall a' ha' hau'
    have := mem_setCount hb' hbu'
    omega
  · have hno : q.ofUser user = false := ofUser_other heq q hk
    have := mem_setCount (mem_of_lowered h₂ (mem_lowered h₁ hq hno) hno) hk
    omega

theorem cleared_marked_ne (h : Counts d) (hr : row ∈ d.userFileList)
    (hu : row.isRow user md5 filename) (hs : row.sharedStatus = 1)
    (hc : Cleared user md5 filename d d₁) {d₃ : Disk} (hfresh : DelFile user md5 filename d 0 d₃)
    (hd : DelFile user md5 filename d₁ 0 d₂) : d₂.userFileCount ≠ d₃.userFileCount := by
  obtain ⟨c, hc', ht⟩ := delFile_success hfresh
  obtain rfl := cleared_unique h hc hc'
  obtain ⟨c₁, hc₁, ht₁⟩ := delFile_success hd
  cases hc with
  | unshared share flag hm h1 =>
    rcases shareMark_row h hr hu hm with ⟨-, hone, -⟩ | ⟨-, hone, -⟩
    · exact absurd hone h1
    · exact absurd (hone.trans hs) h1
  | shared flag hm _ hun =>
    have hmark := fun o ho => cleared_shareMark h hr hu hm hun (o := o) ho
    cases hc₁ with
    | unshared share f hm' h1 =>
      have := hmark _ hm'
      simp_all
    | shared f hm' _ hun' =>
      cases hun' with
      | counted q hq hqu redis _ =>
        refine lowered_setCount_ne hq hqu (fun r hr hru => ?_) ht ht₁
        cases hun with
        | counted p _ _ _ _ => rw [mem_setCount hr hru, mem_setCount hq hqu]

end Retry

section Converges
variable (user md5 filename : CString) (d d₁ : Disk)

/-- A delete from the second state, without failures, succeeds and ends with the tables and
the storage of a delete from the first. -/
def Converges : Prop :=
  ∀ e e' : ℕ → Outcome, (∀ i, NoFail (e i)) → (∀ i, NoFail (e' i)) →
    delFileStatus ((delFile user md5 filename).run Cmd.exec e' d₁).1 = .c013 ∧
    SameTables ((delFile user md5 filename).run Cmd.exec e d).2
      ((delFile user md5 filename).run Cmd.exec e' d₁).2 ∧
    ((delFile user md5 filename).run Cmd.exec e' d₁).2.storage =
      ((delFile user md5 filename).run Cmd.exec e d).2.storage

end Converges

section Converges
variable {user md5 filename : CString} {d d₁ : Disk} {row : UserFile}

theorem delFileStatus_eq_c013 {n : ℤ} : delFileStatus n = .c013 ↔ n = 0 := by
  unfold delFileStatus
  split <;> simp_all

theorem delFileStatus_eq_c014 {n : ℤ} : delFileStatus n = .c014 ↔ n ≠ 0 := by
  unfold delFileStatus
  split <;> simp_all

theorem Converges.deletes (h : Converges user md5 filename d d₁) :
    ∃ m d₂ d₃, DelFile user md5 filename d₁ 0 d₂ ∧ DelFile user md5 filename d m d₃ ∧
      d₂.userFileCount = d₃.userFileCount := by
  have hok : ∀ _ : ℕ, NoFail (.ok 0) := fun _ => by simp [NoFail]
  obtain ⟨hret, hsame, -⟩ := h _ _ hok hok
  rw [delFileStatus_eq_c013] at hret
  have hretry := delFile_effect user md5 filename d₁ _ hok
  rw [hret] at hretry
  exact ⟨_, _, _, hretry, delFile_effect user md5 filename d _ hok, hsame.userFileCount⟩

/-- Where the second attempt can do nothing but what the first would have done. -/
theorem converges_iff_deletable (h : Counts d) (hr : row ∈ d.userFileList)
    (hu : row.isRow user md5 filename)
    (hsim : ∀ m d₂, DelFile user md5 filename d₁ m d₂ → DelFile user md5 filename d m d₂) :
    Converges user md5 filename d d₁ ↔ Deletable user md5 filename d row := by
  constructor
  · intro hconv
    obtain ⟨m, d₂, d₃, hretry, -, -⟩ := hconv.deletes
    exact deletable_of_success h hr hu (hsim _ _ hretry)
  · intro hd e e' he he'
    have hfresh := delFile_effect user md5 filename d e he
    have hretry := hsim _ _ (delFile_effect user md5 filename d₁ e' he')
    have hn := success_of_deletable h hr hu hd hfresh
    have hm := success_of_deletable h hr hu hd hretry
    rw [hn] at hfresh
    rw [hm] at hretry
    rw [delFile_unique h hfresh hretry]
    exact ⟨delFileStatus_eq_c013.mpr hm, SameTables.refl _, rfl⟩

theorem not_converges_marked (h : Counts d) (hr : row ∈ d.userFileList)
    (hu : row.isRow user md5 filename) (hs : row.sharedStatus = 1)
    (hc : Cleared user md5 filename d d₁) : ¬ Converges user md5 filename d d₁ := by
  intro hconv
  obtain ⟨m, d₂, d₃, hretry, hfresh, hcounts⟩ := hconv.deletes
  have hown : ∃ r ∈ d₁.userFileCount, r.ofUser user := by
    obtain ⟨c, hc₁, ht⟩ := delFile_success hretry
    obtain ⟨q, hq, hqu, -⟩ := lowered_from ht
    rw [← countWhere_pos, ← cleared_countWhere hc₁, countWhere_pos]
    exact ⟨q, hq, hqu⟩
  have hm := success_of_deletable h hr hu (cleared_deletable h hr hu hc hown) hfresh
  rw [hm] at hfresh
  exact cleared_marked_ne h hr hu hs hc hfresh hretry hcounts

theorem not_converges_late (h : Counts d) (hr : row ∈ d.userFileList)
    (hu : row.isRow user md5 filename) {c : Disk} (hc : Cleared user md5 filename d c)
    (ht : Lowered user c.userFileCount d₁.userFileCount) :
    ¬ Converges user md5 filename d d₁ := by
  intro hconv
  obtain ⟨m, d₂, d₃, hretry, hfresh, hcounts⟩ := hconv.deletes
  obtain ⟨q, hq, hqu, -⟩ := lowered_from ht
  have hm := success_of_deletable h hr hu (cleared_deletable h hr hu hc ⟨q, hq, hqu⟩) hfresh
  rw [hm] at hfresh
  obtain ⟨c', hc', ht'⟩ := delFile_success hfresh
  obtain rfl := cleared_unique h hc hc'
  have hone : countWhere (UserCount.ofUser user) c.userFileCount ≤ 1 := by
    rw [cleared_countWhere hc]
    exact h.counter_unique user
  exact delFile_counts_ne hretry (hcounts.trans (lowered_unique hone ht' ht))

theorem retry_converges_iff {n : ℕ} {e : ℕ → Outcome} (h : Counts d) (hr : row ∈ d.userFileList)
    (hu : row.isRow user md5 filename) (he : FailsAt n e)
    (hfail : delFileStatus ((delFile user md5 filename).run Cmd.exec e d).1 = .c014) :
    Converges user md5 filename d ((delFile user md5 filename).run Cmd.exec e d).2 ↔
      Deletable user md5 filename d row ∧ (n < counterAt md5 filename d row ∨
        (n ≤ counterAt md5 filename d row + 1 ∧ row.sharedStatus ≠ 1)) := by
  rw [delFileStatus_eq_c014] at hfail
  have hhalf := (delFile_half h hr hu).run he hfail
  generalize ((delFile user md5 filename).run Cmd.exec e d).2 = d₁ at hhalf
  cases hhalf with
  | early hearly hn =>
    rw [converges_iff_deletable h hr hu fun _ _ hd => early_delFile h hearly hd]
    exact ⟨fun hd => ⟨hd, Or.inl (hn hd)⟩, fun hd => hd.1⟩
  | cleared hc hn =>
    by_cases hs : row.sharedStatus = 1
    · apply iff_of_false (not_converges_marked h hr hu hs hc)
      rintro ⟨hd, hcase⟩
      have := hn hd
      omega
    · rw [converges_iff_deletable h hr hu fun _ _ hd => cleared_delFile h hr hu hs hc hd]
      refine ⟨fun hd => ⟨hd, Or.inr ⟨?_, hs⟩⟩, fun hd => hd.1⟩
      have := hn hd
      omega
  | late c hc ht hn =>
    apply iff_of_false (not_converges_late h hr hu hc ht)
    rintro ⟨_, hcase⟩
    omega

end Converges

theorem oneFile_counts : Counts oneFile where
  file_unique _ := countWhere_le_card _ _
  file_iff md5 := by simp [oneFile]
  file_count r hr := by
    rw [Multiset.mem_singleton.mp hr]
    rfl
  file_stored := by simp [oneFile]
  user_iff user _ := by simp [oneFile]
  user_count r hr _ := by
    rw [Multiset.mem_singleton.mp hr]
    rfl
  row_unique _ _ _ := countWhere_le_card _ _
  counter_unique _ := countWhere_le_card _ _

/-- The write to the user's counter fails; the second attempt makes up for it. -/
theorem retry_converges_counter : Counts oneFile ∧ FailsAt 6 (failAt 6) ∧
    delFileStatus ((delFile [97] [1] [102]).run Cmd.exec (failAt 6) oneFile).1 = .c014 ∧
    Converges [97] [1] [102] oneFile
      ((delFile [97] [1] [102]).run Cmd.exec (failAt 6) oneFile).2 := by
  have hfail : delFileStatus ((delFile [97] [1] [102]).run Cmd.exec (failAt 6) oneFile).1 =
      .c014 := by
    decide
  refine ⟨oneFile_counts, failsAt_failAt 6, hfail, ?_⟩
  rw [retry_converges_iff oneFile_counts (Multiset.mem_singleton_self _) (by decide)
    (failsAt_failAt 6) hfail]
  refine ⟨⟨Or.inl rfl, fun h => ?_⟩, Or.inr ⟨by decide, by decide⟩⟩
  exact absurd h (by decide)

/-- The delete of the row fails after the counter row went: no further attempt succeeds. -/
theorem retry_stuck : Counts oneFile ∧ FailsAt 7 (failAt 7) ∧
    (∃ r ∈ oneFile.userFileList, r.isRow [97] [1] [102]) ∧
    delFileStatus ((delFile [97] [1] [102]).run Cmd.exec (failAt 7) oneFile).1 = .c014 ∧
    ¬ Converges [97] [1] [102] oneFile
      ((delFile [97] [1] [102]).run Cmd.exec (failAt 7) oneFile).2 := by
  refine ⟨oneFile_counts, failsAt_failAt 7, ⟨_, Multiset.mem_singleton_self _, by decide⟩,
    by decide, fun hconv => ?_⟩
  have hok : ∀ _ : ℕ, NoFail (.ok 0) := fun _ => by simp [NoFail]
  exact absurd (hconv _ _ hok hok).1 (by decide)

end DeleteRetries
