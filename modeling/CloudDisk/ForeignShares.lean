import CloudDisk.ShareReplies

/-! # Deleting a file that somebody else shares

The cached id of a share is `md5 ++ filename` and names no user, so `del_file` takes a
share of another user for one of the caller. -/
namespace ForeignShares

open ByteStrings CommandPrograms RowTables DiskState DiskHandlers HandlerRules HandlerEffects
  CacheEntries ShareReplies

section
variable (user md5 filename : CString) (d : Disk)

/-- The shares of all others are as before, in the table, in the counter and in the cache,
and the caller's own row is gone. -/
structure Intact (d' : Disk) : Prop where
  rows : rowsWhere (fun r : DiskState.ShareFile => r.user ≠ user) d'.shareFileList =
    rowsWhere (fun r : DiskState.ShareFile => r.user ≠ user) d.shareFileList
  count : rowsWhere (UserCount.ofUser shareCountKey) d'.userFileCount =
    rowsWhere (UserCount.ofUser shareCountKey) d.userFileCount
  score : scoreOf d'.redis (md5 ++ filename) = scoreOf d.redis (md5 ++ filename)
  name : nameOf d'.redis (md5 ++ filename) = nameOf d.redis (md5 ++ filename)
  gone : ∀ r ∈ d'.userFileList, r.isRow user md5 filename = false

/-- The cache is not seen to list the id, the caller's rows are not marked as shared, and
the caller has a counter, which is not the counter of the shares. -/
structure Apart : Prop where
  unlisted : zsetExit d (md5 ++ filename) = 0
  unmarked : ∀ r ∈ d.userFileList, r.isRow user md5 filename → r.sharedStatus ≠ 1
  counted : ∃ r ∈ d.userFileCount, r.ofUser user
  ordinary : user ≠ shareCountKey

end

section
variable {user md5 filename : CString} {d d' : Disk}

theorem not_intact_of_row (hrow : ∃ r ∈ d'.userFileList, r.isRow user md5 filename) :
    ¬ Intact user md5 filename d d' := by
  rintro h
  obtain ⟨r, hr, hu⟩ := hrow
  have := h.gone r hr
  simp [hu] at this

theorem not_intact_of_count {r : UserCount} (hr : r ∈ d.userFileCount)
    (hk : r.ofUser shareCountKey)
    (hlow : ∀ s ∈ d'.userFileCount, s.ofUser shareCountKey → s.count < r.count) :
    ¬ Intact user md5 filename d d' := by
  rintro h
  have hmem : r ∈ rowsWhere (UserCount.ofUser shareCountKey) d'.userFileCount := by
    rw [h.count]
    exact mem_rowsWhere.mpr ⟨hr, hk⟩
  obtain ⟨hr', -⟩ := mem_rowsWhere.mp hmem
  exact absurd (hlow r hr' hk) (lt_irrefl _)

theorem lowered_below {t t' : Multiset UserCount} {c : ℤ} (h : Lowered user t t')
    (hlow : ∀ s ∈ t, s.ofUser shareCountKey → s.count < c) :
    ∀ s ∈ t', s.ofUser shareCountKey → s.count < c := by
  intro s hs hk
  by_cases hu : s.ofUser user
  · obtain ⟨q, hq, hqu, hall⟩ := lowered_from h
    have hqk : q.ofUser shareCountKey := by
      simp only [UserCount.ofUser, decide_eq_true_eq] at hk hu hqu ⊢
      rw [hqu, ← hu, hk]
    have h₁ := hall s hs hu
    have h₂ := hlow q hq hqk
    omega
  · exact hlow s (mem_of_lowered h hs (by simpa using hu)) hk

theorem marked_not_intact (flag : Bool)
    (hrow : ∃ r ∈ d.userFileList, r.isRow user md5 filename) :
    Spec Cmd.exec NoFail (do
      let shared ← delFileUnshare user md5 filename flag
      if !shared then return -1
      if !(← lowerUserCount user) then return -1
      if !(← mysqlQuery (deleteUserFile user md5 filename)) then return -1
      if !(← delFileReference md5) then return -1
      return 0) d fun (_ : ℤ) d' => ¬ Intact user md5 filename d d' := by
  refine spec_delFileUnshare user md5 filename fun b d₁ hu => ?_
  cases hu with
  | uncounted hn => exact spec_ret (not_intact_of_row hrow)
  | counted r hr hk redis hs =>
    have hlow : ∀ s ∈ updateWhere (UserCount.ofUser shareCountKey)
        (fun s => { s with count := r.count - 1 }) d.userFileCount,
        s.ofUser shareCountKey → s.count < r.count := by
      intro s hs hsk
      rw [mem_setCount hs hsk]
      omega
    refine spec_lowerUserCount (fun t ht => ?_) fun hn => ?_
    · refine spec_mysqlQuery (fun _ => rfl) ?_ NoFail.elim
      refine spec_delFileReference md5 fun b e hrel => ?_
      have hnot : ¬ Intact user md5 filename d e := by
        apply not_intact_of_count hr hk
        rw [released_counts md5 hrel]
        exact lowered_below ht hlow
      cases b with
      | true => exact spec_ret hnot
      | false => exact spec_ret hnot
    · exact spec_ret (not_intact_of_count hr hk hlow)

theorem listed_not_intact (hz : zsetExit d (md5 ++ filename) = 1)
    (hrow : ∃ r ∈ d.userFileList, r.isRow user md5 filename) :
    Spec Cmd.exec NoFail (delFile user md5 filename) d
      fun _ d' => ¬ Intact user md5 filename d d' := by
  unfold delFile delFileShare
  refine spec_ropConnect ?_ NoFail.elim
  refine spec_msqlConn ?_ NoFail.elim
  apply spec_setNames
  intro _
  rw [bind_assoc]
  refine spec_ropZsetExit ?_ NoFail.elim
  rw [if_pos hz]
  exact marked_not_intact true hrow

theorem flagged_not_intact (hz : zsetExit d (md5 ++ filename) = 0) {r : UserFile}
    (hr : r ∈ d.userFileList) (hu : r.isRow user md5 filename) (hs : r.sharedStatus = 1) :
    ∃ k, Spec Cmd.exec (· = .ok k) (delFile user md5 filename) d
      fun _ d' => ¬ Intact user md5 filename d d' := by
  have hmem : [Cell.int r.sharedStatus] ∈
      (rowsWhere (UserFile.isRow user md5 filename) d.userFileList).map
        fun r => [Cell.int r.sharedStatus] :=
    Multiset.mem_map_of_mem _ (mem_rowsWhere.mpr ⟨hr, hu⟩)
  obtain ⟨k, rest, hk⟩ := exists_listing_cons hmem
  refine ⟨k, ?_⟩
  unfold delFile delFileShare
  refine spec_ropConnect ?_ (by simp)
  refine spec_msqlConn ?_ (by simp)
  apply spec_setNames
  intro _
  rw [bind_assoc]
  refine spec_ropZsetExit ?_ (by simp)
  rw [if_neg (by rw [hz]; decide), if_pos hz, bind_assoc]
  apply spec_call
  intro o ho
  subst ho
  have hresult : (selectSharedStatus user md5 filename).result k d =
      some ([Cell.int r.sharedStatus] :: rest) := congrArg some hk
  simp only [Cmd.exec, hresult, hs]
  apply Spec.admitting (marked_not_intact (d := d) false ⟨r, hr, hu⟩)
  rintro o rfl
  simp [NoFail]

theorem not_marked (hz : zsetExit d (md5 ++ filename) = 0)
    (hmark : ∀ r ∈ d.userFileList, r.isRow user md5 filename → r.sharedStatus ≠ 1) (flag : Bool) :
    ¬ ShareMark user md5 filename d (some (1, flag)) := by
  intro hm
  generalize ho : some ((1 : ℤ), flag) = o at hm
  cases hm with
  | listed h1 => simp [hz] at h1
  | status _ r hr hu =>
    have hone : r.sharedStatus = 1 := by
      simp at ho
      exact ho.1.symm
    exact hmark r hr hu hone
  | absent _ hn => simp at ho
  | confused h0 h1 => simp at ho

theorem mark_some {mark : ℤ × Bool} (hm : ShareMark user md5 filename d (some mark)) :
    zsetExit d (md5 ++ filename) = 0 ∨ zsetExit d (md5 ++ filename) = 1 := by
  cases hm with
  | listed h1 => exact .inr h1
  | status h0 r hr hu => exact .inl h0
  | absent h0 hn => exact .inl h0

theorem mark_none (hm : ShareMark user md5 filename d none) :
    zsetExit d (md5 ++ filename) ≠ 0 := by
  cases hm with
  | confused h0 h1 => exact h0

theorem cleared_exit (hc : Cleared user md5 filename d d') :
    zsetExit d (md5 ++ filename) = 0 ∨ zsetExit d (md5 ++ filename) = 1 := by
  cases hc with
  | unshared share flag hm h1 => exact mark_some hm
  | shared flag hm _ hu => exact mark_some hm

theorem confused_unchanged (h0 : zsetExit d (md5 ++ filename) ≠ 0)
    (h1 : zsetExit d (md5 ++ filename) ≠ 1) :
    Spec Cmd.exec NoFail (delFile user md5 filename) d fun _ d' => d' = d := by
  have hno : ¬ (zsetExit d (md5 ++ filename) = 0 ∨ zsetExit d (md5 ++ filename) = 1) := by
    rintro (h | h)
    · exact h0 h
    · exact h1 h
  refine (delFile_effect user md5 filename d).mono fun n d' he => ?_
  cases he with
  | confused hm => rfl
  | stuck flag hm _ hu => exact absurd (mark_some hm) hno
  | uncounted _ hc hn => exact absurd (cleared_exit hc) hno
  | deleted e hc t ht b _ hr => exact absurd (cleared_exit hc) hno

theorem intact_of_apart (h : Apart user md5 filename d) :
    Spec Cmd.exec NoFail (delFile user md5 filename) d
      fun _ d' => Intact user md5 filename d d' := by
  have hnot := not_marked h.unlisted h.unmarked
  have hclear : ∀ e, Cleared user md5 filename d e → e = d := by
    intro e he
    cases he with
    | unshared share flag hm h1 => rfl
    | shared flag hm _ hu => exact absurd hm (hnot flag)
  refine (delFile_effect user md5 filename d).mono fun n d' he => ?_
  cases he with
  | confused hm => exact absurd h.unlisted (mark_none hm)
  | stuck flag hm _ hu => exact absurd hm (hnot flag)
  | uncounted _ hc hn =>
    rw [hclear _ hc] at hn
    exact absurd h.counted (none_iff_not_exists.mp hn)
  | deleted e hc t ht b _ hr =>
    obtain rfl := hclear _ hc
    have hframe := ht.frame h.ordinary.symm
    have hkept : d'.shareFileList = e.shareFileList ∧ d'.redis = e.redis ∧
        d'.userFileCount = t ∧
        d'.userFileList = deleteWhere (UserFile.isRow user md5 filename) e.userFileList := by
      cases hr <;> exact ⟨rfl, rfl, rfl, rfl⟩
    obtain ⟨hshares, hredis, hcounts, hfiles⟩ := hkept
    constructor
    · rw [hshares]
    · rw [hcounts, hframe]
    · rw [hredis]
    · rw [hredis]
    · intro r hr
      rw [hfiles] at hr
      exact (mem_deleteWhere.mp hr).2

/-- Without a counter of the caller, or with the counter of the shares as the caller's,
deleting an unshared file goes wrong too. -/
theorem apart_of_intact {n : ℤ} (hz : zsetExit d (md5 ++ filename) = 0)
    (hmark : ∀ r ∈ d.userFileList, r.isRow user md5 filename → r.sharedStatus ≠ 1)
    (hrow : ∃ r ∈ d.userFileList, r.isRow user md5 filename)
    (he : DelFile user md5 filename d n d') (h : Intact user md5 filename d d') :
    (∃ r ∈ d.userFileCount, r.ofUser user) ∧ user ≠ shareCountKey := by
  have hunmarked := not_marked hz hmark
  cases he with
  | confused hm => exact absurd h (not_intact_of_row hrow)
  | stuck flag hm _ hu => exact absurd hm (hunmarked flag)
  | uncounted _ hc hn =>
    cases hc with
    | unshared share flag hm h1 => exact absurd h (not_intact_of_row hrow)
    | shared flag hm _ hu => exact absurd hm (hunmarked flag)
  | deleted e hc t ht b _ hr =>
    cases hc with
    | shared flag hm _ hu => exact absurd hm (hunmarked flag)
    | unshared share flag hm h1 =>
      refine ⟨lowered_row ht, ?_⟩
      rintro rfl
      obtain ⟨q, hq, hqk, hall⟩ := lowered_from ht
      refine not_intact_of_count hq hqk ?_ h
      intro s hs hsk
      rw [released_counts md5 hr] at hs
      rw [hall s hs hsk]
      omega

end

/-- For a caller who owns the row, whoever shares the file: the shares of the others stay
as they are and the row goes in every run without failures, exactly when the two are apart. -/
theorem delete_leaves_shares_iff (user md5 filename : CString) (d : Disk)
    (hrow : ∃ r ∈ d.userFileList, r.isRow user md5 filename) :
    (∀ e : ℕ → Outcome, (∀ i, NoFail (e i)) →
      Intact user md5 filename d ((delFile user md5 filename).run Cmd.exec e d).2) ↔
        Apart user md5 filename d := by
  constructor
  · intro h
    have hok : ∀ k i, NoFail ((fun _ => .ok k : ℕ → Outcome) i) := fun _ _ => by simp [NoFail]
    have hrun := delFile_effect user md5 filename d (fun _ => .ok 0) (hok 0)
    have hintact := h (fun _ => .ok 0) (hok 0)
    have hz : zsetExit d (md5 ++ filename) = 0 := by
      by_cases h1 : zsetExit d (md5 ++ filename) = 1
      · exact absurd hintact (listed_not_intact h1 hrow (fun _ => .ok 0) (hok 0))
      by_contra h0
      have hstay : ((delFile user md5 filename).run Cmd.exec (fun _ => .ok 0) d).2 = d :=
        confused_unchanged h0 h1 (fun _ => .ok 0) (hok 0)
      rw [hstay] at hintact
      exact not_intact_of_row hrow hintact
    have hmark : ∀ r ∈ d.userFileList, r.isRow user md5 filename → r.sharedStatus ≠ 1 := by
      intro r hr hu hs
      obtain ⟨k, hk⟩ := flagged_not_intact hz hr hu hs
      exact hk (fun _ => .ok k) (fun _ => rfl) (h (fun _ => .ok k) (hok k))
    obtain ⟨hcount, hkey⟩ := apart_of_intact hz hmark hrow hrun hintact
    exact ⟨hz, hmark, hcount, hkey⟩
  · intro h e he
    exact intact_of_apart h e he

def ownedByBoth (z : SortedSets.SortedSet) : Disk :=
  { sharedOnce 1 z with
    fileInfo := {⟨cstr "1", cstr "id", cstr "url", 1, cstr "txt", 2⟩}
    userFileList := {⟨cstr "u", cstr "1", cstr "t", cstr "a", 1, 0⟩,
      ⟨cstr "v", cstr "1", cstr "t", cstr "a", 0, 0⟩}
    userFileCount := {⟨cstr "u", 1⟩, ⟨cstr "v", 1⟩, ⟨shareCountKey, 1⟩} }

/-- The cached share comes after a member that hides it. -/
def overlookedShare : Disk :=
  ownedByBoth (MembershipTests.viewedOnce (cstr "1b") (cstr "1a") (by decide))

theorem delete_leaves_shares_overlooked :
    (∃ r ∈ overlookedShare.userFileList, r.isRow (cstr "v") (cstr "1") (cstr "a")) ∧
      ∀ e : ℕ → Outcome, (∀ i, NoFail (e i)) →
        Intact (cstr "v") (cstr "1") (cstr "a") overlookedShare
          ((delFile (cstr "v") (cstr "1") (cstr "a")).run Cmd.exec e overlookedShare).2 := by
  have hrow : ∃ r ∈ overlookedShare.userFileList, r.isRow (cstr "v") (cstr "1") (cstr "a") :=
    ⟨⟨cstr "v", cstr "1", cstr "t", cstr "a", 0, 0⟩, by simp [overlookedShare, ownedByBoth],
      by decide⟩
  refine ⟨hrow, ?_⟩
  apply (delete_leaves_shares_iff (cstr "v") (cstr "1") (cstr "a") overlookedShare hrow).mpr
  constructor
  · decide
  · decide
  · exact ⟨⟨cstr "v", 1⟩, by simp [overlookedShare, ownedByBoth], by decide⟩
  · decide

/-- With the cache in order, `v`'s deletion takes `u`'s share out of the counter. -/
theorem delete_breaks_share : ∃ d : Disk,
    (∃ r ∈ d.shareFileList, r.isRow (cstr "u") (cstr "1") (cstr "a")) ∧
    (∃ r ∈ d.userFileList, r.isRow (cstr "v") (cstr "1") (cstr "a") ∧ r.sharedStatus = 0) ∧
    (∀ r ∈ d.shareFileList, r.isRow (cstr "v") (cstr "1") (cstr "a") = false) ∧
    ∀ e : ℕ → Outcome, (∀ i, NoFail (e i)) →
      ¬ Intact (cstr "v") (cstr "1") (cstr "a") d
        ((delFile (cstr "v") (cstr "1") (cstr "a")).run Cmd.exec e d).2 := by
  refine ⟨ownedByBoth (MembershipTests.viewedOnce (cstr "1") (cstr "1a") (by decide)),
    ⟨⟨cstr "u", cstr "1", cstr "t", cstr "a", 1⟩, by simp [ownedByBoth, sharedOnce], by decide⟩,
    ⟨⟨cstr "v", cstr "1", cstr "t", cstr "a", 0, 0⟩, by simp [ownedByBoth], by decide, rfl⟩,
    by decide, ?_⟩
  apply listed_not_intact
  · decide
  · exact ⟨⟨cstr "v", cstr "1", cstr "t", cstr "a", 0, 0⟩, by simp [ownedByBoth], by decide⟩

end ForeignShares
