import CloudDisk.CacheEntries
import CloudDisk.HandlerEffects
import CloudDisk.MembershipTests

/-! # What viewing and withdrawing a share promise

The success code should come exactly with the whole effect, and the failure code with
none. Both handlers write to MySQL before they know whether the cache agrees, and the
reply of `ZINCRBY` is compared with a text it never is. -/
namespace ShareReplies

open ByteStrings CheckedCode CommandPrograms RowTables DiskState DiskHandlers HandlerRules
  HandlerEffects CacheEntries MembershipTests

/-! ## Counters and columns that move by one -/

section Columns
variable {α : Type} {p : α → Bool} {f g : α → α} {t : Multiset α}

theorem updateWhere_eq_iff (column : α → ℤ) {c : ℤ} (hf : ∀ r, column (f r) = c)
    (hg : ∀ r, p r → p (g r))
    (hfg : ∀ r, column (g r) = c → g r = f r) :
    updateWhere p f t = updateWhere p g t ↔ ∀ r ∈ t, p r → column (g r) = c := by
  constructor
  · intro h r hr hpr
    have hmem : g r ∈ updateWhere p f t := by
      rw [h]
      exact mem_updateWhere.mpr (.inl ⟨r, hr, hpr, rfl⟩)
    rcases mem_updateWhere.mp hmem with ⟨s, -, -, hs⟩ | ⟨-, hno⟩
    · rw [← hs]
      exact hf s
    · simp [hg r hpr] at hno
  · intro h
    apply Multiset.map_congr rfl
    intro r hr
    cases hpr : p r with
    | true => simp [hfg r (h r hr hpr)]
    | false => simp

theorem deleteWhere_ne_updateWhere {r : α} (hr : r ∈ t) (hpr : p r) :
    deleteWhere p t ≠ updateWhere p f t := by
  intro h
  have hcard := congrArg Multiset.card h
  have hpos : 0 < countWhere p t := countWhere_pos.mpr ⟨r, hr, hpr⟩
  have hdel := card_deleteWhere (p := p) (t := t)
  rw [updateWhere, Multiset.card_map] at hcard
  omega

end Columns

/-- Every row of the counter is one lower, and a counter that stood at one is gone. -/
def OneLess (user : CString) (t t' : Multiset UserCount) : Prop :=
  t' = updateWhere (UserCount.ofUser user) (fun s => { s with count := s.count - 1 }) t ∨
  ((∀ r ∈ t, r.ofUser user → r.count = 1) ∧ t' = deleteWhere (UserCount.ofUser user) t)

/-- The rows of the counter agree; the schema has no key on the user. -/
def Agrees (user : CString) (t : Multiset UserCount) : Prop :=
  ∀ r ∈ t, ∀ s ∈ t, r.ofUser user → s.ofUser user → r.count = s.count

/-- The counter as `cancel_share_file` lowers it. -/
abbrev LoweredInt (user : CString) : Multiset UserCount → Multiset UserCount → Prop :=
  LoweredTo user toInt32 prev

section Lowered
variable {user : CString} {t t' : Multiset UserCount} {read prev' : ℤ → ℤ}

theorem lowered_row (h : LoweredTo user read prev' t t') : ∃ r ∈ t, r.ofUser user := by
  cases h with
  | last r hr hu _ => exact ⟨r, hr, hu⟩
  | less r hr hu _ => exact ⟨r, hr, hu⟩

theorem loweredInt_ne (ht : ∀ r ∈ t, IsInt r.count) (h : LoweredInt user t t') : t' ≠ t := by
  cases h with
  | last r hr hu _ =>
    intro heq
    have hmem := hr
    rw [← heq, mem_deleteWhere, hu] at hmem
    exact absurd hmem.2 (by decide)
  | less r hr hu _ =>
    apply updateWhere_ne hr hu
    intro s _ _ heq
    exact prev_ne (ht r hr) (congrArg UserCount.count heq)

/-- The counters agree and are not the smallest `int`. -/
def CanLower (user : CString) (t : Multiset UserCount) : Prop :=
  Agrees user t ∧ ∀ r ∈ t, r.ofUser user → -2 ^ 31 < r.count

theorem oneLess_iff (ht : ∀ r ∈ t, IsInt r.count) (h : LoweredInt user t t') :
    OneLess user t t' ↔ CanLower user t := by
  cases h with
  | last r hr hu h1 =>
    rw [toInt32_of_isInt (ht r hr)] at h1
    constructor
    · rintro (heq | ⟨hall, -⟩)
      · exact absurd heq (deleteWhere_ne_updateWhere hr hu)
      · refine ⟨fun a ha b hb hau hbu => ?_, fun a ha hau => ?_⟩
        · rw [hall a ha hau, hall b hb hbu]
        · rw [hall a ha hau]
          decide
    · rintro ⟨hagree, -⟩
      refine .inr ⟨fun s hs hsu => ?_, rfl⟩
      rw [hagree s hs r hr hsu hu, h1]
  | less r hr hu h1 =>
    have hiff : updateWhere (UserCount.ofUser user) (fun s => { s with count := prev r.count }) t =
        updateWhere (UserCount.ofUser user) (fun s => { s with count := s.count - 1 }) t ↔
          ∀ s ∈ t, s.ofUser user → s.count - 1 = prev r.count := by
      apply updateWhere_eq_iff UserCount.count (c := prev r.count)
      · exact fun _ => rfl
      · exact fun _ hs => hs
      · intro s hs
        simp only at hs
        rw [hs]
    constructor
    · rintro (heq | ⟨-, heq⟩)
      · have hall := hiff.mp heq
        have hself := hall r hr hu
        obtain ⟨hlow, hprev⟩ | ⟨hmin, hprev⟩ := prev_eq (ht r hr)
        · refine ⟨fun a ha b hb hau hbu => ?_, fun a ha hau => ?_⟩
          · have h₁ := hall a ha hau
            have h₂ := hall b hb hbu
            omega
          · have h₁ := hall a ha hau
            omega
        · omega
      · exact absurd heq.symm (deleteWhere_ne_updateWhere hr hu)
    · rintro ⟨hagree, hlow⟩
      refine .inl (hiff.mpr fun s hs hsu => ?_)
      obtain ⟨-, hprev⟩ | ⟨hmin, -⟩ := prev_eq (ht r hr)
      · rw [hagree s hs r hr hsu hu, hprev]
      · exact absurd hmin (hlow r hr hu).ne'

end Lowered

section Handlers
variable (user md5 filename : CString) (d : Disk)

/-! ## Viewing -/

/-- The `pv` of the share and its cached score go up by one; a share that has no cached
score gets one. -/
structure Viewed (d' : Disk) : Prop where
  pv : d'.shareFileList = updateWhere (DiskState.ShareFile.isNamed md5 filename)
    (fun r => { r with pv := r.pv + 1 }) d.shareFileList
  score : ∀ r ∈ d.shareFileList, r.isNamed md5 filename →
    scoreOf d'.redis (md5 ++ filename) =
      some ((scoreOf d.redis (md5 ++ filename)).getD r.pv + 1)

structure PvRight (ret : ℤ) (d' : Disk) : Prop where
  reply : pvFileStatus ret = .c016 ↔ ∃ r ∈ d.shareFileList, r.isNamed md5 filename
  effect : pvFileStatus ret = .c016 → Viewed md5 filename d d'
  failure : pvFileStatus ret = .c017 → d' = d

/-- There is no such share, or its rows agree on a `pv` that is not the largest `int`,
`ZLEXCOUNT` answers zero and the score that the cache has nevertheless is the `pv`. -/
def PvCondition : Prop :=
  (∀ r ∈ d.shareFileList, r.isNamed md5 filename = false) ∨
  ∃ pv : ℤ, pv < 2 ^ 31 - 1 ∧ (∃ r ∈ d.shareFileList, r.isNamed md5 filename) ∧
    (∀ r ∈ d.shareFileList, r.isNamed md5 filename → r.pv = pv) ∧
    zsetExit d (md5 ++ filename) = 0 ∧
    ∀ s, scoreOf d.redis (md5 ++ filename) = some s → s = pv

/-! ## Withdrawing -/

structure Withdrawn (d' : Disk) : Prop where
  row : d'.shareFileList = deleteWhere (DiskState.ShareFile.isRow user md5 filename) d.shareFileList
  flag : d'.userFileList = setSharedStatus user md5 filename 0 d.userFileList
  count : OneLess shareCountKey d.userFileCount d'.userFileCount
  score : scoreOf d'.redis (md5 ++ filename) = none
  name : nameOf d'.redis (md5 ++ filename) = none

structure CancelRight (ret : ℤ) (d' : Disk) : Prop where
  reply : cancelShareFileStatus ret = .c018 ↔ ∃ r ∈ d.shareFileList, r.isRow user md5 filename
  effect : cancelShareFileStatus ret = .c018 → Withdrawn user md5 filename d d'
  failure : cancelShareFileStatus ret = .c019 → d' = d

/-- The share is counted, by a counter that can be lowered, and cached under both keys, or
there is no share, no counter and no row marked as shared. -/
def CancelCondition : Prop :=
  ((∃ r ∈ d.shareFileList, r.isRow user md5 filename) ∧
    (∃ r ∈ d.userFileCount, r.ofUser shareCountKey) ∧ CanLower shareCountKey d.userFileCount ∧
    (scoreOf d.redis (md5 ++ filename)).isSome ∧ (nameOf d.redis (md5 ++ filename)).isSome) ∨
  ((∀ r ∈ d.shareFileList, r.isRow user md5 filename = false) ∧
    (∀ r ∈ d.userFileCount, r.ofUser shareCountKey = false) ∧
    ∀ r ∈ d.userFileList, r.isRow user md5 filename → r.sharedStatus = 0)

end Handlers

section Proofs
variable {user md5 filename : CString} {d d' : Disk} {n : ℤ}

theorem pvFileStatus_success : pvFileStatus n = .c016 ↔ n = 0 := by
  unfold pvFileStatus
  split <;> simp_all

theorem pvFileStatus_failure : pvFileStatus n = .c017 ↔ n ≠ 0 := by
  unfold pvFileStatus
  split <;> simp_all

theorem cancelStatus_success : cancelShareFileStatus n = .c018 ↔ n = 0 := by
  unfold cancelShareFileStatus
  split <;> simp_all

theorem cancelStatus_failure : cancelShareFileStatus n = .c019 ↔ n ≠ 0 := by
  unfold cancelShareFileStatus
  split <;> simp_all

theorem zset_of_zsetExit {id : CString} (h : zsetExit d id = 0) :
    d.redis filePublicZset = none ∨ ∃ z, d.redis filePublicZset = some (.zset z) := by
  unfold zsetExit at h
  split at h
  next hz => exact .inl hz
  next z hz => exact .inr ⟨z, hz⟩
  · simp at h

theorem pv_refused (hr : ∃ r ∈ d.shareFileList, r.isNamed md5 filename)
    (hz : zsetExit d (md5 ++ filename) ≠ 0) (hn : n ≠ 0) :
    PvRight md5 filename d n d' ↔ PvCondition md5 filename d := by
  constructor
  · intro h
    exact absurd (pvFileStatus_success.mp (h.reply.mpr hr)) hn
  · rintro (hnone | ⟨pv, -, -, -, h0, -⟩)
    · exact absurd hr (none_iff_not_exists.mp hnone)
    · exact absurd h0 hz

theorem setSharePv_eq_iff {t : Multiset DiskState.ShareFile} {r : DiskState.ShareFile}
    (ht : ∀ q ∈ t, IsInt q.pv) (hr : r ∈ t) (hm : r.isNamed md5 filename) :
    setSharePv md5 filename (next r.pv) t = updateWhere (DiskState.ShareFile.isNamed md5 filename)
      (fun q => { q with pv := q.pv + 1 }) t ↔
        r.pv < 2 ^ 31 - 1 ∧ ∀ q ∈ t, q.isNamed md5 filename → q.pv = r.pv := by
  have h : setSharePv md5 filename (next r.pv) t =
      updateWhere (DiskState.ShareFile.isNamed md5 filename)
        (fun q => { q with pv := q.pv + 1 }) t ↔
      ∀ q ∈ t, q.isNamed md5 filename → q.pv + 1 = next r.pv := by
    apply updateWhere_eq_iff DiskState.ShareFile.pv (c := next r.pv)
    · exact fun _ => rfl
    · exact fun _ hs => hs
    · intro s hs
      simp only at hs
      rw [hs]
  rw [h]
  obtain ⟨hlt, hnext⟩ | ⟨hmax, hnext⟩ := next_eq (ht r hr)
  · simp only [hnext, add_left_inj, hlt, true_and]
  · refine iff_of_false (fun hall => ?_) (by omega)
    have hself := hall r hr hm
    omega

theorem pv_right_iff (hd : ∀ r ∈ d.shareFileList, IsInt r.pv)
    (h : PvFileTo md5 filename next d n d') :
    PvRight md5 filename d n d' ↔ PvCondition md5 filename d := by
  cases h with
  | unshared hn =>
    refine iff_of_true ⟨?_, ?_, fun _ => rfl⟩ (.inl hn)
    · rw [pvFileStatus_success]
      simpa using none_iff_not_exists.mp hn
    · intro h
      simp [pvFileStatus] at h
  | confused h0 h1 r hr hm => exact pv_refused ⟨r, hr, hm⟩ h0 (by decide)
  | bumped hz r hr hm k => exact pv_refused ⟨r, hr, hm⟩ (by rw [hz]; decide) (by decide)
  | cached hz r hr hm k l =>
    have hscore : scoreOf (afterRedis l (.hset fileNameHash (md5 ++ filename) filename)
        (afterRedis k (.zadd filePublicZset (next r.pv) (md5 ++ filename))
          { d with shareFileList := setSharePv md5 filename (next r.pv) d.shareFileList })).redis
            (md5 ++ filename) = some (next r.pv) :=
      (scoreOf_congr hset_zset_key).trans (scoreOf_zadd (zset_of_zsetExit hz))
    have hraised : r.pv < 2 ^ 31 - 1 → next r.pv = r.pv + 1 := by
      intro hlt
      obtain ⟨-, hnext⟩ | ⟨hmax, -⟩ := next_eq (hd r hr)
      · exact hnext
      · omega
    constructor
    · intro h
      have hviewed := h.effect (by simp [pvFileStatus])
      obtain ⟨hlt, hpv⟩ := (setSharePv_eq_iff hd hr hm).mp hviewed.pv
      refine .inr ⟨r.pv, hlt, ⟨r, hr, hm⟩, hpv, hz, fun s hs => ?_⟩
      have hafter := hviewed.score r hr hm
      rw [hscore, hs, hraised hlt] at hafter
      simpa using hafter.symm
    · rintro (hnone | ⟨pv, hlt, -, hpv, -, hs⟩)
      · simp [hnone r hr] at hm
      · obtain rfl := hpv r hr hm
        refine ⟨?_, fun _ => ⟨(setSharePv_eq_iff hd hr hm).mpr ⟨hlt, hpv⟩, fun q hq hqm => ?_⟩, ?_⟩
        · exact iff_of_true (by simp [pvFileStatus]) ⟨r, hr, hm⟩
        · rw [hscore, hraised hlt, hpv q hq hqm]
          cases hold : scoreOf d.redis (md5 ++ filename) with
          | none => rfl
          | some s =>
            obtain rfl := hs s hold
            rfl
        · intro h
          simp [pvFileStatus] at h

theorem cancelShareFileIn_result (int : ℤ → ℤ) (user md5 filename : CString) (d : Disk) :
    Spec Cmd.exec NoFail (cancelShareFileIn int user md5 filename) d fun n _ => n = 0 ↔
      (∃ r ∈ d.userFileCount, r.ofUser shareCountKey) ∧
        (scoreOf d.redis (md5 ++ filename)).isSome ∧
        (nameOf d.redis (md5 ++ filename)).isSome := by
  unfold cancelShareFileIn
  refine spec_ropConnect ?_ NoFail.elim
  refine spec_msqlConn ?_ NoFail.elim
  apply spec_setNames
  intro _
  refine spec_mysqlQuery (fun _ => rfl) ?_ NoFail.elim
  refine spec_lowerUserCountIn int (fun t ht => ?_) fun hn => ?_
  · have hrow : ∃ r ∈ d.userFileCount, r.ofUser shareCountKey := lowered_row ht
    refine spec_mysqlQuery (fun _ => rfl) ?_ NoFail.elim
    refine spec_ropWantsOne (fun k n hn => ?_) NoFail.elim
    have hscore : n = 0 ↔ (scoreOf d.redis (md5 ++ filename)).isSome :=
      hn.trans zrem_answers_one
    by_cases h0 : n = 0
    · rw [if_neg (not_not.mpr h0), ← bind_pure (ropHashDel _ _)]
      refine spec_ropWantsOne (fun l m hm => spec_ret ?_) NoFail.elim
      have hname : m = 0 ↔ (nameOf d.redis (md5 ++ filename)).isSome := by
        rw [hm.trans hdel_answers_one]
        exact iff_of_eq (congrArg (fun o => Option.isSome o = true) (nameOf_congr zrem_hash_key))
      rw [hname]
      simp [hrow, hscore.mp h0]
    · rw [if_pos h0]
      refine spec_ret (iff_of_false h0 ?_)
      rintro ⟨-, hs, -⟩
      exact h0 (hscore.mpr hs)
  · refine spec_ret (iff_of_false (by decide) ?_)
    rintro ⟨⟨r, hr, hu⟩, -⟩
    have := hn r hr
    simp [hu] at this

/-- Every way `cancel_share_file` can end, with its counter in an `int`. -/
abbrev CancelShareFileInt (user md5 filename : CString) : Disk → ℤ → Disk → Prop :=
  CancelShareFileTo user md5 filename (LoweredInt shareCountKey)

theorem cancel_right_listed (hd : ∀ r ∈ d.userFileCount, IsInt r.count)
    (h : CancelShareFileInt user md5 filename d n d')
    (hret : n = 0 ↔ (∃ r ∈ d.userFileCount, r.ofUser shareCountKey) ∧
      (scoreOf d.redis (md5 ++ filename)).isSome ∧ (nameOf d.redis (md5 ++ filename)).isSome)
    (hrow : ∃ r ∈ d.shareFileList, r.isRow user md5 filename) :
    CancelRight user md5 filename d n d' ↔ CancelCondition user md5 filename d := by
  constructor
  · intro hright
    have hn := cancelStatus_success.mp (hright.reply.mpr hrow)
    obtain ⟨hcount, hscore, hname⟩ := hret.mp hn
    have hdone := (hright.effect (cancelStatus_success.mpr hn)).count
    refine .inl ⟨hrow, hcount, ?_, hscore, hname⟩
    subst hn
    cases h with
    | uncached t ht k m hm => exact absurd rfl hm
    | cancelled t ht k l m => exact (oneLess_iff hd ht).mp hdone
  · rintro (⟨-, hcount, hagree, hscore, hname⟩ | ⟨hnone, -⟩)
    · have hn := hret.mpr ⟨hcount, hscore, hname⟩
      refine ⟨iff_of_true (cancelStatus_success.mpr hn) hrow, fun _ => ?_, fun hf => ?_⟩
      · subst hn
        cases h with
        | uncached t ht k m hm => exact absurd rfl hm
        | cancelled t ht k l m =>
          exact ⟨rfl, rfl, (oneLess_iff hd ht).mpr hagree,
            (scoreOf_congr hdel_zset_key).trans scoreOf_zrem, nameOf_hdel_self⟩
      · exact absurd hn (cancelStatus_failure.mp hf)
    · exact absurd hrow (none_iff_not_exists.mp hnone)

theorem cancel_right_unlisted (hd : ∀ r ∈ d.userFileCount, IsInt r.count)
    (h : CancelShareFileInt user md5 filename d n d')
    (hrow : ¬ ∃ r ∈ d.shareFileList, r.isRow user md5 filename) :
    CancelRight user md5 filename d n d' ↔ CancelCondition user md5 filename d := by
  have hnone := none_iff_not_exists.mpr hrow
  constructor
  · intro hright
    have hn : n ≠ 0 := fun h0 => hrow (hright.reply.mp (cancelStatus_success.mpr h0))
    have hsame := hright.failure (cancelStatus_failure.mpr hn)
    refine .inr ⟨hnone, ?_⟩
    cases h with
    | uncounted hcount =>
      exact ⟨hcount, setSharedStatus_eq_iff.mp (congrArg Disk.userFileList hsame)⟩
    | uncached t ht k m hm => exact absurd (congrArg Disk.userFileCount hsame) (loweredInt_ne hd ht)
    | cancelled t ht k l m => exact absurd (congrArg Disk.userFileCount hsame) (loweredInt_ne hd ht)
  · rintro (⟨hshare, -⟩ | ⟨-, hcount, hflag⟩)
    · exact absurd hshare hrow
    · have hnocount := none_iff_not_exists.mp hcount
      cases h with
      | uncounted _ =>
        refine ⟨iff_of_false (by decide) hrow, fun hs => ?_, fun _ => ?_⟩
        · simp [cancelShareFileStatus] at hs
        · rw [setSharedStatus_eq_iff.mpr hflag]
      | uncached t ht k m hm => exact absurd (lowered_row ht) hnocount
      | cancelled t ht k l m => exact absurd (lowered_row ht) hnocount

theorem cancel_right_iff (hd : ∀ r ∈ d.userFileCount, IsInt r.count)
    (h : CancelShareFileInt user md5 filename d n d')
    (hret : n = 0 ↔ (∃ r ∈ d.userFileCount, r.ofUser shareCountKey) ∧
      (scoreOf d.redis (md5 ++ filename)).isSome ∧ (nameOf d.redis (md5 ++ filename)).isSome) :
    CancelRight user md5 filename d n d' ↔ CancelCondition user md5 filename d := by
  by_cases hrow : ∃ r ∈ d.shareFileList, r.isRow user md5 filename
  · exact cancel_right_listed hd h hret hrow
  · exact cancel_right_unlisted hd h hrow

end Proofs

/-- With no failure, each handler keeps its promise exactly under its condition. -/
theorem share_replies_right_iff (user md5 filename : CString) (d : IntDisk) (e : ℕ → Outcome)
    (he : ∀ i, NoFail (e i)) :
    (PvRight md5 filename d ((pvFileIn toInt32 md5 filename).run Cmd.exec e d).1
        ((pvFileIn toInt32 md5 filename).run Cmd.exec e d).2 ↔ PvCondition md5 filename d) ∧
    (CancelRight user md5 filename d
        ((cancelShareFileIn toInt32 user md5 filename).run Cmd.exec e d).1
        ((cancelShareFileIn toInt32 user md5 filename).run Cmd.exec e d).2 ↔
      CancelCondition user md5 filename d) := by
  constructor
  · exact pv_right_iff d.2.shares (pvFileIn_effect md5 filename toInt32 d e he)
  · exact cancel_right_iff d.2.users (cancelShareFileIn_effect user md5 filename toInt32 d e he)
      (cancelShareFileIn_result toInt32 user md5 filename d e he)

/-- One file that `u` shares, with the given views and cache. -/
def sharedOnce (pv : ℤ) (z : SortedSets.SortedSet) : Disk where
  fileInfo := 0
  userFileList := {⟨cstr "u", cstr "1", cstr "t", cstr "a", 1, 0⟩}
  shareFileList := {⟨cstr "u", cstr "1", cstr "t", cstr "a", pv⟩}
  userFileCount := {⟨shareCountKey, 1⟩}
  storage := ∅
  redis := Function.update (Function.update (fun _ => none) filePublicZset (some (.zset z)))
    fileNameHash (some (.hash [(cstr "1a", cstr "a")]))

theorem sharedOnce_columns {pv : ℤ} (h : IsInt pv) (z : SortedSets.SortedSet) :
    IntColumns (sharedOnce pv z) where
  files r hr := by simp [sharedOnce] at hr
  users r hr := by
    rw [Multiset.mem_singleton.mp hr]
    decide
  shares r hr := by
    rw [Multiset.mem_singleton.mp hr]
    exact h

/-- Both handlers succeed where the viewed share is in the set but overlooked there. -/
theorem share_replies_right_overlooked :
    let d := sharedOnce 1 (viewedOnce (cstr "1b") (cstr "1a") (by decide))
    PvRight (cstr "1") (cstr "a") d
        ((pvFileIn toInt32 (cstr "1") (cstr "a")).run Cmd.exec (fun _ => .ok 0) d).1
        ((pvFileIn toInt32 (cstr "1") (cstr "a")).run Cmd.exec (fun _ => .ok 0) d).2 ∧
      CancelRight (cstr "u") (cstr "1") (cstr "a") d
        ((cancelShareFileIn toInt32 (cstr "u") (cstr "1") (cstr "a")).run Cmd.exec
          (fun _ => .ok 0) d).1
        ((cancelShareFileIn toInt32 (cstr "u") (cstr "1") (cstr "a")).run Cmd.exec
          (fun _ => .ok 0) d).2 := by
  intro d
  have hiff := share_replies_right_iff (cstr "u") (cstr "1") (cstr "a")
    ⟨d, sharedOnce_columns (by decide) _⟩ (fun _ => .ok 0) fun _ => by simp [NoFail]
  have hscore : scoreOf d.redis (cstr "1" ++ cstr "a") = some 1 := by decide
  have hname : nameOf d.redis (cstr "1" ++ cstr "a") = some (cstr "a") := by decide
  have hexit : zsetExit d (cstr "1" ++ cstr "a") = 0 := by decide
  constructor
  · refine hiff.1.mpr
      (.inr ⟨1, by decide, ⟨_, Multiset.mem_singleton_self _, by decide⟩, ?_, hexit, ?_⟩)
    · intro r hr _
      rw [Multiset.mem_singleton.mp hr]
    · intro s hs
      simpa [hscore] using hs.symm
  · refine hiff.2.mpr (.inl ⟨⟨_, Multiset.mem_singleton_self _, by decide⟩,
      ⟨_, Multiset.mem_singleton_self _, by decide⟩, ?_, by simp [hscore], by simp [hname]⟩)
    refine ⟨fun r hr s hs _ _ => ?_, fun r hr _ => ?_⟩
    · rw [Multiset.mem_singleton.mp hr, Multiset.mem_singleton.mp hs]
    · rw [Multiset.mem_singleton.mp hr]
      decide

/-- Where the cache lists the file, viewing fails and has raised `pv` all the same. -/
theorem pvFile_listed {md5 filename : CString} {d : Disk}
    (hd : ∀ r ∈ d.shareFileList, IsInt r.pv) (hz : zsetExit d (md5 ++ filename) = 1)
    (hrow : ∃ r ∈ d.shareFileList, r.isNamed md5 filename) :
    Spec Cmd.exec NoFail (pvFileIn toInt32 md5 filename) d fun n d' =>
      n = -1 ∧ d'.shareFileList ≠ d.shareFileList := by
  refine (pvFileIn_effect md5 filename toInt32 d).mono fun n d' h => ?_
  cases h with
  | unshared hn => exact absurd hrow (none_iff_not_exists.mp hn)
  | confused h0 h1 r hr hm => exact absurd hz h1
  | cached h0 r hr hm k l => simp [hz] at h0
  | bumped _ r hr hm k =>
    refine ⟨rfl, ?_⟩
    apply updateWhere_ne hr hm
    intro s _ _ heq
    exact next_ne (hd r hr) (congrArg DiskState.ShareFile.pv heq)

def cachedShare : Disk := sharedOnce 1 (viewedOnce (cstr "1") (cstr "1a") (by decide))

/-- A share with an agreeing cache: viewing it answers a failure after raising `pv`, and
`v`, who has not shared it, withdraws it with success. -/
theorem share_replies_wrong :
    (∃ r ∈ cachedShare.shareFileList, r.isNamed (cstr "1") (cstr "a")) ∧
    (¬ ∃ r ∈ cachedShare.shareFileList, r.isRow (cstr "v") (cstr "1") (cstr "a")) ∧
    ∃ e : ℕ → Outcome, (∀ i, NoFail (e i)) ∧
      pvFileStatus ((pvFileIn toInt32 (cstr "1") (cstr "a")).run Cmd.exec e cachedShare).1 = .c017 ∧
      ((pvFileIn toInt32 (cstr "1") (cstr "a")).run Cmd.exec e cachedShare).2.shareFileList ≠
        cachedShare.shareFileList ∧
      cancelShareFileStatus
        ((cancelShareFileIn toInt32 (cstr "v") (cstr "1") (cstr "a")).run Cmd.exec e
          cachedShare).1 = .c018 := by
  have he : ∀ i : ℕ, NoFail ((fun _ => .ok 0 : ℕ → Outcome) i) := fun _ => by simp [NoFail]
  have hrow : ∃ r ∈ cachedShare.shareFileList, r.isNamed (cstr "1") (cstr "a") :=
    ⟨_, Multiset.mem_singleton_self _, by decide⟩
  have hcount : ∃ r ∈ cachedShare.userFileCount, r.ofUser shareCountKey :=
    ⟨_, Multiset.mem_singleton_self _, by decide⟩
  have hlisted : zsetExit cachedShare (cstr "1" ++ cstr "a") = 1 := by decide
  have hcolumns : IntColumns cachedShare := sharedOnce_columns (by decide) _
  have hpv := pvFile_listed hcolumns.shares hlisted hrow (fun _ => .ok 0) he
  have hcancel := cancelShareFileIn_result toInt32 (cstr "v") (cstr "1") (cstr "a") cachedShare
    (fun _ => .ok 0) he
  refine ⟨hrow, ?_, fun _ => .ok 0, he, ?_, hpv.2, ?_⟩
  · rintro ⟨r, hr, hv⟩
    rw [Multiset.mem_singleton.mp hr] at hv
    exact absurd hv (by decide)
  · rw [pvFileStatus_failure, hpv.1]
    decide
  · rw [cancelStatus_success]
    exact hcancel.mpr ⟨hcount, by decide, by decide⟩

end ShareReplies
