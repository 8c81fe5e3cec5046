import CloudDisk.CacheEntries
import CloudDisk.ShareLedger

/-! # The cached ranking and the list of shares

The sorted set should give every share its `pv` under the id `md5 ++ filename`, and the
hash the file name. The handlers keep both up one command at a time. What survives is that
the cache never contains anything wrong: entries may be missing, and the reader only
compares how many there are. -/
namespace RankingCache

open ByteStrings CommandPrograms RowTables SortedSets DiskState HandlerRules HandlerEffects
  DiskCalls ReferenceCounts ShareLedger CacheEntries

abbrev Shares := Multiset DiskState.ShareFile

def fileid (r : DiskState.ShareFile) : CString := r.md5 ++ r.filename

/-- A cached score is the `pv` of a share with that id, whose name the hash knows. -/
def Right (shares : Shares) (s : Redis) (p : ℤ) (id : CString) : Prop :=
  ∃ r ∈ shares, fileid r = id ∧ r.pv = p ∧ nameOf s id = some r.filename

structure Cached (shares : Shares) (s : Redis) : Prop where
  kinds : Kinds s
  right : ∀ p id, (p, id) ∈ zsetPairs s → Right shares s p id

section Cache
variable {shares : Shares} {s : Redis} {id : CString} {k l : ℕ}

theorem cached_put {r : DiskState.ShareFile} (hs : Kinds s) (hr : r ∈ shares)
    (hold : ∀ p id, (p, id) ∈ zsetPairs s → id ≠ fileid r → Right shares s p id) :
    Cached shares ((RedisCmd.hset fileNameHash (fileid r) r.filename).exec l
      ((RedisCmd.zadd filePublicZset r.pv (fileid r)).exec k s).2).2 := by
  have hzadd : ZsetOnly s ((RedisCmd.zadd filePublicZset r.pv (fileid r)).exec k s).2 :=
    zadd_only hs
  have hkinds := hzadd.kinds hs
  have hhset : HashOnly ((RedisCmd.zadd filePublicZset r.pv (fileid r)).exec k s).2
      ((RedisCmd.hset fileNameHash (fileid r) r.filename).exec l _).2 := hset_only hkinds
  refine ⟨hhset.kinds hkinds, fun p id hp => ?_⟩
  rw [hhset.zsetPairs, mem_zadd hs] at hp
  by_cases hid : id = fileid r
  · rcases hp with ⟨-, rfl⟩ | ⟨hne, -⟩
    · refine ⟨r, hr, hid.symm, rfl, ?_⟩
      rw [nameOf_hset hkinds, if_pos hid]
    · exact absurd hid hne
  · rcases hp with ⟨heq, -⟩ | ⟨-, hp⟩
    · exact absurd heq hid
    · obtain ⟨q, hq, hqid, hpv, hname⟩ := hold p id hp hid
      refine ⟨q, hq, hqid, hpv, ?_⟩
      rw [nameOf_hset hkinds, if_neg hid, hzadd.nameOf]
      exact hname

theorem cached_zrem (hs : Kinds s)
    (hold : ∀ p i, (p, i) ∈ zsetPairs s → i ≠ id → Right shares s p i) :
    Cached shares ((RedisCmd.zrem filePublicZset id).exec k s).2 := by
  have hzrem : ZsetOnly s ((RedisCmd.zrem filePublicZset id).exec k s).2 := zrem_only hs
  refine ⟨hzrem.kinds hs, fun p i hp => ?_⟩
  obtain ⟨hne, hp⟩ := (mem_zrem hs).mp hp
  obtain ⟨q, hq, hqid, hpv, hname⟩ := hold p i hp hne
  exact ⟨q, hq, hqid, hpv, (hzrem.nameOf i).trans hname⟩

theorem Cached.hdel (h : Cached shares s) (hno : ∀ p, (p, id) ∉ zsetPairs s) :
    Cached shares ((RedisCmd.hdel fileNameHash id).exec k s).2 := by
  have hhdel : HashOnly s ((RedisCmd.hdel fileNameHash id).exec k s).2 := hdel_only h.kinds
  refine ⟨hhdel.kinds h.kinds, fun p i hp => ?_⟩
  rw [hhdel.zsetPairs] at hp
  obtain ⟨q, hq, hqid, hpv, hname⟩ := h.right p i hp
  refine ⟨q, hq, hqid, hpv, ?_⟩
  rw [nameOf_hdel h.kinds, if_neg]
  · exact hname
  · rintro rfl
    exact hno p hp

theorem notMem_zrem (hs : Kinds s) (p : ℤ) :
    (p, id) ∉ zsetPairs ((RedisCmd.zrem filePublicZset id).exec k s).2 := by
  rw [mem_zrem hs]
  exact fun h => h.1 rfl

theorem cached_none (hs : Kinds s) (hz : s filePublicZset = none) : Cached shares s := by
  refine ⟨hs, fun p id hp => ?_⟩
  simp [zsetPairs, hz] at hp

end Cache

theorem mem_of_zsetExit {d : Disk} {id : CString} (h : zsetExit d id = 1) :
    ∃ p, (p, id) ∈ zsetPairs d.redis := by
  by_contra hno
  unfold zsetExit at h
  split at h
  · simp at h
  next z hz =>
    have habs : ∀ p, (p, id) ∉ z.pairs := by
      intro p hp
      exact hno ⟨p, by simpa [zsetPairs, hz] using hp⟩
    rw [SortedSet.lexCount_absent habs] at h
    simp at h
  · simp at h

structure RankInv (d : Disk) : Prop where
  ledger : Ledger d
  distinct : ∀ r ∈ d.shareFileList, ∀ q ∈ d.shareFileList, fileid r = fileid q → r = q
  fits : ∀ r ∈ d.shareFileList, FitsBuffer 256 r.md5 ∧ FitsBuffer 256 r.filename
  pv : ∀ r ∈ d.shareFileList, 0 ≤ r.pv ∧ r.pv < 2 ^ 31
  cached : Cached d.shareFileList d.redis

section Steps
variable {now user md5 filename : CString} {d d' : Disk} {n : ℤ}

theorem RankInv.sameShares (h : RankInv d) (hl : Ledger d')
    (hs : d'.shareFileList = d.shareFileList) (hr : d'.redis = d.redis) : RankInv d' := by
  refine ⟨hl, ?_, ?_, ?_, ?_⟩
  · rw [hs]; exact h.distinct
  · rw [hs]; exact h.fits
  · rw [hs]; exact h.pv
  · rw [hs, hr]; exact h.cached

theorem RankInv.recache (h : RankInv d) {redis : Redis} (hc : Cached d.shareFileList redis) :
    RankInv { d with redis } :=
  ⟨h.ledger.redis redis, h.distinct, h.fits, h.pv, hc⟩

theorem RankInv.fewer (h : RankInv d) (hl : Ledger d')
    (hs : ∀ r ∈ d'.shareFileList, r ∈ d.shareFileList)
    (hc : Cached d'.shareFileList d'.redis) : RankInv d' :=
  ⟨hl, fun r hr q hq => h.distinct r (hs r hr) q (hs q hq), fun r hr => h.fits r (hs r hr),
    fun r hr => h.pv r (hs r hr), hc⟩

theorem Right.unshare {s : Redis} {p : ℤ} {id : CString} {shares : Shares}
    (h : Right shares s p id) (hne : id ≠ md5 ++ filename) :
    Right (deleteWhere (DiskState.ShareFile.isRow user md5 filename) shares) s p id := by
  obtain ⟨r, hr, hid, hpv, hname⟩ := h
  refine ⟨r, mem_deleteWhere.mpr ⟨hr, ?_⟩, hid, hpv, hname⟩
  by_contra hrow
  obtain ⟨-, hm, hf⟩ := shareRow_iff.mp (by simpa using hrow)
  exact hne (by rw [← hid, fileid, hm, hf])

theorem rank_cancelShareFile (h : RankInv d)
    (ha : ShareLedger.Allowed d (.cancelShareFile user md5 filename))
    (he : CancelShareFile user md5 filename d n d') : RankInv d' := by
  have hl := ledger_cancelShareFile h.ledger ha he
  have hzrem : ∀ k, Cached
      (deleteWhere (DiskState.ShareFile.isRow user md5 filename) d.shareFileList)
      ((RedisCmd.zrem filePublicZset (md5 ++ filename)).exec k d.redis).2 :=
    fun k => cached_zrem h.cached.kinds fun p i hp hne => (h.cached.right p i hp).unshare hne
  cases he with
  | uncounted _ => exact h.sameShares hl rfl rfl
  | uncached t ht k m hm => exact h.fewer hl (fun r hr => (mem_deleteWhere.mp hr).1) (hzrem k)
  | cancelled t ht k l m =>
    exact h.fewer hl (fun r hr => (mem_deleteWhere.mp hr).1)
      ((hzrem k).hdel (notMem_zrem h.cached.kinds))

theorem Right.mono {s : Redis} {p : ℤ} {id : CString} {shares : Shares} {q : DiskState.ShareFile}
    (h : Right shares s p id) : Right (q ::ₘ shares) s p id := by
  obtain ⟨r, hr, hrest⟩ := h
  exact ⟨r, Multiset.mem_cons_of_mem hr, hrest⟩

/-- Sharing keeps the cache right when the strings fit, no other share has the same id, and
a share that is put back into the set has not been viewed and still has its name. -/
structure ShareKeeps (d : Disk) (md5 filename : CString) : Prop where
  fits : FitsBuffer 256 md5 ∧ FitsBuffer 256 filename
  alone : ∀ r ∈ d.shareFileList, fileid r = md5 ++ filename → r.isNamed md5 filename
  unviewed : zsetExit d (md5 ++ filename) = 0 → ∀ r ∈ d.shareFileList,
    r.isNamed md5 filename → r.pv = 0 ∧ nameOf d.redis (md5 ++ filename) = some filename

theorem isNamed_fileid {r : DiskState.ShareFile} (h : r.isNamed md5 filename) :
    fileid r = md5 ++ filename := by
  simp only [DiskState.ShareFile.isNamed, decide_eq_true_eq] at h
  rw [fileid, h.1, h.2]

theorem rank_shareFile (h : RankInv d)
    (ha : ShareLedger.Allowed d (.shareFile now user md5 filename))
    (hk : ShareKeeps d md5 filename)
    (he : HandlerEffects.ShareFile now user md5 filename d n d') : RankInv d' := by
  have hl := ledger_shareFile h.ledger ha he
  cases he with
  | already _ => exact h
  | confused _ _ => exact h
  | readded hz r hr hm k =>
    obtain ⟨hpv, hname⟩ := hk.unviewed hz r hr hm
    have hzadd : ZsetOnly d.redis
        ((RedisCmd.zadd filePublicZset 0 (md5 ++ filename)).exec k d.redis).2 :=
      zadd_only h.cached.kinds
    refine h.recache ⟨hzadd.kinds h.cached.kinds, fun p id hp => ?_⟩
    rcases (mem_zadd h.cached.kinds).mp hp with ⟨rfl, rfl⟩ | ⟨-, hp⟩
    · refine ⟨r, hr, isNamed_fileid hm, hpv, ?_⟩
      simp only [DiskState.ShareFile.isNamed, decide_eq_true_eq] at hm
      rw [hzadd.nameOf, hname, hm.2]
    · obtain ⟨q, hq, hqid, hqpv, hqname⟩ := h.cached.right p id hp
      exact ⟨q, hq, hqid, hqpv, (hzadd.nameOf id).trans hqname⟩
  | shared hz hn t ht k l =>
    have hother : ∀ r ∈ d.shareFileList, fileid r ≠ md5 ++ filename := by
      intro r hr hid
      have := hk.alone r hr hid
      simp [hn r hr] at this
    refine ⟨hl, ?_, ?_, ?_, ?_⟩
    · intro r hr q hq hid
      rcases Multiset.mem_cons.mp hr with hr | hr <;> rcases Multiset.mem_cons.mp hq with hq | hq
      · rw [hr, hq]
      · exact absurd (hid.symm.trans (congrArg fileid hr)) (hother q hq)
      · exact absurd (hid.trans (congrArg fileid hq)) (hother r hr)
      · exact h.distinct r hr q hq hid
    · intro r hr
      rcases Multiset.mem_cons.mp hr with rfl | hr
      · exact hk.fits
      · exact h.fits r hr
    · intro r hr
      rcases Multiset.mem_cons.mp hr with rfl | hr
      · exact ⟨Int.le_refl 0, show (0 : ℤ) < 2 ^ 31 by decide⟩
      · exact h.pv r hr
    · exact cached_put (r := ⟨user, md5, now, filename, 0⟩) h.cached.kinds
        (Multiset.mem_cons_self _ _) fun p id hp _ => (h.cached.right p id hp).mono

/-- A deletion that unshares without touching the cache relies on the cache not listing
the file. -/
def DelKeeps (d : Disk) (user md5 filename : CString) : Prop :=
  zsetExit d (md5 ++ filename) = 0 → Shared d user md5 filename →
    ∀ p, (p, md5 ++ filename) ∉ zsetPairs d.redis

theorem rank_unshared (h : RankInv d) (hk : DelKeeps d user md5 filename) {flag b : Bool}
    (hm : ShareMark user md5 filename d (some (1, flag)))
    (hu : Unshared user md5 filename flag d b d') : Cached d'.shareFileList d'.redis ∧
      ∀ r ∈ d'.shareFileList, r ∈ d.shareFileList := by
  have hkept : ∀ p i, (p, i) ∈ zsetPairs d.redis → i ≠ md5 ++ filename →
      Right (deleteWhere (DiskState.ShareFile.isRow user md5 filename) d.shareFileList)
        d.redis p i := fun p i hp hne => (h.cached.right p i hp).unshare hne
  cases hu with
  | uncounted hn =>
    have hnone : deleteWhere (DiskState.ShareFile.isRow user md5 filename) d.shareFileList =
        d.shareFileList := by simp [h.ledger.no_shares hn, deleteWhere]
    refine ⟨?_, fun r hr => (mem_deleteWhere.mp hr).1⟩
    change Cached (deleteWhere _ d.shareFileList) d.redis
    rw [hnone]
    exact h.cached
  | counted r hr hkey redis hs =>
    refine ⟨?_, fun r hr => (mem_deleteWhere.mp hr).1⟩
    cases flag with
    | true =>
      rw [hs, if_pos rfl]
      exact (cached_zrem h.cached.kinds hkept).hdel (notMem_zrem h.cached.kinds)
    | false =>
      rw [hs, if_neg (by decide)]
      generalize ho : some ((1 : ℤ), false) = o at hm
      cases hm with
      | status hz q hq hqr =>
        have hone : q.sharedStatus = 1 := by simp at ho; exact ho.symm
        obtain ⟨rfl, rfl, rfl⟩ := userRow_iff.mp hqr
        have hshared := (h.ledger.status q hq).mp hone
        refine ⟨h.cached.kinds, fun p i hp => hkept p i hp ?_⟩
        rintro rfl
        exact hk hz hshared p hp
      | listed _ => simp at ho
      | absent _ _ => simp at ho
      | confused _ _ => simp at ho

theorem rank_delFile (h : RankInv d)
    (ha : ShareLedger.Allowed d (.delFile user md5 filename))
    (hk : DelKeeps d user md5 filename) (he : DelFile user md5 filename d n d') :
    RankInv d' := by
  have hl := ledger_delFile h.ledger ha he
  have hcleared : ∀ e, Cleared user md5 filename d e → Cached e.shareFileList e.redis ∧
      ∀ r ∈ e.shareFileList, r ∈ d.shareFileList := by
    intro e hc
    cases hc with
    | unshared share flag _ _ => exact ⟨h.cached, fun _ hr => hr⟩
    | shared flag hm _ hu => exact rank_unshared h hk hm hu
  cases he with
  | confused _ => exact h
  | stuck flag hm _ hu =>
    obtain ⟨hc, hs⟩ := rank_unshared h hk hm hu
    exact h.fewer hl hs hc
  | uncounted _ hc _ =>
    obtain ⟨hc, hs⟩ := hcleared _ hc
    exact h.fewer hl hs hc
  | deleted e hc t ht b _ hr =>
    obtain ⟨hc, hs⟩ := hcleared _ hc
    have hsame : d'.shareFileList = e.shareFileList ∧ d'.redis = e.redis := by
      cases hr <;> exact ⟨rfl, rfl⟩
    apply h.fewer hl
    · rw [hsame.1]; exact hs
    · rw [hsame.1, hsame.2]; exact hc

/-- Viewing keeps the cache right unless the membership test counts several or `pv` overflows. -/
structure PvKeeps (d : Disk) (md5 filename : CString) : Prop where
  answer : (∃ r ∈ d.shareFileList, r.isNamed md5 filename) →
    zsetExit d (md5 ++ filename) = 0 ∨ zsetExit d (md5 ++ filename) = 1
  below : ∀ r ∈ d.shareFileList, r.isNamed md5 filename → r.pv < 2 ^ 31 - 1

theorem mem_setSharePv {pv : ℤ} {shares : Shares} {r : DiskState.ShareFile} :
    r ∈ setSharePv md5 filename pv shares ↔
      (∃ q ∈ shares, q.isNamed md5 filename ∧ { q with pv } = r) ∨
      (r ∈ shares ∧ r.isNamed md5 filename = false) := mem_updateWhere

theorem ledger_setSharePv (h : Ledger d) (pv : ℤ) :
    Ledger { d with shareFileList := setSharePv md5 filename pv d.shareFileList } := by
  have hcount : ∀ u m f, countWhere (DiskState.ShareFile.isRow u m f)
      (HandlerEffects.setSharePv md5 filename pv d.shareFileList) =
      countWhere (DiskState.ShareFile.isRow u m f) d.shareFileList :=
    fun u m f => countWhere_update fun _ _ => rfl
  have hshared : ∀ u m f, (∃ r ∈ HandlerEffects.setSharePv md5 filename pv d.shareFileList,
      r.isRow u m f) ↔ Shared d u m f := by
    intro u m f
    rw [← countWhere_pos, hcount, countWhere_pos]
    rfl
  refine ⟨fun u m f => (hcount u m f).le.trans (h.once u m f),
    fun u m f hs => h.listed u m f ((hshared u m f).mp hs),
    fun r hr => (h.status r hr).trans (hshared _ _ _).symm, ?_, h.users⟩
  change Counted _ _ _ (Multiset.card (updateWhere _ _ _))
  rw [updateWhere, Multiset.card_map]
  exact h.counter

theorem RankInv.setSharePv (h : RankInv d) {r : DiskState.ShareFile} (hr : r ∈ d.shareFileList)
    (hlt : r.pv < 2 ^ 31 - 1) {redis : Redis}
    (hc : Cached (setSharePv md5 filename (r.pv + 1) d.shareFileList) redis) :
    RankInv { d with
      shareFileList := setSharePv md5 filename (r.pv + 1) d.shareFileList
      redis } := by
  refine ⟨(ledger_setSharePv h.ledger _).redis _, ?_, ?_, ?_, hc⟩
  · intro a ha b hb hid
    rcases mem_setSharePv.mp ha with ⟨a', ha', ham, rfl⟩ | ⟨ha, ham⟩ <;>
      rcases mem_setSharePv.mp hb with ⟨b', hb', hbm, rfl⟩ | ⟨hb, hbm⟩
    · rw [h.distinct a' ha' b' hb' hid]
    · rw [h.distinct a' ha' b hb hid] at ham
      simp [hbm] at ham
    · rw [← h.distinct a ha b' hb' hid] at hbm
      simp [ham] at hbm
    · exact h.distinct a ha b hb hid
  · intro a ha
    rcases mem_setSharePv.mp ha with ⟨a', ha', -, rfl⟩ | ⟨ha, -⟩
    · exact h.fits a' ha'
    · exact h.fits a ha
  · intro a ha
    rcases mem_setSharePv.mp ha with ⟨a', ha', -, rfl⟩ | ⟨ha, -⟩
    · exact ⟨Int.add_nonneg (h.pv r hr).1 Int.one_nonneg, Int.add_lt_of_lt_sub_right hlt⟩
    · exact h.pv a ha

theorem right_setSharePv (h : RankInv d) (pv : ℤ) {p : ℤ} {id : CString}
    (hp : (p, id) ∈ zsetPairs d.redis) (hne : id ≠ md5 ++ filename) :
    Right (setSharePv md5 filename pv d.shareFileList) d.redis p id := by
  obtain ⟨q, hq, hqid, hqpv, hqname⟩ := h.cached.right p id hp
  refine ⟨q, mem_setSharePv.mpr (.inr ⟨hq, ?_⟩), hqid, hqpv, hqname⟩
  by_contra hm
  exact hne (hqid.symm.trans (isNamed_fileid (by simpa using hm)))

theorem pvFile_of_below (h : RankInv d) (hk : PvKeeps d md5 filename)
    (he : PvFileTo md5 filename next d n d') : PvFile md5 filename d n d' := by
  have hnext : ∀ r ∈ d.shareFileList, r.isNamed md5 filename → next r.pv = r.pv + 1 := by
    intro r hr hm
    have hlt := hk.below r hr hm
    have hint : CheckedCode.IsInt r.pv := ⟨by have := (h.pv r hr).1; omega, (h.pv r hr).2⟩
    obtain ⟨-, heq⟩ | ⟨hmax, -⟩ := next_eq hint
    · exact heq
    · omega
  cases he with
  | unshared hn => exact .unshared hn
  | confused h0 h1 r hr hm =>
    rw [hnext r hr hm]
    exact .confused h0 h1 r hr hm
  | bumped hz r hr hm k =>
    rw [hnext r hr hm]
    exact .bumped hz r hr hm k
  | cached hz r hr hm k l =>
    rw [hnext r hr hm]
    exact .cached hz r hr hm k l

theorem rank_pvFile (h : RankInv d) (hk : PvKeeps d md5 filename)
    (he : PvFileTo md5 filename next d n d') : RankInv d' := by
  cases pvFile_of_below h hk he with
  | unshared _ => exact h
  | confused h0 h1 r hr hm =>
    rcases hk.answer ⟨r, hr, hm⟩ with hz | hz
    · exact absurd hz h0
    · exact absurd hz h1
  | bumped hz r hr hm k =>
    apply h.setSharePv hr (hk.below r hr hm)
    obtain ⟨q, hq⟩ := mem_of_zsetExit hz
    obtain ⟨r', hr', hid', hpv', hname'⟩ := h.cached.right q _ hq
    obtain rfl := h.distinct r' hr' r hr (hid'.trans (isNamed_fileid hm).symm)
    have hincr : ZsetOnly d.redis
        ((RedisCmd.zincrby filePublicZset (md5 ++ filename)).exec k d.redis).2 :=
      zincrby_only h.cached.kinds
    refine ⟨hincr.kinds h.cached.kinds, fun p id hp => ?_⟩
    rcases (mem_zincrby h.cached.kinds hq).mp hp with ⟨rfl, rfl⟩ | ⟨hne, hp⟩
    · refine ⟨{ r' with pv := r'.pv + 1 }, mem_setSharePv.mpr (.inl ⟨r', hr, hm, rfl⟩), hid',
        ?_, ?_⟩
      · rw [hpv']
      · exact (hincr.nameOf _).trans hname'
    · obtain ⟨a, ha, haid, hapv, haname⟩ := right_setSharePv h (r'.pv + 1) hp hne
      exact ⟨a, ha, haid, hapv, (hincr.nameOf id).trans haname⟩
  | cached hz r hr hm k l =>
    apply h.setSharePv hr (hk.below r hr hm)
    obtain ⟨rfl, rfl⟩ : r.md5 = md5 ∧ r.filename = filename := by
      simpa [DiskState.ShareFile.isNamed] using hm
    exact cached_put (r := { r with pv := r.pv + 1 }) h.cached.kinds
      (mem_setSharePv.mpr (.inl ⟨r, hr, hm, rfl⟩)) fun p id hp hne => right_setSharePv h _ hp hne

end Steps

end RankingCache
