import CloudDisk.AbstractDisk
import CloudDisk.CallSequences
import CloudDisk.DiskTexts
import CloudDisk.FileListings
import CloudDisk.LexCounts
import CloudDisk.RankingCache
import CloudDisk.ShareReplies
import Mathlib.Data.Finset.Card

/-! # The handlers implement the cloud disk

The tables, the stored objects and the cache against the files and shares of the abstract disk.
While nothing fails and the callers keep to their own files, every answer is the one that the
abstract disk gives. Files that have been viewed are left out, since the membership test in the
cache relies on equal scores. -/
namespace DiskRefinement

open ByteStrings CommandPrograms CallSequences RowTables SortedSets DiskState HandlerRules
  HandlerEffects DiskCalls DiskTexts ReferenceCounts ShareLedger CacheEntries
open AbstractDisk (File)
open PrintedReplies (joinedRow)

def step : Call → AbstractDisk.Disk → ℤ × AbstractDisk.Disk
  | .upload _ user md5 filename _ _ _, a => (0, a.add ⟨user, md5, filename⟩)
  | .dealMd5 _ user md5 filename, a =>
    if ¬ a.Known md5 then (-3, a)
    else if ⟨user, md5, filename⟩ ∈ a.files then (-2, a)
    else (0, a.add ⟨user, md5, filename⟩)
  | .saveFile _ user md5 filename, a =>
    if ⟨user, md5, filename⟩ ∈ a.files then (-2, a)
    else if ¬ a.Known md5 then (-1, a)
    else (0, a.add ⟨user, md5, filename⟩)
  | .shareFile _ user md5 filename, a =>
    if a.Shown ⟨user, md5, filename⟩ then (-2, a) else (0, a.share ⟨user, md5, filename⟩)
  | .cancelShareFile user md5 filename, a => (0, a.withdraw ⟨user, md5, filename⟩)
  | .delFile user md5 filename, a => (0, a.remove ⟨user, md5, filename⟩)

/-- MD5 sums are 32 digits. Contents that nobody has are uploaded, under a new object name; users
share and delete their own files, withdraw their own shares, and do not delete a file that somebody
else shows. Nobody is called like the share counter. -/
def Allowed (d : Disk) (a : AbstractDisk.Disk) : Call → Prop
  | .upload _ user md5 _ _ fileid _ =>
    user ≠ shareCountKey ∧ md5.length = 32 ∧ ¬ a.Known md5 ∧ fileid ∉ d.storage
  | .dealMd5 _ user md5 _ | .saveFile _ user md5 _ => user ≠ shareCountKey ∧ md5.length = 32
  | .shareFile _ user md5 filename => ⟨user, md5, filename⟩ ∈ a.files
  | .cancelShareFile user md5 filename => ⟨user, md5, filename⟩ ∈ a.shares
  | .delFile user md5 filename => ⟨user, md5, filename⟩ ∈ a.files ∧
      ∀ s ∈ a.shares, s.Alike ⟨user, md5, filename⟩ → s.user = user

def userEntry (r : UserFile) : File := ⟨r.user, r.md5, r.filename⟩

def shareEntry (r : DiskState.ShareFile) : File := ⟨r.user, r.md5, r.filename⟩

def fileid (e : File) : CString := e.md5 ++ e.filename

/-- One entry of the cache for each share, with the score zero. -/
structure Caches (s : Redis) (shares : Finset File) : Prop where
  kinds : Kinds s
  entries : ∀ p id, (p, id) ∈ zsetPairs s ↔ p = 0 ∧ ∃ e ∈ shares, fileid e = id
  names : ∀ id name, nameOf s id = some name ↔ ∃ e ∈ shares, fileid e = id ∧ e.filename = name

structure Stores (base : Finset CString) (d : Disk) : Prop where
  objects : ∀ id, id ∈ d.storage ↔ id ∈ base ∨ ∃ r ∈ d.fileInfo, r.fileId = id
  apart : ∀ r ∈ d.fileInfo, r.fileId ∉ base

/-- The state of the servers stands for the abstract disk. -/
structure Represents (base : Finset CString) (d : Disk) (a : AbstractDisk.Disk) : Prop where
  files : d.userFileList.map userEntry = a.files.val
  shares : d.shareFileList.map shareEntry = a.shares.val
  exact : Exact d
  ledger : Ledger d
  caches : Caches d.redis a.shares
  stores : Stores base d
  users : ∀ e ∈ a.files, e.user ≠ shareCountKey
  sums : ∀ e ∈ a.files, e.md5.length = 32

/-! ## Rows and entries -/

section Rows
variable {user md5 filename : CString}

theorem isRow_entry {r : UserFile} :
    r.isRow user md5 filename = true ↔ userEntry r = ⟨user, md5, filename⟩ := by
  simp [UserFile.isRow, userEntry]

theorem isRow_shareEntry {r : DiskState.ShareFile} :
    r.isRow user md5 filename = true ↔ shareEntry r = ⟨user, md5, filename⟩ := by
  simp [DiskState.ShareFile.isRow, shareEntry]

theorem map_updateWhere {α β : Type} {g : α → β} {p : α → Bool} {f : α → α}
    (h : ∀ r, g (f r) = g r) (t : Multiset α) : (updateWhere p f t).map g = t.map g := by
  rw [updateWhere, Multiset.map_map]
  apply Multiset.map_congr rfl
  intro r _
  by_cases hp : p r
  · simp [hp, h]
  · simp [hp]

theorem map_deleteWhere {α β : Type} [DecidableEq β] {g : α → β} {p : α → Bool} {b : β}
    {s : Finset β} {t : Multiset α} (hp : ∀ r, p r = true ↔ g r = b) (ht : t.map g = s.val) :
    (deleteWhere p t).map g = (s.erase b).val := by
  have hfilter : (t.filter fun r => ¬ p r = true) = t.filter fun r => ¬ g r = b :=
    Multiset.filter_congr fun r _ => not_congr (hp r)
  calc (deleteWhere p t).map g = (t.filter fun r => ¬ g r = b).map g := by
        rw [deleteWhere, hfilter]
    _ = (t.map g).filter fun x => ¬ x = b := by
        rw [Multiset.filter_map]
        rfl
    _ = (s.erase b).val := by
        rw [ht, ← Finset.filter_ne']
        rfl

variable {d : Disk} {a : AbstractDisk.Disk}

theorem mem_files (h : d.userFileList.map userEntry = a.files.val) :
    ⟨user, md5, filename⟩ ∈ a.files ↔ ∃ r ∈ d.userFileList, r.isRow user md5 filename := by
  rw [← Finset.mem_val, ← h, Multiset.mem_map]
  simp only [isRow_entry]

theorem mem_shares (h : d.shareFileList.map shareEntry = a.shares.val) :
    ⟨user, md5, filename⟩ ∈ a.shares ↔ Shared d user md5 filename := by
  rw [← Finset.mem_val, ← h, Multiset.mem_map]
  simp only [Shared, isRow_shareEntry]

end Rows

/-! ## The cache -/

section Cache
variable {s : Redis} {shares : Finset File} {e : File} {k l : ℕ}

theorem Caches.put (h : Caches s shares) (hnew : ∀ x ∈ shares, fileid x ≠ fileid e) :
    Caches ((RedisCmd.hset fileNameHash (fileid e) e.filename).exec l
      ((RedisCmd.zadd filePublicZset 0 (fileid e)).exec k s).2).2 (insert e shares) := by
  have hzadd : ZsetOnly s ((RedisCmd.zadd filePublicZset 0 (fileid e)).exec k s).2 :=
    zadd_only h.kinds
  have hkinds := hzadd.kinds h.kinds
  have hhset : HashOnly ((RedisCmd.zadd filePublicZset 0 (fileid e)).exec k s).2
      ((RedisCmd.hset fileNameHash (fileid e) e.filename).exec l _).2 := hset_only hkinds
  refine ⟨hhset.kinds hkinds, fun p id => ?_, fun id name => ?_⟩
  · rw [hhset.zsetPairs, mem_zadd h.kinds, h.entries]
    constructor
    · rintro (⟨rfl, rfl⟩ | ⟨-, hp, x, hx, hid⟩)
      · exact ⟨rfl, e, Finset.mem_insert_self e shares, rfl⟩
      · exact ⟨hp, x, Finset.mem_insert_of_mem hx, hid⟩
    · rintro ⟨hp, x, hx, hid⟩
      rcases Finset.mem_insert.mp hx with rfl | hx
      · exact Or.inl ⟨hid.symm, hp⟩
      · exact Or.inr ⟨fun heq => hnew x hx (hid.trans heq), hp, x, hx, hid⟩
  · rw [nameOf_hset hkinds, hzadd.nameOf]
    by_cases hid : id = fileid e
    · rw [if_pos hid]
      constructor
      · intro hname
        exact ⟨e, Finset.mem_insert_self e shares, hid.symm, Option.some.inj hname⟩
      · rintro ⟨x, hx, hxid, rfl⟩
        rcases Finset.mem_insert.mp hx with rfl | hx
        · rfl
        · exact absurd (hxid.trans hid) (hnew x hx)
    · rw [if_neg hid, h.names]
      constructor
      · rintro ⟨x, hx, hrest⟩
        exact ⟨x, Finset.mem_insert_of_mem hx, hrest⟩
      · rintro ⟨x, hx, hxid, hname⟩
        rcases Finset.mem_insert.mp hx with rfl | hx
        · exact absurd hxid.symm hid
        · exact ⟨x, hx, hxid, hname⟩

theorem Caches.drop (h : Caches s shares) (honly : ∀ x ∈ shares, fileid x = fileid e → x = e) :
    Caches ((RedisCmd.hdel fileNameHash (fileid e)).exec l
      ((RedisCmd.zrem filePublicZset (fileid e)).exec k s).2).2 (shares.erase e) := by
  have hzrem : ZsetOnly s ((RedisCmd.zrem filePublicZset (fileid e)).exec k s).2 :=
    zrem_only h.kinds
  have hkinds := hzrem.kinds h.kinds
  have hhdel : HashOnly ((RedisCmd.zrem filePublicZset (fileid e)).exec k s).2
      ((RedisCmd.hdel fileNameHash (fileid e)).exec l _).2 := hdel_only hkinds
  have hother : ∀ x ∈ shares, x ∈ shares.erase e ↔ fileid x ≠ fileid e := by
    intro x hx
    rw [Finset.mem_erase]
    exact ⟨fun hne heq => hne.1 (honly x hx heq), fun hne => ⟨fun heq => hne (heq ▸ rfl), hx⟩⟩
  refine ⟨hhdel.kinds hkinds, fun p id => ?_, fun id name => ?_⟩
  · rw [hhdel.zsetPairs, mem_zrem h.kinds, h.entries]
    constructor
    · rintro ⟨hne, hp, x, hx, rfl⟩
      exact ⟨hp, x, (hother x hx).mpr hne, rfl⟩
    · rintro ⟨hp, x, hx, rfl⟩
      have hmem := Finset.mem_of_mem_erase hx
      exact ⟨(hother x hmem).mp hx, hp, x, hmem, rfl⟩
  · rw [nameOf_hdel hkinds, hzrem.nameOf]
    by_cases hid : id = fileid e
    · rw [if_pos hid]
      constructor
      · intro hname
        exact absurd hname (by simp)
      · rintro ⟨x, hx, hxid, -⟩
        exact absurd (hxid.trans hid) ((hother x (Finset.mem_of_mem_erase hx)).mp hx)
    · rw [if_neg hid, h.names]
      constructor
      · rintro ⟨x, hx, rfl, hname⟩
        exact ⟨x, (hother x hx).mpr hid, rfl, hname⟩
      · rintro ⟨x, hx, hrest⟩
        exact ⟨x, Finset.mem_of_mem_erase hx, hrest⟩

/-- With equal scores the sorted set is sorted by its members, and the test is right. -/
theorem Caches.zsetExit {d : Disk} (h : Caches d.redis shares) (id : CString) :
    (zsetExit d id = 1 ∧ ∃ e ∈ shares, fileid e = id) ∨
      (zsetExit d id = 0 ∧ ∀ e ∈ shares, fileid e ≠ id) := by
  have hentries := h.entries
  simp only [zsetPairs] at hentries
  rw [HandlerRules.zsetExit]
  rcases h.kinds.zset with hz | ⟨z, hz⟩
  · simp only [hz] at hentries ⊢
    refine Or.inr ⟨trivial, fun e he hid => ?_⟩
    exact absurd ((hentries 0 id).mpr ⟨rfl, e, he, hid⟩) List.not_mem_nil
  · simp only [hz] at hentries ⊢
    have hzero : ∀ x ∈ z.entries, x.score = 0 := fun x hx =>
      ((hentries x.score x.member).mp (SortedSet.mem_pairs.mpr ⟨x, hx, rfl, rfl⟩)).1
    have hsorted : (z.entries.map Entry.member).Pairwise (· ≤ ·) := by
      refine List.pairwise_map.mpr ((List.pairwise_map.mp z.sorted).imp_of_mem ?_)
      intro x y hx hy hle
      rw [Entry.key, Entry.key, hzero x hx, hzero y hy, Prod.Lex.toLex_le_toLex] at hle
      rcases hle with hlt | ⟨-, hle⟩
      · exact absurd hlt (lt_irrefl 0)
      · exact hle
    have hcount := (LexCounts.lexCount_member_iff z id).mpr
      fun b x a hsplit _ => LexCounts.exposed_of_sorted hsorted hsplit
    by_cases hscore : (z.score? id).isSome
    · obtain ⟨p, hp⟩ := Option.isSome_iff_exists.mp hscore
      rw [if_pos hscore] at hcount
      exact Or.inl ⟨hcount, ((hentries p id).mp (SortedSet.score?_eq_some.mp hp)).2⟩
    · rw [if_neg hscore] at hcount
      refine Or.inr ⟨hcount, fun e he hid => hscore ?_⟩
      exact Option.isSome_iff_exists.mpr
        ⟨0, SortedSet.score?_eq_some.mpr ((hentries 0 id).mpr ⟨rfl, e, he, hid⟩)⟩

end Cache

/-! ## What the handlers look at -/

section Views
variable {base : Finset CString} {d : Disk} {a : AbstractDisk.Disk} {user md5 filename : CString}
  {e : File}

theorem alike_of_fileid {x y : File} (hx : x.md5.length = 32) (hy : y.md5.length = 32)
    (h : fileid x = fileid y) : x.Alike y :=
  List.append_inj h (hx.trans hy.symm)

theorem eq_of_alike {x y : File} (huser : x.user = y.user) (h : x.Alike y) : x = y := by
  cases x
  cases y
  simp only [File.mk.injEq]
  exact ⟨huser, h⟩

theorem fileid_of_alike {x y : File} (h : x.Alike y) : fileid x = fileid y := by
  rw [fileid, fileid, h.1, h.2]

theorem Represents.known_iff (h : Represents base d a) :
    a.Known md5 ↔ ∃ r ∈ d.fileInfo, r.hasMd5 md5 := by
  have hcount : a.Known md5 ↔ 0 < references d md5 := by
    rw [references, countWhere_pos]
    constructor
    · rintro ⟨e, he, rfl⟩
      obtain ⟨r, hr, hrow⟩ := (mem_files h.files).mp he
      exact ⟨r, hr, isRow_refersTo r hrow⟩
    · rintro ⟨r, hr, hm⟩
      have hmem : userEntry r ∈ a.files := by
        rw [← Finset.mem_val, ← h.files]
        exact Multiset.mem_map_of_mem userEntry hr
      exact ⟨userEntry r, hmem, of_decide_eq_true hm⟩
  rw [hcount]
  constructor
  · exact (h.exact.files md5).exists_mem
  · rintro ⟨r, hr, hm⟩
    exact ((h.exact.files md5).of_mem hr hm).2.2

theorem Represents.named_iff (h : Represents base d a) :
    a.Shown ⟨user, md5, filename⟩ ↔ ∃ r ∈ d.shareFileList, r.isNamed md5 filename := by
  constructor
  · rintro ⟨s, hs, hm, hf⟩
    obtain ⟨r, hr, hrow⟩ := (mem_shares h.shares).mp hs
    obtain ⟨-, hrm, hrf⟩ := shareRow_iff.mp hrow
    exact ⟨r, hr, decide_eq_true ⟨hrm.trans hm, hrf.trans hf⟩⟩
  · rintro ⟨r, hr, hm⟩
    have hmem : shareEntry r ∈ a.shares := by
      rw [← Finset.mem_val, ← h.shares]
      exact Multiset.mem_map_of_mem shareEntry hr
    exact ⟨shareEntry r, hmem, of_decide_eq_true hm⟩

theorem Represents.zsetExit (h : Represents base d a) (hlen : e.md5.length = 32) :
    (HandlerRules.zsetExit d (fileid e) = 1 ∧ a.Shown e) ∨
      (HandlerRules.zsetExit d (fileid e) = 0 ∧ ¬ a.Shown e) := by
  obtain ⟨hz, s, hs, hid⟩ | ⟨hz, hno⟩ := h.caches.zsetExit (fileid e)
  · exact Or.inl ⟨hz, s, hs, alike_of_fileid (h.sums s (a.owned hs)) hlen hid⟩
  · refine Or.inr ⟨hz, ?_⟩
    rintro ⟨s, hs, halike⟩
    exact hno s hs (fileid_of_alike halike)

theorem Represents.only (h : Represents base d a) (he : e ∈ a.shares) :
    ∀ x ∈ a.shares, fileid x = fileid e → x = e := fun x hx hid =>
  a.single x hx e he (alike_of_fileid (h.sums x (a.owned hx)) (h.sums e (a.owned he)) hid)

theorem Represents.card_shares (h : Represents base d a) :
    Multiset.card d.shareFileList = a.shares.card := by
  rw [← Multiset.card_map shareEntry, h.shares]
  rfl

theorem Represents.shareCounter (h : Represents base d a) (he : e ∈ a.shares) :
    ∃ r ∈ d.userFileCount, r.ofUser shareCountKey := by
  by_contra hnone
  have hzero := h.ledger.counter.of_none (none_iff_not_exists.mpr hnone)
  exact absurd (h.card_shares.symm.trans hzero) (Finset.card_ne_zero_of_mem he)

end Views

/-! ## The calls -/

section Calls
variable {base : Finset CString} {d d' : Disk} {a : AbstractDisk.Disk}
  {now user md5 filename : CString} {n : ℤ}

theorem Represents.ledgerAllowed (h : Represents base d a) {c : Call} (hc : Allowed d a c) :
    ShareLedger.Allowed d c := by
  cases c with
  | upload now user md5 filename size id url =>
    refine ⟨hc.1, fun hshared => hc.2.2.1 ?_⟩
    exact ⟨⟨user, md5, filename⟩, a.owned ((mem_shares h.shares).mpr hshared), rfl⟩
  | dealMd5 now user md5 filename => exact hc.1
  | saveFile now user md5 filename => exact hc.1
  | shareFile now user md5 filename => exact fun _ _ => (mem_files h.files).mp hc
  | cancelShareFile user md5 filename => exact Or.inl ((mem_shares h.shares).mp hc)
  | delFile user md5 filename =>
    refine ⟨h.users _ hc.1, (mem_files h.files).mp hc.1, fun hz => Or.inl ?_⟩
    obtain ⟨-, s, hs, halike⟩ | ⟨hz0, -⟩ := h.zsetExit (h.sums _ hc.1)
    · exact (mem_shares h.shares).mp (eq_of_alike (hc.2 s hs halike) halike ▸ hs)
    · exact absurd (hz.symm.trans hz0) (by decide)

/-- The calls keep the counters right; what is left is how the lists, the cache and the storage
follow the abstract disk. -/
theorem Represents.kept (h : Represents base d a) {c : Call} (hc : Allowed d a c)
    (he : c.Effect (c.arrive d) n d') : Exact d' ∧ Ledger d' := by
  have hcounts : ReferenceCounts.Allowed d c := by
    cases c with
    | upload now user md5 filename size id url =>
      exact ⟨hc.2.2.2, none_iff_not_exists.mpr fun hex => hc.2.2.1 (h.known_iff.mpr hex)⟩
    | delFile user md5 filename => exact (mem_files h.files).mp hc.1
    | dealMd5 | saveFile | shareFile | cancelShareFile => trivial
  exact ⟨exact_call h.exact hcounts he, ledger_call h.ledger (h.ledgerAllowed hc) he⟩

theorem Represents.addReference (h : Represents base d a) {files : Multiset FileInfo}
    {t : Multiset UserCount} {storage : Finset CString} (huser : user ≠ shareCountKey)
    (hlen : md5.length = 32) (hnew : ⟨user, md5, filename⟩ ∉ a.files)
    (hkept : Exact (addReference now user md5 filename { d with storage } files t) ∧
      Ledger (addReference now user md5 filename { d with storage } files t))
    (hstores : Stores base (addReference now user md5 filename { d with storage } files t)) :
    Represents base (addReference now user md5 filename { d with storage } files t)
      (a.add ⟨user, md5, filename⟩) where
  files := by
    change Multiset.map userEntry (_ ::ₘ d.userFileList) = (insert _ a.files).val
    rw [Multiset.map_cons, h.files, Finset.insert_val_of_notMem hnew]
    rfl
  shares := h.shares
  exact := hkept.1
  ledger := hkept.2
  caches := h.caches
  stores := hstores
  users := Finset.forall_mem_insert _ _ _ |>.mpr ⟨huser, h.users⟩
  sums := Finset.forall_mem_insert _ _ _ |>.mpr ⟨hlen, h.sums⟩

theorem mem_names_setFileCount {files : Multiset FileInfo} {m : ℤ} {id : CString} :
    (∃ r ∈ setFileCount md5 m files, r.fileId = id) ↔ ∃ r ∈ files, r.fileId = id := by
  have hmap : (setFileCount md5 m files).map FileInfo.fileId = files.map FileInfo.fileId :=
    map_updateWhere (p := FileInfo.hasMd5 md5) (f := fun r => { r with count := m })
      (fun _ => rfl) files
  rw [← Multiset.mem_map, hmap, Multiset.mem_map]

theorem Stores.recount (h : Stores base d) {d' : Disk} (md5 : CString) (m : ℤ)
    (hfiles : d'.fileInfo = setFileCount md5 m d.fileInfo) (hstorage : d'.storage = d.storage) :
    Stores base d' where
  objects id := by rw [hstorage, hfiles, mem_names_setFileCount, h.objects]
  apart r hr := by
    rw [hfiles] at hr
    obtain ⟨s, hs, k, rfl, -⟩ := mem_setFileCount hr
    exact h.apart s hs

theorem represents_upload (h : Represents base d a) {size : ℤ} {id url : CString}
    (hc : Allowed d a (.upload now user md5 filename size id url))
    (he : StoreFile now user md5 filename size id url
      { d with storage := insert id d.storage } n d') :
    n = 0 ∧ Represents base d' (a.add ⟨user, md5, filename⟩) := by
  have hkept := h.kept hc he
  obtain ⟨huser, hlen, hknown, hfresh⟩ := hc
  cases he with
  | stored t ht =>
    refine ⟨rfl, h.addReference huser hlen (fun hmem => hknown ⟨_, hmem, rfl⟩) hkept ⟨?_, ?_⟩⟩
    · intro x
      change x ∈ insert id d.storage ↔ x ∈ base ∨ ∃ r ∈ _ ::ₘ d.fileInfo, r.fileId = x
      rw [Finset.mem_insert, h.stores.objects]
      simp only [Multiset.mem_cons, exists_eq_or_imp]
      constructor
      · rintro (rfl | hbase | hold)
        · exact Or.inr (Or.inl rfl)
        · exact Or.inl hbase
        · exact Or.inr (Or.inr hold)
      · rintro (hbase | rfl | hold)
        · exact Or.inr (Or.inl hbase)
        · exact Or.inl rfl
        · exact Or.inr (Or.inr hold)
    · intro r hr
      rcases Multiset.mem_cons.mp hr with rfl | hr
      · exact fun hbase => hfresh ((h.stores.objects id).mpr (Or.inl hbase))
      · exact h.stores.apart r hr

theorem represents_added (h : Represents base d a) {r : FileInfo} {t : Multiset UserCount}
    (hc : user ≠ shareCountKey ∧ md5.length = 32) (hr : r ∈ d.fileInfo) (hm : r.hasMd5 md5)
    (hn : ∀ s ∈ d.userFileList, s.isRow user md5 filename = false)
    (hkept : Exact
        (addReference now user md5 filename d (setFileCount md5 (r.count + 1) d.fileInfo) t) ∧
      Ledger (addReference now user md5 filename d (setFileCount md5 (r.count + 1) d.fileInfo) t)) :
    a.Known md5 ∧ ⟨user, md5, filename⟩ ∉ a.files ∧
      Represents base
        (addReference now user md5 filename d (setFileCount md5 (r.count + 1) d.fileInfo) t)
        (a.add ⟨user, md5, filename⟩) := by
  have hnew : ⟨user, md5, filename⟩ ∉ a.files := fun hmem =>
    none_iff_not_exists.mp hn ((mem_files h.files).mp hmem)
  exact ⟨h.known_iff.mpr ⟨r, hr, hm⟩, hnew,
    h.addReference hc.1 hc.2 hnew hkept (h.stores.recount md5 (r.count + 1) rfl rfl)⟩

theorem represents_dealMd5 (h : Represents base d a)
    (hc : Allowed d a (.dealMd5 now user md5 filename))
    (he : DealMd5 now user md5 filename d n d') :
    n = (step (.dealMd5 now user md5 filename) a).1 ∧
      Represents base d' (step (.dealMd5 now user md5 filename) a).2 := by
  have hkept := h.kept hc he
  cases he with
  | unknown hn =>
    have hknown : ¬ a.Known md5 := fun hk => none_iff_not_exists.mp hn (h.known_iff.mp hk)
    rw [step, if_pos hknown]
    exact ⟨rfl, h⟩
  | owned r hr hu =>
    have hmem : ⟨user, md5, filename⟩ ∈ a.files := (mem_files h.files).mpr ⟨r, hr, hu⟩
    rw [step, if_neg (not_not_intro ⟨_, hmem, rfl⟩), if_pos hmem]
    exact ⟨rfl, h⟩
  | added r hr hm hn t ht =>
    obtain ⟨hknown, hnew, hrep⟩ := represents_added h hc hr hm hn hkept
    rw [step, if_neg (not_not_intro hknown), if_neg hnew]
    exact ⟨rfl, hrep⟩

theorem represents_saveFile (h : Represents base d a)
    (hc : Allowed d a (.saveFile now user md5 filename))
    (he : SaveFile now user md5 filename d n d') :
    n = (step (.saveFile now user md5 filename) a).1 ∧
      Represents base d' (step (.saveFile now user md5 filename) a).2 := by
  have hkept := h.kept hc he
  cases he with
  | owned r hr hu =>
    rw [step, if_pos ((mem_files h.files).mpr ⟨r, hr, hu⟩)]
    exact ⟨rfl, h⟩
  | unknown hn =>
    have hknown : ¬ a.Known md5 := fun hk => none_iff_not_exists.mp hn (h.known_iff.mp hk)
    rw [step, if_neg (fun hmem => hknown ⟨_, hmem, rfl⟩), if_pos hknown]
    exact ⟨rfl, h⟩
  | added r hr hm hn t ht =>
    obtain ⟨hknown, hnew, hrep⟩ := represents_added h hc hr hm hn hkept
    rw [step, if_neg hnew, if_neg (not_not_intro hknown)]
    exact ⟨rfl, hrep⟩

theorem map_setSharedStatus (status : ℤ) (t : Multiset UserFile) :
    (setSharedStatus user md5 filename status t).map userEntry = t.map userEntry :=
  map_updateWhere (f := fun r => { r with sharedStatus := status }) (fun _ => rfl) t

theorem represents_shareFile (h : Represents base d a)
    (hc : Allowed d a (.shareFile now user md5 filename))
    (he : HandlerEffects.ShareFile now user md5 filename d n d') :
    n = (step (.shareFile now user md5 filename) a).1 ∧
      Represents base d' (step (.shareFile now user md5 filename) a).2 := by
  have hkept := h.kept hc he
  have hcache := h.zsetExit (h.sums _ hc)
  rw [fileid] at hcache
  cases he with
  | already hz =>
    obtain ⟨-, hshown⟩ | ⟨hz0, -⟩ := hcache
    · rw [step, if_pos hshown]
      exact ⟨rfl, h⟩
    · exact absurd (hz.symm.trans hz0) (by decide)
  | confused h0 h1 =>
    obtain ⟨hz, -⟩ | ⟨hz, -⟩ := hcache
    · exact absurd hz h1
    · exact absurd hz h0
  | readded hz r hr hm k =>
    obtain ⟨hz1, -⟩ | ⟨-, hshown⟩ := hcache
    · exact absurd (hz.symm.trans hz1) (by decide)
    · exact absurd (h.named_iff.mpr ⟨r, hr, hm⟩) hshown
  | shared hz hn t ht k l =>
    obtain ⟨hz1, -⟩ | ⟨-, hshown⟩ := hcache
    · exact absurd (hz.symm.trans hz1) (by decide)
    · obtain ⟨hfiles, hshares⟩ := a.share_of hc hshown
      have hnew : ∀ x ∈ a.shares, fileid x ≠ fileid ⟨user, md5, filename⟩ := fun x hx hid =>
        hshown ⟨x, hx, alike_of_fileid (h.sums x (a.owned hx)) (h.sums _ hc) hid⟩
      rw [step, if_neg hshown]
      refine ⟨rfl, ?_, ?_, hkept.1, hkept.2, ?_, ⟨h.stores.objects, h.stores.apart⟩, ?_, ?_⟩
      · rw [hfiles]
        exact (map_setSharedStatus 1 d.userFileList).trans h.files
      · have hfresh : ⟨user, md5, filename⟩ ∉ a.shares := fun hmem => hnew _ hmem rfl
        rw [hshares, Finset.insert_val_of_notMem hfresh, ← h.shares]
        exact Multiset.map_cons shareEntry _ d.shareFileList
      · rw [hshares]
        exact h.caches.put hnew
      · rw [hfiles]
        exact h.users
      · rw [hfiles]
        exact h.sums

theorem represents_cancelShareFile (h : Represents base d a)
    (hc : Allowed d a (.cancelShareFile user md5 filename))
    (hanswer : n = 0 ↔ (∃ r ∈ d.userFileCount, r.ofUser shareCountKey) ∧
      (scoreOf d.redis (md5 ++ filename)).isSome ∧ (nameOf d.redis (md5 ++ filename)).isSome)
    (he : CancelShareFile user md5 filename d n d') :
    n = 0 ∧ Represents base d' (a.withdraw ⟨user, md5, filename⟩) := by
  have hkept := h.kept hc he
  have hcounter := h.shareCounter hc
  have hcached : (0, md5 ++ filename) ∈ zsetPairs d.redis :=
    (h.caches.entries _ _).mpr ⟨rfl, _, hc, rfl⟩
  have hname : nameOf d.redis (md5 ++ filename) = some filename :=
    (h.caches.names _ _).mpr ⟨_, hc, rfl, rfl⟩
  obtain rfl : n = 0 := hanswer.mpr
    ⟨hcounter, Option.isSome_iff_exists.mpr ⟨0, scoreOf_eq_some.mpr hcached⟩, by rw [hname]; rfl⟩
  cases he with
  | uncached t ht k m hm => exact absurd rfl hm
  | cancelled t ht k l m =>
    refine ⟨rfl, ?_, ?_, hkept.1, hkept.2, h.caches.drop (h.only hc),
      ⟨h.stores.objects, h.stores.apart⟩, h.users, h.sums⟩
    · exact (map_setSharedStatus 0 d.userFileList).trans h.files
    · exact map_deleteWhere (fun r => isRow_shareEntry) h.shares

/-! ### Deleting -/

/-- After the first half of `del_file` the file is no longer shown. -/
structure Hidden (d : Disk) (a : AbstractDisk.Disk) (d' : Disk) (e : File) : Prop where
  shares : d'.shareFileList.map shareEntry = (a.shares.erase e).val
  caches : Caches d'.redis (a.shares.erase e)
  users : d'.userFileList = d.userFileList
  infos : d'.fileInfo = d.fileInfo
  storage : d'.storage = d.storage

theorem Represents.not_marked (h : Represents base d a)
    (hc : Allowed d a (.delFile user md5 filename))
    (hm : ShareMark user md5 filename d (some (1, false))) : False := by
  generalize ho : some ((1 : ℤ), false) = o at hm
  cases hm with
  | listed hz => simp at ho
  | status hz r hr hu =>
    -- the status says that the file is shared, the cache that it is not
    have hone : r.sharedStatus = 1 := by simp at ho; exact ho.symm
    have hshared := (h.ledger.status r hr).mp hone
    obtain ⟨rfl, rfl, rfl⟩ := userRow_iff.mp hu
    obtain ⟨hz1, -⟩ | ⟨-, hshown⟩ := h.zsetExit (h.sums _ hc.1)
    · exact absurd (hz.symm.trans hz1) (by decide)
    · exact hshown ⟨_, (mem_shares h.shares).mpr hshared, rfl, rfl⟩
  | absent hz hn => simp at ho
  | confused h0 h1 => simp at ho

theorem Represents.shown_marked (h : Represents base d a)
    (hc : Allowed d a (.delFile user md5 filename)) {flag : Bool}
    (hm : ShareMark user md5 filename d (some (1, flag))) :
    flag = true ∧ ⟨user, md5, filename⟩ ∈ a.shares := by
  cases flag with
  | false => exact (h.not_marked hc hm).elim
  | true =>
    refine ⟨rfl, ?_⟩
    generalize ho : some ((1 : ℤ), true) = o at hm
    cases hm with
    | listed hz =>
      obtain ⟨-, s, hs, halike⟩ | ⟨hz0, -⟩ := h.zsetExit (h.sums _ hc.1)
      · exact eq_of_alike (hc.2 s hs halike) halike ▸ hs
      · exact absurd (hz.symm.trans hz0) (by decide)
    | status hz r hr hu => simp at ho
    | absent hz hn => simp at ho
    | confused h0 h1 => simp at ho

theorem Represents.hidden (h : Represents base d a)
    (hc : Allowed d a (.delFile user md5 filename)) (hclear : Cleared user md5 filename d d') :
    Hidden d a d' ⟨user, md5, filename⟩ := by
  cases hclear with
  | unshared share flag hm h1 =>
    have hno : ⟨user, md5, filename⟩ ∉ a.shares := fun hmem =>
      not_shared_of_mark h.ledger ((mem_files h.files).mp hc.1) hm h1
        ((mem_shares h.shares).mp hmem)
    have hsame := Finset.erase_eq_of_notMem hno
    exact ⟨by rw [hsame]; exact h.shares, by rw [hsame]; exact h.caches, rfl, rfl, rfl⟩
  | shared flag hm _ hu =>
    obtain ⟨rfl, hmem⟩ := h.shown_marked hc hm
    cases hu with
    | counted r hr hkey redis hs =>
      refine ⟨map_deleteWhere (fun r => isRow_shareEntry) h.shares, ?_, rfl, rfl, rfl⟩
      subst hs
      exact h.caches.drop (h.only hmem)

theorem Stores.released (h : Stores base d) (hx : Exact d) {s : FileInfo} (hs : s ∈ d.fileInfo)
    (hsm : s.hasMd5 md5) {d' : Disk}
    (hfiles : d'.fileInfo = deleteWhere (FileInfo.hasMd5 md5) d.fileInfo)
    (hstorage : d'.storage = d.storage.erase s.fileId) : Stores base d' where
  objects id := by
    rw [hstorage, hfiles, Finset.mem_erase, h.objects]
    simp only [mem_deleteWhere]
    constructor
    · rintro ⟨hne, hbase | ⟨r, hr, rfl⟩⟩
      · exact Or.inl hbase
      · refine Or.inr ⟨r, ⟨hr, Bool.eq_false_iff.mpr fun hrm => hne ?_⟩, rfl⟩
        rw [eq_of_countWhere_le_one (hx.files md5).count_le_one hr hs hrm hsm]
    · rintro (hbase | ⟨r, ⟨hr, hrm⟩, rfl⟩)
      · exact ⟨fun heq => h.apart s hs (heq ▸ hbase), Or.inl hbase⟩
      · refine ⟨fun heq => ?_, Or.inr ⟨r, hr, rfl⟩⟩
        have hmd5 := hx.separate r hr s hs heq
        rw [FileInfo.hasMd5, decide_eq_true_eq] at hsm
        exact absurd (decide_eq_true (hmd5.trans hsm)) (by rw [FileInfo.hasMd5] at hrm; simp [hrm])
  apart r hr := by
    rw [hfiles] at hr
    exact h.apart r (mem_deleteWhere.mp hr).1

theorem represents_released (h : Represents base d a)
    (hc : Allowed d a (.delFile user md5 filename))
    {e : Disk} (hhidden : Hidden d a e ⟨user, md5, filename⟩) {t : Multiset UserCount} {b : Bool}
    (hkept : Exact d' ∧ Ledger d') (hr : Released md5 (dropUserFile user md5 filename t e) b d') :
    b = true ∧ Represents base d' (a.remove ⟨user, md5, filename⟩) := by
  have hlists : (deleteWhere (UserFile.isRow user md5 filename) e.userFileList).map userEntry =
      (a.files.erase ⟨user, md5, filename⟩).val :=
    map_deleteWhere (fun r => isRow_entry) (hhidden.users ▸ h.files)
  have hrest : Stores base d' → d'.userFileList = _ → d'.shareFileList = e.shareFileList →
      d'.redis = e.redis → Represents base d' (a.remove ⟨user, md5, filename⟩) :=
    fun hstores huser hshare hredis =>
      { files := huser ▸ hlists
        shares := hshare ▸ hhidden.shares
        exact := hkept.1
        ledger := hkept.2
        caches := hredis ▸ hhidden.caches
        stores := hstores
        users := fun x hx => h.users x (Finset.mem_of_mem_erase hx)
        sums := fun x hx => h.sums x (Finset.mem_of_mem_erase hx) }
  have hinfo : ∀ r, r ∈ (dropUserFile user md5 filename t e).fileInfo ↔ r ∈ d.fileInfo := by
    intro r
    rw [← hhidden.infos]
    rfl
  cases hr with
  | missing hn =>
    obtain ⟨r, hr, hm⟩ := h.known_iff.mp ⟨_, hc.1, rfl⟩
    exact absurd hm (by rw [hn r ((hinfo r).mpr hr)]; decide)
  | kept r hr hm hcount =>
    refine ⟨rfl, hrest (h.stores.recount md5 (r.count - 1) ?_ hhidden.storage) rfl rfl rfl⟩
    rw [← hhidden.infos]
    rfl
  | dropped r s hr hm hcount hs hsm hst =>
    refine ⟨rfl, hrest (h.stores.released h.exact ((hinfo s).mp hs) hsm ?_ ?_) rfl rfl rfl⟩
    · rw [← hhidden.infos]
      rfl
    · rw [← hhidden.storage]
      rfl
  | lost r s hr hm hcount hs hsm hst =>
    apply absurd (h.exact.stored s ((hinfo s).mp hs))
    rw [← hhidden.storage]
    exact hst

theorem represents_delFile (h : Represents base d a)
    (hc : Allowed d a (.delFile user md5 filename)) (he : DelFile user md5 filename d n d') :
    n = 0 ∧ Represents base d' (a.remove ⟨user, md5, filename⟩) := by
  have hkept := h.kept hc he
  have hallowed := h.ledgerAllowed hc
  cases he with
  | confused hm =>
    cases hm with
    | confused h0 h1 =>
      obtain ⟨hz, -⟩ | ⟨hz, -⟩ := h.zsetExit (h.sums _ hc.1)
      · exact absurd hz h1
      · exact absurd hz h0
  | stuck flag hm _ hu =>
    cases hu with
    | uncounted hn =>
      exact absurd (h.shareCounter (h.shown_marked hc hm).2) (none_iff_not_exists.mp hn)
  | uncounted _ hclear hn =>
    obtain ⟨hunlisted, hlist⟩ := unlisted_cleared h.ledger hallowed hclear
    exact absurd (hunlisted.counted hallowed.1 (hlist ▸ hallowed.2.1)) (none_iff_not_exists.mp hn)
  | deleted e hclear t ht b _ hr =>
    obtain ⟨rfl, hrep⟩ := represents_released h hc (h.hidden hc hclear) hkept hr
    exact ⟨rfl, hrep⟩

end Calls

/-! ## Runs -/

def service : Service Call Cmd Reply Disk ℤ := ⟨Call.handler, Call.arrive⟩

theorem step_refines (base : Finset CString) (c : Call) (d : Disk) (a : AbstractDisk.Disk)
    (h : Represents base d a) (hc : Allowed d a c) :
    Spec Cmd.exec NoFail c.handler (c.arrive d)
      fun n d' => n = (step c a).1 ∧ Represents base d' (step c a).2 := by
  intro e hok
  have he := c.handler_effect (c.arrive d) e hok
  cases c with
  | upload now user md5 filename size id url => exact represents_upload h hc he
  | dealMd5 now user md5 filename => exact represents_dealMd5 h hc he
  | saveFile now user md5 filename => exact represents_saveFile h hc he
  | shareFile now user md5 filename => exact represents_shareFile h hc he
  | cancelShareFile user md5 filename =>
    exact represents_cancelShareFile h hc
      (ShareReplies.cancelShareFileIn_result id user md5 filename d e hok) he
  | delFile user md5 filename => exact represents_delFile h hc he

theorem represents_empty {d : Disk} (h : TablesEmpty d) (hz : d.redis filePublicZset = none)
    (hn : d.redis fileNameHash = none) : Represents d.storage d AbstractDisk.Disk.empty where
  files := by rw [h.userFileList]; rfl
  shares := by rw [h.shareFileList]; rfl
  exact := exact_empty h
  ledger := ledger_empty h
  caches :=
    { kinds := ⟨Or.inl hz, Or.inl hn⟩
      entries := by simp [zsetPairs, hz, AbstractDisk.Disk.empty]
      names := by simp [nameOf, hn, AbstractDisk.Disk.empty] }
  stores := ⟨by simp [h.fileInfo], by simp [h.fileInfo]⟩
  users := by simp [AbstractDisk.Disk.empty]
  sums := by simp [AbstractDisk.Disk.empty]

structure Sequence (server : Server) (d : Disk) (calls : List (Call × (ℕ → Outcome))) : Prop where
  tables : TablesEmpty d
  zset : d.redis filePublicZset = none
  hash : d.redis fileNameHash = none
  noFail : ∀ c ∈ calls, ∀ i, NoFail (c.2 i)
  tame : ∀ c ∈ calls, TameCall c.1
  allowed : Admitted server service step Allowed calls d AbstractDisk.Disk.empty

theorem calls_refine {d : Disk} (h : TablesEmpty d) (hz : d.redis filePublicZset = none)
    (hn : d.redis fileNameHash = none) (calls : List (Call × (ℕ → Outcome)))
    (hok : ∀ c ∈ calls, ∀ i, NoFail (c.2 i))
    (hallowed : Admitted Cmd.exec service step Allowed calls d AbstractDisk.Disk.empty) :
    (runCalls Cmd.exec service calls d).1 =
        (runAbstract step (calls.map Prod.fst) AbstractDisk.Disk.empty).1 ∧
      Represents d.storage (runCalls Cmd.exec service calls d).2
        (runAbstract step (calls.map Prod.fst) AbstractDisk.Disk.empty).2 :=
  runCalls_refines (fun c d a => step_refines _ c d a) calls hok (represents_empty h hz hn) hallowed

section Served
variable {server : Server} {d : Disk} {calls : List (Call × (ℕ → Outcome))}

theorem runCalls_faithful (hs : Faithful server) (htame : ∀ c ∈ calls, TameCall c.1) (d : Disk) :
    runCalls server service calls d = runCalls Cmd.exec service calls d :=
  runCalls_congr hs (fun c hc => all_handler (htame c hc)) d

theorem Sequence.refines (hs : Faithful server) (h : Sequence server d calls) :
    (runCalls server service calls d).1 =
        (runAbstract step (calls.map Prod.fst) AbstractDisk.Disk.empty).1 ∧
      Represents d.storage (runCalls server service calls d).2
        (runAbstract step (calls.map Prod.fst) AbstractDisk.Disk.empty).2 := by
  have hallowed := (admitted_congr (S := service) hs
    (fun c hc => all_handler (h.tame c hc)) d AbstractDisk.Disk.empty).mp h.allowed
  rw [runCalls_faithful hs h.tame]
  exact calls_refine h.tables h.zset h.hash calls h.noFail hallowed

end Served

/-- From empty tables, whatever calls are made: every answer is the one of the abstract disk, and
the servers hold what the abstract disk says and nothing else. -/
theorem runs_refine {server : Server} (hs : Faithful server) {d : Disk}
    {calls : List (Call × (ℕ → Outcome))} (h : Sequence server d calls) :
    (runCalls server service calls d).1 =
        (runAbstract step (calls.map Prod.fst) AbstractDisk.Disk.empty).1 ∧
      Represents d.storage (runCalls server service calls d).2
        (runAbstract step (calls.map Prod.fst) AbstractDisk.Disk.empty).2 :=
  h.refines hs

def someMd5 : CString := List.replicate 32 48

/-- Two users have one content under the same name and both try to show it. -/
def twoOwners : List (Call × (ℕ → Outcome)) :=
  [Call.upload [] [97] someMd5 [102] 1 [111] [], .dealMd5 [] [98] someMd5 [102],
    .shareFile [] [97] someMd5 [102], .shareFile [] [98] someMd5 [102],
    .cancelShareFile [97] someMd5 [102], .delFile [97] someMd5 [102],
    .saveFile [] [99] someMd5 [103]].map fun c => (c, fun _ => .ok 0)

theorem twoOwners_allowed :
    Admitted Cmd.exec service step Allowed twoOwners emptyDisk AbstractDisk.Disk.empty := by
  refine ⟨⟨by decide, by decide, by decide, by decide⟩, ⟨by decide, by decide⟩, ?_, ?_, ?_, ?_,
    ⟨by decide, by decide⟩, trivial⟩
  · change _ ∈ AbstractDisk.Disk.files _
    decide
  · change _ ∈ AbstractDisk.Disk.files _
    decide
  · change _ ∈ AbstractDisk.Disk.shares _
    decide
  · change _ ∈ AbstractDisk.Disk.files _ ∧ ∀ s ∈ AbstractDisk.Disk.shares _, _
    decide

theorem twoOwners_sequence : Sequence Cmd.exec emptyDisk twoOwners where
  tables := emptyDisk_tables
  zset := rfl
  hash := rfl
  noFail := by
    intro c hc i
    obtain ⟨k, -, rfl⟩ := List.mem_map.mp hc
    exact Outcome.noConfusion
  tame := by decide +kernel
  allowed := twoOwners_allowed

theorem runs_refine_twoOwners :
    (runCalls Cmd.exec service twoOwners emptyDisk).1 = [0, 0, 0, -2, 0, 0, 0] :=
  (runs_refine faithful_exec twoOwners_sequence).1.trans (by decide)

/-! ## What is read -/

/-- A row of the listing as a file and whether it is marked as shared. -/
def listedFile : List Cell → Option (File × Bool)
  | .str user :: .str md5 :: _ :: .str filename :: .int status :: _ =>
    some (⟨user, md5, filename⟩, status = 1)
  | _ => none

section Reads
variable {base : Finset CString} {d : Disk} {a : AbstractDisk.Disk} {user : CString}

theorem Represents.owned_files (h : Represents base d a) :
    (rowsWhere (ownedBy user) d.userFileList).map userEntry = (a.ownedBy user).val := by
  have hfilter : rowsWhere (ownedBy user) d.userFileList =
      d.userFileList.filter ((fun e : File => e.user = user) ∘ userEntry) :=
    Multiset.filter_congr fun r _ => by simp [ownedBy, userEntry]
  rw [hfilter, ← Multiset.filter_map, h.files]
  rfl

theorem Represents.filesCount (h : Represents base d a) (huser : user ≠ shareCountKey) :
    Spec Cmd.exec NoFail (DiskHandlers.getUserFilesCount user) d
      fun n _ => n = (a.ownedBy user).card := by
  refine (FileListings.getUserFilesCount_effect h.exact.tallies huser).mono fun n _ hn => ?_
  rw [hn, owned, countWhere, ← Multiset.card_map userEntry, h.owned_files]
  rfl

theorem Represents.sharesCount (h : Represents base d a) :
    Spec Cmd.exec NoFail DiskHandlers.getShareFilesCount d fun n _ => n = a.shares.card := by
  rw [DiskHandlers.getShareFilesCount, DiskHandlers.filesCount]
  refine spec_msqlConn ?_ NoFail.elim
  apply spec_setNames
  intro _
  refine spec_selectUserCount ?_ ?_ NoFail.elim
  · intro r hr hu
    rw [← h.card_shares]
    exact spec_ret (h.ledger.counter.of_mem hr hu).2
  · intro hn
    rw [← h.card_shares, h.ledger.counter.of_none hn]
    exact spec_ret rfl

theorem Represents.joined (h : Represents base d a) (user : CString) : ∃ f : UserFile → FileInfo,
    (∀ r ∈ rowsWhere (ownedBy user) d.userFileList, f r ∈ d.fileInfo) ∧
      joinFileInfo (rowsWhere (fun r : UserFile => r.user = user) d.userFileList) UserFile.md5
        (fun r => [.str r.user, .str r.md5, .str r.createtime, .str r.filename,
          .int r.sharedStatus, .int r.pv]) d.fileInfo =
        (rowsWhere (ownedBy user) d.userFileList).map fun r => joinedRow r (f r) := by
  have hfile : ∀ r ∈ rowsWhere (fun r : UserFile => r.user = user) d.userFileList,
      ∃ f, rowsWhere (FileInfo.hasMd5 r.md5) d.fileInfo = {f} := by
    intro r hr
    have hpos : 0 < references d r.md5 :=
      countWhere_pos.mpr ⟨r, (mem_rowsWhere.mp hr).1, by simp [refersTo]⟩
    obtain ⟨f, hf, hfm⟩ := (h.exact.files r.md5).exists_mem hpos
    exact ⟨f, ((h.exact.files r.md5).of_mem hf hfm).1⟩
  have : Nonempty FileInfo := ⟨⟨[], [], [], 0, [], 0⟩⟩
  choose! f hf using hfile
  refine ⟨f, fun r hr => ?_, FileListings.join_single fun r hr => ⟨f r, hf r hr, rfl⟩⟩
  have hmem : f r ∈ rowsWhere (FileInfo.hasMd5 r.md5) d.fileInfo := by
    rw [hf r hr]
    exact Multiset.mem_singleton_self _
  exact (mem_rowsWhere.mp hmem).1

theorem Represents.listedFile_joined (h : Represents base d a) (f : UserFile → FileInfo) :
    ((rowsWhere (ownedBy user) d.userFileList).map fun r => joinedRow r (f r)).map listedFile =
      (a.ownedBy user).val.map fun e => some (e, decide (e ∈ a.shares)) := by
  rw [Multiset.map_map, ← h.owned_files, Multiset.map_map]
  apply Multiset.map_congr rfl
  intro r hr
  have hstatus : r.sharedStatus = 1 ↔ userEntry r ∈ a.shares :=
    (h.ledger.status r (mem_rowsWhere.mp hr).1).trans (mem_shares h.shares).symm
  exact congrArg (fun b => some (userEntry r, b)) (decide_eq_decide.mpr hstatus)

theorem spec_getUserFilelist {α : Type} {f : Option (List (List Cell)) → DiskState.Handler α}
    {Q : α → Disk → Prop}
    (h : ∀ rows : List (List Cell), (rows : Multiset (List Cell)) =
        joinFileInfo (rowsWhere (fun r : UserFile => r.user = user) d.userFileList) UserFile.md5
          (fun r => [.str r.user, .str r.md5, .str r.createtime, .str r.filename,
            .int r.sharedStatus, .int r.pv]) d.fileInfo →
      Spec Cmd.exec NoFail (f (if rows = [] then none else some rows)) d Q) :
    Spec Cmd.exec NoFail (DiskHandlers.getUserFilelist user >>= f) d Q := by
  rw [DiskHandlers.getUserFilelist, DiskHandlers.fileList, CommandPrograms.bind_assoc]
  refine spec_msqlConn ?_ NoFail.elim
  rw [if_neg (by simp), CommandPrograms.bind_assoc]
  apply spec_setNames
  intro _
  apply spec_call
  intro o ho
  cases o with
  | fail => exact ho.elim
  | ok k =>
    have hrows := h _ (coe_listing k (joinFileInfo _ _ _ _))
    simp only [Cmd.exec, Sql.result]
    cases hlisting : listing k (joinFileInfo
        (rowsWhere (fun r : UserFile => r.user = user) d.userFileList) UserFile.md5
        (fun r => [.str r.user, .str r.md5, .str r.createtime, .str r.filename,
          .int r.sharedStatus, .int r.pv]) d.fileInfo) with
    | nil =>
      rw [hlisting] at hrows
      exact hrows
    | cons row rows =>
      rw [hlisting] at hrows
      exact hrows

theorem Represents.length_rows (h : Represents base d a) {rows : List (List Cell)}
    (hrows : (rows : Multiset (List Cell)) =
      joinFileInfo (rowsWhere (fun r : UserFile => r.user = user) d.userFileList) UserFile.md5
        (fun r => [.str r.user, .str r.md5, .str r.createtime, .str r.filename,
          .int r.sharedStatus, .int r.pv]) d.fileInfo) :
    rows.length = (a.ownedBy user).card := by
  obtain ⟨f, -, hjoin⟩ := h.joined user
  have hcard := congrArg Multiset.card (hrows.trans hjoin)
  rwa [Multiset.coe_card, Multiset.card_map, ← Multiset.card_map userEntry, h.owned_files] at hcard

theorem Represents.filelist (h : Represents base d a) :
    Spec Cmd.exec NoFail (DiskHandlers.getUserFilelist user) d fun listed _ =>
      (((listed.getD []).map listedFile : List (Option (File × Bool))) :
          Multiset (Option (File × Bool))) =
        (a.ownedBy user).val.map (fun e => some (e, decide (e ∈ a.shares))) ∧
      (listed = none ↔ a.ownedBy user = ∅) := by
  rw [← CommandPrograms.bind_pure (DiskHandlers.getUserFilelist user)]
  refine spec_getUserFilelist fun rows hrows => spec_ret ?_
  obtain ⟨f, -, hjoin⟩ := h.joined user
  have hlisted : (((rows.map listedFile : List (Option (File × Bool))) :
      Multiset (Option (File × Bool)))) =
        (a.ownedBy user).val.map fun e => some (e, decide (e ∈ a.shares)) := by
    rw [← Multiset.map_coe, hrows, hjoin, h.listedFile_joined]
  have hempty : rows = [] ↔ a.ownedBy user = ∅ := by
    rw [← List.length_eq_zero_iff, h.length_rows hrows, Finset.card_eq_zero]
  by_cases hnil : rows = []
  · subst hnil
    exact ⟨hlisted, by simp [← hempty]⟩
  · rw [if_neg hnil]
    exact ⟨hlisted, by simp [← hempty, hnil]⟩

theorem filelist_sent_iff (hfull : FileListings.InFull user d)
    {memory : HmsetCommands.Allocations} (hmem : ∀ i, memory i ≠ none) {now : LogMessages.Tm} :
    Spec Cmd.exec NoFail (DiskHandlers.getUserFilelist user) d fun listed _ =>
      (PrintedReplies.Sent memory now (PrintedReplies.filesReply .userFiles listed) ↔
        FileListings.ListFits user d) := by
  rw [← CommandPrograms.bind_pure (DiskHandlers.getUserFilelist user)]
  refine spec_getUserFilelist fun rows hrows => spec_ret ?_
  change _ = FileListings.userRows user d at hrows
  by_cases hnil : rows = []
  · rw [if_pos hnil]
    refine iff_of_true (PrintedReplies.sent_status hmem _) fun hne => absurd ?_ hne
    rw [← hrows, hnil]
    rfl
  · rw [if_neg hnil]
    exact (PrintedReplies.sent_userFiles_iff hmem
      (FileListings.userFileItem_isSome hfull hrows)).trans
        (FileListings.fitsLog_rows_iff hfull hrows hnil)

end Reads

/-- After every such run the counts and the listing of a user are those of the abstract disk. The
listing is sent exactly when the log has room for its text. -/
theorem reads_refine {server : Server} (hs : Faithful server) {d : Disk}
    {calls : List (Call × (ℕ → Outcome))} (h : Sequence server d calls) {user : CString}
    (huser : user ≠ shareCountKey) (htame : Tame [user]) {e : ℕ → Outcome}
    (he : ∀ i, NoFail (e i)) :
    let d' := (runCalls server service calls d).2
    let a := (runAbstract step (calls.map Prod.fst) AbstractDisk.Disk.empty).2
    let listed := ((DiskHandlers.getUserFilelist user).run server e d').1
    ((DiskHandlers.getUserFilesCount user).run server e d').1 = (a.ownedBy user).card ∧
      (DiskHandlers.getShareFilesCount.run server e d').1 = a.shares.card ∧
      (((listed.getD []).map listedFile : List (Option (File × Bool))) :
          Multiset (Option (File × Bool))) =
        (a.ownedBy user).val.map (fun e => some (e, decide (e ∈ a.shares))) ∧
      (listed = none ↔ a.ownedBy user = ∅) ∧
      ∀ memory now, (∀ i, memory i ≠ none) → FileListings.InFull user d' →
        (PrintedReplies.Sent memory now (PrintedReplies.filesReply .userFiles listed) ↔
          FileListings.ListFits user d') := by
  have hrep := (h.refines hs).2
  have hlist := all_getUserFilelist htame
  obtain ⟨hlisted, hempty⟩ := spec_faithful hs hlist hrep.filelist e he
  refine ⟨?_, ?_, hlisted, hempty, fun memory now hmem hfull => ?_⟩
  · exact spec_faithful hs (all_getUserFilesCount htame) (hrep.filesCount huser) e he
  · exact spec_faithful hs all_getShareFilesCount hrep.sharesCount e he
  · exact spec_faithful hs hlist (filelist_sent_iff hfull hmem) e he

theorem reads_refine_twoOwners :
    ((DiskHandlers.getUserFilesCount [98]).run Cmd.exec (fun _ => .ok 0)
      (runCalls Cmd.exec service twoOwners emptyDisk).2).1 = 1 :=
  (@reads_refine _ faithful_exec _ _ twoOwners_sequence [98] (by decide)
    (by decide) (fun _ => .ok 0) fun _ => Outcome.noConfusion).1.trans (by decide)

end DiskRefinement
