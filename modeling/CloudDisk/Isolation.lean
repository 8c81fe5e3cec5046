import CloudDisk.CommandConflicts
import CloudDisk.DiskTexts
import CloudDisk.SessionTokens

/-! # What requests leave alone

Any number of requests run at the same time, a command of one or the other at a time, and any
command may fail. For each request there are places in the tables, the storage and the cache that
it may write. Everything else stays as it was. The object that `del_file` removes is named by a
reply of MySQL, so it is the object of the deleted content only as long as `file_info` says so. -/
namespace Isolation

open ByteStrings CommandPrograms RowTables Interleavings DiskState DiskHandlers HandlerRules
  DiskCalls CommandConflicts SessionTokens DiskTexts

/-! ## Places -/

inductive Place where
  | file (md5 : CString)
  | userFile (user md5 filename : CString)
  | share (md5 filename : CString)
  | counter (user : CString)
  | object (fileid : CString)
  | key (key : CString)

def SameAt : Place → Disk → Disk → Prop
  | .file md5, d, d' =>
    rowsWhere (FileInfo.hasMd5 md5) d'.fileInfo = rowsWhere (FileInfo.hasMd5 md5) d.fileInfo
  | .userFile user md5 filename, d, d' =>
    rowsWhere (UserFile.isRow user md5 filename) d'.userFileList =
      rowsWhere (UserFile.isRow user md5 filename) d.userFileList
  | .share md5 filename, d, d' =>
    rowsWhere (ShareFile.isNamed md5 filename) d'.shareFileList =
      rowsWhere (ShareFile.isNamed md5 filename) d.shareFileList
  | .counter user, d, d' =>
    rowsWhere (UserCount.ofUser user) d'.userFileCount =
      rowsWhere (UserCount.ofUser user) d.userFileCount
  | .object fileid, d, d' => fileid ∈ d'.storage ↔ fileid ∈ d.storage
  | .key key, d, d' => d'.redis key = d.redis key

theorem SameAt.refl (p : Place) (d : Disk) : SameAt p d d := by
  cases p with
  | object fileid => exact Iff.rfl
  | _ => rfl

theorem SameAt.trans {p : Place} {d d' d'' : Disk} (h : SameAt p d d') (h' : SameAt p d' d'') :
    SameAt p d d'' := by
  cases p with
  | object fileid => exact Iff.trans h' h
  | _ => exact Eq.trans h' h

/-- The statement writes a row that satisfies the condition, in some table. -/
def RowWritten {α β : Type} (p : α → Bool) (op : TableOp α β) : Prop :=
  op.isSelect = false ∧ ∃ r, op.Touches r ∧ p r

theorem rowsWhere_of_not_written {α β : Type} {p : α → Bool} {op : TableOp α β}
    (h : ¬ RowWritten p op) (t : Multiset α) : rowsWhere p (op.effect t) = rowsWhere p t :=
  rowsWhere_effect (fun hs r hr => Bool.eq_false_iff.mpr fun hp => h ⟨hs, r, hr, hp⟩) t

def KeyWritten (key : CString) : RedisCmd → Prop
  | .zadd k _ _ | .zincrby k _ | .zrem k _ | .hset k _ _ | .hdel k _ | .del k
  | .setex k _ => k = key
  | .zlexcount _ _ _ | .zcard _ | .zrevrange _ _ _ | .zscore _ _ | .hget _ _ | .get _ => False

def Written : Place → Cmd → Prop
  | .file md5, .query (.fileInfo op) => RowWritten (FileInfo.hasMd5 md5) op
  | .userFile user md5 filename, .query (.userFileList op) =>
    RowWritten (UserFile.isRow user md5 filename) op
  | .share md5 filename, .query (.shareFileList op) =>
    RowWritten (ShareFile.isNamed md5 filename) op
  | .counter user, .query (.userFileCount op) => RowWritten (UserCount.ofUser user) op
  | .object fileid, .fdfsDelete id => id = fileid
  | .key key, .redis c => KeyWritten key c
  | _, _ => False

theorem redis_of_not_written {c : RedisCmd} {key : CString} (h : ¬ KeyWritten key c) (k : ℕ)
    (s : Redis) : (c.exec k s).2 key = s key := by
  have hne : ∀ {k x}, ¬ k = key → Function.update s k x key = s key :=
    fun hk => Function.update_of_ne (Ne.symm hk) _ _
  cases c <;> simp only [KeyWritten] at h <;> simp only [RedisCmd.exec]
  all_goals first
    | exact hne h
    | split <;> first | rfl | exact hne h

theorem effect_of_not_written {p : Place} {q : Sql} (h : ¬ Written p (.query q)) (d : Disk) :
    SameAt p d (q.effect d) := by
  cases p <;> cases q <;> first
    | exact rfl
    | exact Iff.rfl
    | exact rowsWhere_of_not_written h _

theorem exec_of_not_written {p : Place} {c : Cmd} (h : ¬ Written p c) (o : Outcome) (d : Disk) :
    SameAt p d (c.exec o d).2 := by
  cases o with
  | fail => exact SameAt.refl p d
  | ok k =>
    cases c with
    | mysqlConnect => exact SameAt.refl p d
    | redisConnect => exact SameAt.refl p d
    | query q =>
      simp only [Cmd.exec]
      cases q.result k d with
      | none => exact SameAt.refl p d
      | some rs => exact effect_of_not_written h d
    | redis c =>
      cases p with
      | key key => exact redis_of_not_written h k d.redis
      | object fileid => exact Iff.rfl
      | _ => exact rfl
    | fdfsDelete id =>
      simp only [Cmd.exec]
      split
      · cases p with
        | object fileid =>
          have hne : fileid ≠ id := fun heq => h heq.symm
          simp [SameAt, hne]
        | _ => exact rfl
      · exact SameAt.refl p d

/-! ## Requests -/

inductive Job where
  | call (c : Call)
  | pvFile (md5 filename : CString)
  | getRankingFilelist (start count : ℤ)
  | getUserFilesCount (user : CString)
  | getShareFilesCount
  | getUserFilelist (user : CString)
  | getShareFilelist (start count : ℤ)
  | verifyToken (user token : CString)
  | setToken (user : CString) (rand : Fin 4 → ℕ)

/-- What has been printed in the end is of no concern to the other requests. -/
def forget {α : Type} (p : Handler α) : Handler Unit := p >>= fun _ => pure ()

def Job.prog (digest : Digest) : Job → Handler Unit
  | .call c => forget c.handler
  | .pvFile md5 filename => forget (DiskHandlers.pvFile md5 filename)
  | .getRankingFilelist start count => forget (DiskHandlers.getRankingFilelist start count)
  | .getUserFilesCount user => forget (DiskHandlers.getUserFilesCount user)
  | .getShareFilesCount => forget DiskHandlers.getShareFilesCount
  | .getUserFilelist user => forget (DiskHandlers.getUserFilelist user)
  | .getShareFilelist start count => forget (DiskHandlers.getShareFilelist start count)
  | .verifyToken user token => forget (DiskHandlers.verifyToken user token)
  | .setToken user rand => forget (SessionTokens.setToken digest user rand)

def Cached (p : Place) : Prop := p = .key filePublicZset ∨ p = .key fileNameHash

/-- The file among the contents, in the list of the user and in their counter. -/
def Listed (user md5 filename : CString) (p : Place) : Prop :=
  p = .file md5 ∨ p = .userFile user md5 filename ∨ p = .counter user

def Shown (md5 filename : CString) (p : Place) : Prop :=
  p = .share md5 filename ∨ p = .counter shareCountKey ∨ Cached p

variable (owner : CString → CString)

def callMayWrite : Call → Place → Prop
  | .upload _ user md5 filename _ _ _, p | .dealMd5 _ user md5 filename, p
  | .saveFile _ user md5 filename, p => Listed user md5 filename p
  | .shareFile _ user md5 filename, p | .cancelShareFile user md5 filename, p =>
    p = .userFile user md5 filename ∨ Shown md5 filename p
  | .delFile user md5 filename, p => Listed user md5 filename p ∨ Shown md5 filename p ∨
      ∃ fileid, p = .object fileid ∧ owner fileid = md5

/-- The places of a request; `owner` tells the content of an object. -/
def MayWrite : Job → Place → Prop
  | .call c, p => callMayWrite owner c p
  | .pvFile md5 filename, p => p = .share md5 filename ∨ Cached p
  | .getRankingFilelist _ _, p => Cached p
  | .setToken user _, p => p = .key user
  | .getUserFilesCount _, _ | .getShareFilesCount, _ | .getUserFilelist _, _
  | .getShareFilelist _ _, _ | .verifyToken _ _, _ => False

/-- Uploads record their object under its own content. -/
def Named : Job → Prop
  | .call (.upload _ _ md5 _ _ fileid _) => owner fileid = md5
  | _ => True

def FilesNamed (t : Multiset FileInfo) : Prop := ∀ r ∈ t, owner r.fileId = r.md5

/-! ## The commands of a request -/

/-- The command writes only where it may, and keeps the objects under their contents. -/
structure Confined (w : Place → Prop) (c : Cmd) : Prop where
  writes : ∀ p, Written p c → w p
  names : ∀ o d, FilesNamed owner d.fileInfo → FilesNamed owner (c.exec o d).2.fileInfo

variable {owner} {w : Place → Prop} {user md5 filename : CString}

theorem fileInfo_exec {c : Cmd} (h : ∀ op, c ≠ .query (.fileInfo op)) (o : Outcome) (d : Disk) :
    (c.exec o d).2.fileInfo = d.fileInfo := by
  cases o with
  | fail => rfl
  | ok k =>
    cases c with
    | mysqlConnect => rfl
    | redisConnect => rfl
    | redis c => rfl
    | fdfsDelete id =>
      simp only [Cmd.exec]
      split <;> rfl
    | query q =>
      simp only [Cmd.exec]
      cases q.result k d with
      | none => rfl
      | some rs =>
        cases q with
        | fileInfo op => exact absurd rfl (h op)
        | _ => rfl

theorem confined_other {c : Cmd} (hne : ∀ op, c ≠ .query (.fileInfo op))
    (h : ∀ p, Written p c → w p) : Confined owner w c :=
  ⟨h, fun o d hd => by rwa [fileInfo_exec hne]⟩

theorem confined_read {q : Sql} (h : writes q = false) : Confined owner w (.query q) := by
  refine ⟨fun p hp => ?_, fun o d hd => ?_⟩
  · cases p <;> cases q <;> first
      | exact hp.elim
      | exact absurd hp.1 (by simpa [writes] using h)
  · cases o with
    | fail => exact hd
    | ok k => rwa [exec_query, effect_of_not_writes h]

section Writes
variable {α β κ : Type} {p : α → Bool} {f : α → α}

theorem key_of_rowWritten {op : TableOp α β} (key : α → κ) {k k' : κ}
    (hp : ∀ r, p r → key r = k') (h : ∀ r, op.Touches r → key r = k) (hw : RowWritten p op) :
    k' = k := by
  obtain ⟨-, r, hr, hpr⟩ := hw
  rw [← hp r hpr, h r hr]

theorem touches_update {r : α} (hr : (TableOp.update p f : TableOp α β).Touches r)
    (h : ∀ r, p r → p (f r)) : p r := by
  rcases hr with hr | ⟨s, hs, rfl⟩
  · exact hr
  · exact h s hs

theorem confined_file {op : TableOp FileInfo (List Cell)} (hw : w (.file md5))
    (h : ∀ r, op.Touches r → r.hasMd5 md5)
    (hn : ∀ t, FilesNamed owner t → FilesNamed owner (op.effect t)) :
    Confined owner w (.query (.fileInfo op)) := by
  refine ⟨fun p hp => ?_, fun o d hd => ?_⟩
  · cases p with
    | file m =>
      rwa [key_of_rowWritten FileInfo.md5 hasMd5_key (fun r hr => hasMd5_key r (h r hr)) hp]
    | _ => exact hp.elim
  · cases o with
    | fail => exact hd
    | ok k => exact hn _ hd

theorem confined_userFile {op : TableOp UserFile (List Cell)} (hw : w (.userFile user md5 filename))
    (h : ∀ r, op.Touches r → r.isRow user md5 filename) :
    Confined owner w (.query (.userFileList op)) := by
  apply confined_other (by simp)
  intro p hp
  cases p with
  | userFile u m f =>
    have hkey := key_of_rowWritten (fun r : UserFile => (r.user, r.md5, r.filename)) isRow_key
      (fun r hr => isRow_key r (h r hr)) hp
    obtain ⟨rfl, rfl, rfl⟩ : u = user ∧ m = md5 ∧ f = filename := by simpa using hkey
    exact hw
  | _ => exact hp.elim

theorem confined_share {op : TableOp ShareFile (List Cell)} (hw : w (.share md5 filename))
    (h : ∀ r, op.Touches r → r.isNamed md5 filename) :
    Confined owner w (.query (.shareFileList op)) := by
  apply confined_other (by simp)
  intro p hp
  cases p with
  | share m f =>
    have hkey := key_of_rowWritten (fun r : ShareFile => (r.md5, r.filename)) isNamed_key
      (fun r hr => isNamed_key r (h r hr)) hp
    obtain ⟨rfl, rfl⟩ : m = md5 ∧ f = filename := by simpa using hkey
    exact hw
  | _ => exact hp.elim

theorem confined_counter {op : TableOp UserCount (List Cell)} (hw : w (.counter user))
    (h : ∀ r, op.Touches r → r.ofUser user) : Confined owner w (.query (.userFileCount op)) := by
  apply confined_other (by simp)
  intro p hp
  cases p with
  | counter u =>
    rwa [key_of_rowWritten UserCount.user ofUser_key (fun r hr => ofUser_key r (h r hr)) hp]
  | _ => exact hp.elim

end Writes

/-! ## The requests -/

theorem confined_wiring : Wiring (Confined owner w) where
  mysql := confined_other (by simp) fun p hp => by cases p <;> exact hp.elim
  redis := confined_other (by simp) fun p hp => by cases p <;> exact hp.elim
  names := confined_read rfl

theorem confined_redis {c : RedisCmd} (h : ∀ key, KeyWritten key c → w (.key key)) :
    Confined owner w (.redis c) := by
  apply confined_other (by simp)
  intro p hp
  cases p with
  | key key => exact h key hp
  | _ => exact hp.elim

theorem cacheKey_of_written {c : RedisCmd} {key : CString} (hc : CacheCmd c)
    (h : KeyWritten key c) : CacheKey key := by
  cases c <;> first
    | exact h.elim
    | exact hc.elim
    | exact h ▸ hc

theorem confined_caching (h : ∀ p, Cached p → w p) : Caching (Confined owner w) := by
  intro c hc
  refine confined_redis fun key hkey => h _ ?_
  rcases cacheKey_of_written hc hkey with rfl | rfl
  · exact .inl rfl
  · exact .inr rfl

theorem confined_counting (h : w (.counter user)) : Counting (Confined owner w) user where
  select := confined_read rfl
  insert := confined_counter h fun r hr => by simp [show r = ⟨user, 1⟩ from hr, UserCount.ofUser]
  update n := confined_counter h fun _ hr => touches_update hr fun _ hs => hs
  delete := confined_counter h fun _ hr => hr

theorem confined_updateFileCount (h : w (.file md5)) (n : ℤ) :
    Confined owner w (.query (updateFileCount md5 n)) := by
  refine confined_file h (fun _ hr => touches_update hr fun _ hs => hs) fun t ht r hr => ?_
  rcases mem_updateWhere.mp hr with ⟨s, hs, -, rfl⟩ | ⟨hr, -⟩
  · exact ht s hs
  · exact ht r hr

theorem confined_insertUserFile {now : CString} (h : w (.userFile user md5 filename)) :
    Confined owner w (.query (insertUserFile user md5 filename now)) :=
  confined_userFile h fun r hr => by simp [show r = _ from hr, UserFile.isRow]

theorem confined_updateSharedStatus (h : w (.userFile user md5 filename)) (n : ℤ) :
    Confined owner w (.query (updateSharedStatus user md5 filename n)) :=
  confined_userFile h fun _ hr => touches_update hr fun _ hs => hs

theorem confined_deleteShareFile (h : w (.share md5 filename)) :
    Confined owner w (.query (deleteShareFile user md5 filename)) := by
  apply confined_share h
  intro r hr
  have hrow : r.isRow user md5 filename = true := hr
  simp only [ShareFile.isRow, decide_eq_true_eq] at hrow
  exact decide_eq_true hrow.2

/-- A reply that names an object names it for the content that was asked for. -/
def Lawful (owner : CString → CString) (c : Cmd) (r : Reply) : Prop :=
  ∀ md5 fileid, c = .query (selectFileId md5) → firstRow true r = .saved (.str fileid) →
    owner fileid = md5

theorem exec_lawful {d : Disk} (hd : FilesNamed owner d.fileInfo) (o : Outcome) (c : Cmd) :
    Lawful owner c (c.exec o d).1 := by
  rintro md5 fileid rfl hfirst
  cases o with
  | fail => exact ResultOne.noConfusion hfirst
  | ok k =>
    rw [exec_query] at hfirst
    simp only [selectFileId, Sql.result, Option.elim_some, TableOp.answer] at hfirst
    cases hrows : listing k ((rowsWhere (FileInfo.hasMd5 md5) d.fileInfo).map
        fun r => [Cell.str r.fileId]) with
    | nil =>
      rw [hrows] at hfirst
      exact ResultOne.noConfusion hfirst
    | cons row rest =>
      rw [hrows] at hfirst
      have hrow : row ∈ listing k ((rowsWhere (FileInfo.hasMd5 md5) d.fileInfo).map
          fun r => [Cell.str r.fileId]) := by rw [hrows]; exact List.mem_cons_self
      obtain ⟨r, hr, rfl⟩ := Multiset.mem_map.mp (mem_listing.mp hrow)
      obtain ⟨hr, hm⟩ := mem_rowsWhere.mp hr
      obtain rfl : r.fileId = fileid := by simpa [firstRow] using hfirst
      rw [hd r hr, hasMd5_key r hm]

theorem stays_delFileReference_object (hw : w (.file md5))
    (hobject : ∀ fileid, owner fileid = md5 → w (.object fileid)) :
    (delFileReference md5).Stays (Lawful owner) (Confined owner w) := by
  refine stays_delFileReference (confined_read rfl) (confined_updateFileCount hw)
    (confined_read rfl) ?_ fun r fileid hr hfirst => ?_
  · refine confined_file hw (fun _ hr => hr) fun t ht r hr => ?_
    exact ht r (mem_deleteWhere.mp hr).1
  · apply confined_other (by simp)
    intro p hp
    cases p with
    | object id => exact hobject id (hp ▸ hr md5 fileid rfl hfirst)
    | _ => exact hp.elim

theorem call_stays (c : Call) (hn : Named owner (.call c)) :
    c.handler.Stays (Lawful owner) (Confined owner (callMayWrite owner c)) := by
  cases c with
  | upload now user md5 filename size fileid url =>
    refine stays_storeFileinfoToMysql confined_wiring (confined_counting (.inr (.inr rfl))) ?_
      (confined_insertUserFile (.inr (.inl rfl)))
    refine confined_file (.inl rfl) (fun r hr => ?_) fun t ht r hr => ?_
    · simp [show r = _ from hr, FileInfo.hasMd5]
    · rcases Multiset.mem_cons.mp hr with rfl | hr
      · exact hn
      · exact ht r hr
  | dealMd5 now user md5 filename =>
    exact stays_dealMd5 confined_wiring (confined_counting (.inr (.inr rfl))) (confined_read rfl)
      (confined_read rfl) (confined_updateFileCount (.inl rfl))
      (confined_insertUserFile (.inr (.inl rfl)))
  | saveFile now user md5 filename =>
    exact stays_saveFile confined_wiring (confined_counting (.inr (.inr rfl))) (confined_read rfl)
      (confined_read rfl) (confined_updateFileCount (.inl rfl))
      (confined_insertUserFile (.inr (.inl rfl)))
  | shareFile now user md5 filename =>
    refine stays_shareFile confined_wiring (confined_caching fun p hp => .inr (.inr (.inr hp)))
      (confined_counting (.inr (.inr (.inl rfl)))) (confined_read rfl)
      (confined_updateSharedStatus (.inl rfl) 1) ?_
    exact confined_share (.inr (.inl rfl)) fun r hr => by
      simp [show r = _ from hr, ShareFile.isNamed]
  | cancelShareFile user md5 filename =>
    exact stays_cancelShareFile confined_wiring
      (confined_caching fun p hp => .inr (.inr (.inr hp)))
      (confined_counting (.inr (.inr (.inl rfl)))) (confined_updateSharedStatus (.inl rfl) 0)
      (confined_deleteShareFile (.inr (.inl rfl)))
  | delFile user md5 filename =>
    exact stays_delFile confined_wiring
      (confined_caching fun p hp => .inr (.inl (.inr (.inr hp))))
      (confined_counting (.inl (.inr (.inr rfl))))
      (confined_counting (.inr (.inl (.inr (.inl rfl))))) (confined_read rfl)
      (confined_deleteShareFile (.inr (.inl (.inl rfl))))
      (confined_userFile (.inl (.inr (.inl rfl))) fun _ hr => hr)
      (stays_delFileReference_object (.inl (.inl rfl)) fun fileid h =>
        .inr (.inr ⟨fileid, rfl, h⟩))

theorem stays_forget {α : Type} {L : Cmd → Reply → Prop} {P : Cmd → Prop} {p : Handler α}
    (h : p.Stays L P) : (forget p).Stays L P :=
  stays_bind h fun _ => trivial

theorem job_stays (digest : Digest) (j : Job) (hn : Named owner j) :
    (j.prog digest).Stays (Lawful owner) (Confined owner (MayWrite owner j)) := by
  cases j with
  | call c => exact stays_forget (call_stays c hn)
  | pvFile md5 filename =>
    refine stays_forget (stays_pvFile confined_wiring (confined_caching fun p hp => .inr hp)
      (confined_read rfl) fun n => ?_)
    exact confined_share (.inl rfl) fun _ hr => touches_update hr fun _ hs => hs
  | getRankingFilelist start count =>
    exact stays_forget (all_rankingFilelist confined_wiring (confined_caching fun p hp => hp)
      (confined_read rfl) (confined_read rfl)).stays
  | getUserFilesCount user =>
    exact stays_forget (all_filesCount confined_wiring (confined_read rfl)).stays
  | getShareFilesCount =>
    exact stays_forget (all_filesCount confined_wiring (confined_read rfl)).stays
  | getUserFilelist user =>
    exact stays_forget (all_fileList confined_wiring (confined_read rfl)).stays
  | getShareFilelist start count =>
    exact stays_forget (all_fileList confined_wiring (confined_read rfl)).stays
  | verifyToken user token =>
    exact stays_forget (Prog.All.stays
      (all_verifyToken confined_wiring (confined_redis fun _ h => h.elim)))
  | setToken user rand =>
    refine stays_forget (Prog.All.stays (all_setToken confined_wiring.redis fun token => ?_))
    apply confined_redis
    rintro key rfl
    rfl

/-! ## Any interleaving -/

section Runs
variable {ι : Type} [DecidableEq ι] (digest : Digest)

/-- All requests arrive together; how far each of them gets is up to the schedule. -/
def start (jobs : ι → Job) (e : ι → ℕ → Outcome) (d : Disk) :
    System ι Cmd Reply Outcome Disk Unit :=
  ⟨fun i => ⟨(jobs i).prog digest, e i⟩, d⟩

theorem run_sameAt {jobs : ι → Job} {e : ι → ℕ → Outcome} {d : Disk}
    (hd : FilesNamed owner d.fileInfo) (hn : ∀ i, Named owner (jobs i)) (schedule : List ι)
    {p : Place} (hp : ∀ i, ¬ MayWrite owner (jobs i) p) :
    SameAt p d ((start digest jobs e d).run Cmd.exec schedule).world := by
  have hinv : FilesNamed owner ((start digest jobs e d).run Cmd.exec schedule).world.fileInfo ∧
      SameAt p d ((start digest jobs e d).run Cmd.exec schedule).world := by
    refine run_invariant (I := fun d' => FilesNamed owner d'.fileInfo ∧ SameAt p d d')
      (P := fun i => Confined owner (MayWrite owner (jobs i)))
      (fun o c w hw => exec_lawful hw.1 o c) ?_ schedule (start digest jobs e d)
      (fun i => job_stays digest _ (hn i)) ⟨hd, SameAt.refl p d⟩
    rintro i o c d' hc ⟨hd', hsame⟩
    refine ⟨hc.names o d' hd', hsame.trans ?_⟩
    exact exec_of_not_written (fun hw => hp i (hc.writes p hw)) o d'
  exact hinv.2

end Runs

/-! ## Users who do nothing -/

def Job.actor : Job → Option CString
  | .call (.upload _ user _ _ _ _ _) | .call (.dealMd5 _ user _ _) | .call (.saveFile _ user _ _)
  | .call (.shareFile _ user _ _) | .call (.cancelShareFile user _ _) | .call (.delFile user _ _)
  | .setToken user _ => some user
  | _ => none

def Job.content : Job → Option CString
  | .call (.upload _ _ md5 _ _ _ _) | .call (.dealMd5 _ _ md5 _) | .call (.saveFile _ _ md5 _)
  | .call (.delFile _ md5 _) => some md5
  | _ => none

section Bystander
variable {j : Job} {b : CString}

theorem not_mayWrite_userFile (h : j.actor ≠ some b) (md5 filename : CString) :
    ¬ MayWrite owner j (.userFile b md5 filename) := by
  intro hw
  apply h
  cases j with
  | call c => cases c <;> simp_all [MayWrite, callMayWrite, Listed, Shown, Cached, Job.actor]
  | _ => simp_all [MayWrite, Cached]

theorem not_mayWrite_counter (h : j.actor ≠ some b) (hb : b ≠ shareCountKey) :
    ¬ MayWrite owner j (.counter b) := by
  intro hw
  apply h
  cases j with
  | call c => cases c <;> simp_all [MayWrite, callMayWrite, Listed, Shown, Cached, Job.actor]
  | _ => simp_all [MayWrite, Cached]

theorem not_mayWrite_key (h : j.actor ≠ some b) (hb : ¬ CacheKey b) :
    ¬ MayWrite owner j (.key b) := by
  intro hw
  rw [CacheKey, not_or] at hb
  apply h
  cases j with
  | call c => cases c <;> simp_all [MayWrite, callMayWrite, Listed, Shown, Cached]
  | _ => simp_all [MayWrite, Cached, Job.actor]

theorem not_mayWrite_file (h : j.content ≠ some md5) : ¬ MayWrite owner j (.file md5) := by
  intro hw
  apply h
  cases j with
  | call c => cases c <;> simp_all [MayWrite, callMayWrite, Listed, Shown, Cached, Job.content]
  | _ => simp_all [MayWrite, Cached]

theorem rowsWhere_user {t t' : Multiset UserFile}
    (h : ∀ md5 filename, rowsWhere (UserFile.isRow b md5 filename) t' =
      rowsWhere (UserFile.isRow b md5 filename) t) :
    rowsWhere (fun r : UserFile => r.user = b) t' =
      rowsWhere (fun r : UserFile => r.user = b) t := by
  ext r
  by_cases hr : r.user = b
  · have hcount := congrArg (Multiset.count r) (h r.md5 r.filename)
    simpa [rowsWhere, Multiset.count_filter, UserFile.isRow, hr] using hcount
  · simp [rowsWhere, hr]

theorem joinFileInfo_eq_bind {α : Type} (t : Multiset α) (md5 : α → CString)
    (columns : α → List Cell) (files : Multiset FileInfo) :
    joinFileInfo t md5 columns files = t.bind fun r =>
      (rowsWhere (FileInfo.hasMd5 (md5 r)) files).map fun f =>
        columns r ++ [.str f.url, .int f.size, .str f.type] := by
  induction t using Multiset.induction_on with
  | empty => simp [joinFileInfo]
  | cons r t ih =>
    rw [Multiset.cons_bind, ← ih]
    simp only [joinFileInfo, Multiset.cons_product, Multiset.filter_add, Multiset.map_add]
    congr 1
    rw [Multiset.filter_map, Multiset.map_map]
    refine congrArg₂ Multiset.map rfl (Multiset.filter_congr fun f _ => ?_)
    simp [FileInfo.hasMd5]

/-- The two worlds answer the command alike, and it changes neither. -/
def AnsweredAlike (d d' : Disk) (c : Cmd) : Prop :=
  ∀ o, (c.exec o d).2 = d ∧ (c.exec o d').2 = d' ∧ (c.exec o d').1 = (c.exec o d).1

variable {d d' : Disk}

theorem answeredAlike_query {q : Sql} (hw : writes q = false)
    (h : ∀ k, q.result k d' = q.result k d) : AnsweredAlike d d' (.query q) := by
  intro o
  cases o with
  | fail => exact ⟨rfl, rfl, rfl⟩
  | ok k => simp only [exec_query, effect_of_not_writes hw, h, and_self]

theorem answeredAlike_wiring : Wiring (AnsweredAlike d d') where
  mysql o := by cases o <;> exact ⟨rfl, rfl, rfl⟩
  redis o := by cases o <;> exact ⟨rfl, rfl, rfl⟩
  names := answeredAlike_query rfl fun _ => rfl

theorem reads_alike (hkey : SameAt (.key b) d d') (hcount : SameAt (.counter b) d d')
    (hrows : ∀ md5 filename, SameAt (.userFile b md5 filename) d d')
    (hfiles : ∀ r ∈ d.userFileList, r.user = b → SameAt (.file r.md5) d d') (token : CString)
    (e : ℕ → Outcome) :
    ((verifyToken b token).run Cmd.exec e d').1 = ((verifyToken b token).run Cmd.exec e d).1 ∧
      ((getUserFilesCount b).run Cmd.exec e d').1 = ((getUserFilesCount b).run Cmd.exec e d).1 ∧
      ((getUserFilelist b).run Cmd.exec e d').1 = ((getUserFilelist b).run Cmd.exec e d).1 := by
  have hw : Wiring (AnsweredAlike d d') := answeredAlike_wiring
  have hget : AnsweredAlike d d' (.redis (.get b)) := by
    have hsame : d'.redis b = d.redis b := hkey
    intro o
    cases o with
    | fail => exact ⟨rfl, rfl, rfl⟩
    | ok k =>
      simp only [Cmd.exec, RedisCmd.exec, hsame]
      rcases d.redis b with _ | (_ | _ | _) <;> exact ⟨rfl, rfl, rfl⟩
  have hcounter : AnsweredAlike d d' (.query (selectUserCount b)) := by
    apply answeredAlike_query rfl
    intro k
    simp only [selectUserCount, Sql.result, TableOp.answer]
    rw [show rowsWhere (UserCount.ofUser b) d'.userFileCount = _ from hcount]
  have hlist : AnsweredAlike d d' (.query (.userFileInfo b)) := by
    apply answeredAlike_query rfl
    intro k
    simp only [Sql.result, joinFileInfo_eq_bind, rowsWhere_user hrows]
    congr 2
    apply Multiset.bind_congr
    intro r hr
    obtain ⟨hr, hu⟩ := mem_rowsWhere.mp hr
    rw [show rowsWhere (FileInfo.hasMd5 r.md5) d'.fileInfo = _ from
      hfiles r hr (of_decide_eq_true hu)]
  exact ⟨run_eq_of_reads (fun c hc => hc) (all_verifyToken hw hget) e,
    run_eq_of_reads (fun c hc => hc) (all_filesCount hw hcounter) e,
    run_eq_of_reads (fun c hc => hc) (all_fileList hw hlist) e⟩

end Bystander

/-! ## Tame requests -/

/-- The strings of a request that go into statements are tame. -/
def TameJob : Job → Prop
  | .call c => TameCall c
  | .pvFile md5 filename => Tame [md5, filename]
  | .getUserFilesCount user | .getUserFilelist user => Tame [user]
  | .getRankingFilelist _ _ | .getShareFilesCount | .getShareFilelist _ _ | .verifyToken _ _
  | .setToken _ _ => True

theorem job_meant (digest : Digest) {j : Job} (h : TameJob j) : (j.prog digest).All AsMeant := by
  have hforget : ∀ {α : Type} {p : Handler α}, p.All AsMeant → (forget p).All AsMeant :=
    fun hp => all_bind hp fun _ => trivial
  have hcounter := (meant_counting tame_shareCountKey).select
  cases j with
  | call c => exact hforget (all_handler h)
  | pvFile md5 filename =>
    exact hforget (stays_pvFile meant_wiring meant_caching
      (Tame.asMeant (.selectSharePv md5 filename) h rfl)
      fun n => Tame.asMeant (.updateSharePv md5 filename n) h rfl).all
  | getRankingFilelist start count =>
    exact hforget (all_rankingFilelist meant_wiring meant_caching hcounter
      (Tame.asMeant .rankShares tame_nil rfl))
  | getUserFilesCount user => exact hforget (all_getUserFilesCount h)
  | getShareFilesCount => exact hforget all_getShareFilesCount
  | getUserFilelist user => exact hforget (all_getUserFilelist h)
  | getShareFilelist start count =>
    exact hforget (all_fileList meant_wiring
      (Tame.asMeant (.shareFileInfo start count) tame_nil rfl))
  | verifyToken user token => exact hforget (all_verifyToken meant_wiring trivial)
  | setToken user rand => exact hforget (all_setToken trivial fun _ => trivial)

section Results
variable {ι : Type} [DecidableEq ι] (digest : Digest) {server : Server}

theorem run_tame (hs : Faithful server) {jobs : ι → Job} (ht : ∀ i, TameJob (jobs i))
    (e : ι → ℕ → Outcome) (d : Disk) (schedule : List ι) :
    (start digest jobs e d).run server schedule = (start digest jobs e d).run Cmd.exec schedule :=
  run_congr hs schedule _ fun i => job_meant digest (ht i)

/-- A user on whose behalf nothing is changed, and whose contents nobody adds or drops, does not
notice the requests of the others, in whatever order their commands are executed and whichever of
them fail. -/
theorem bystander_reads (hs : Faithful server) {jobs : ι → Job} {e : ι → ℕ → Outcome} {d : Disk}
    (hd : FilesNamed owner d.fileInfo) (hn : ∀ i, Named owner (jobs i))
    (ht : ∀ i, TameJob (jobs i)) (schedule : List ι) {b : CString} (hb : Tame [b])
    (hcount : b ≠ shareCountKey) (hkey : ¬ CacheKey b)
    (hactor : ∀ i, (jobs i).actor ≠ some b)
    (hcontent : ∀ i, ∀ r ∈ d.userFileList, r.user = b → (jobs i).content ≠ some r.md5)
    (token : CString) (e' : ℕ → Outcome) :
    let d' := ((start digest jobs e d).run server schedule).world
    ((verifyToken b token).run server e' d').1 = ((verifyToken b token).run server e' d).1 ∧
      ((getUserFilesCount b).run server e' d').1 = ((getUserFilesCount b).run server e' d).1 ∧
      ((getUserFilelist b).run server e' d').1 = ((getUserFilelist b).run server e' d).1 := by
  have htoken : (verifyToken b token).All AsMeant := all_verifyToken meant_wiring trivial
  simp only [run_tame digest hs ht, run_faithful hs htoken,
    run_faithful hs (all_getUserFilesCount hb), run_faithful hs (all_getUserFilelist hb)]
  refine reads_alike ?_ ?_ (fun md5 filename => ?_) (fun r hr hu => ?_) token e'
  · exact run_sameAt digest hd hn schedule fun i => not_mayWrite_key (hactor i) hkey
  · exact run_sameAt digest hd hn schedule fun i => not_mayWrite_counter (hactor i) hcount
  · exact run_sameAt digest hd hn schedule fun i => not_mayWrite_userFile (hactor i) md5 filename
  · exact run_sameAt digest hd hn schedule fun i => not_mayWrite_file (hcontent i r hr hu)

/-- No object is removed without a request to delete a file with its content. -/
theorem objects_kept (hs : Faithful server) {jobs : ι → Job} {e : ι → ℕ → Outcome} {d : Disk}
    (hd : FilesNamed owner d.fileInfo) (hn : ∀ i, Named owner (jobs i))
    (ht : ∀ i, TameJob (jobs i)) (schedule : List ι) {fileid : CString} (hmem : fileid ∈ d.storage)
    (hdel : ∀ i user filename, jobs i ≠ .call (.delFile user (owner fileid) filename)) :
    fileid ∈ ((start digest jobs e d).run server schedule).world.storage := by
  rw [run_tame digest hs ht]
  have hsame : SameAt (.object fileid) d ((start digest jobs e d).run Cmd.exec schedule).world := by
    apply run_sameAt digest hd hn schedule
    intro i hw
    cases hj : jobs i with
    | call c =>
      rw [hj] at hw
      cases c with
      | delFile user md5 filename =>
        have hmd5 : owner fileid = md5 := by
          simpa [MayWrite, callMayWrite, Listed, Shown, Cached] using hw
        exact hdel i user filename (by rw [hj, hmd5])
      | _ => simp [MayWrite, callMayWrite, Listed, Shown, Cached] at hw
    | _ =>
      rw [hj] at hw
      simp [MayWrite, Cached] at hw
  exact hsame.mpr hmem

end Results

/-! ## An example -/

/-- Users `a` and `b` with a file each; `b` is logged in. -/
def twoUsers : Disk where
  fileInfo := {⟨[49], [7], [], 9, [], 1⟩, ⟨[50], [8], [], 9, [], 1⟩}
  userFileList := {⟨[97], [49], [], [102], 0, 0⟩, ⟨[98], [50], [], [103], 0, 0⟩}
  shareFileList := 0
  userFileCount := {⟨[97], 1⟩, ⟨[98], 1⟩}
  storage := {[7], [8]}
  redis := Function.update (fun _ => none) [98] (some (.string [120]))

def deletedTwice : Bool → Job := fun _ => .call (.delFile [97] [49] [102])

def objectOwner (fileid : CString) : CString := if fileid = [7] then [49] else [50]

theorem twoUsers_named : FilesNamed objectOwner twoUsers.fileInfo := by
  change ∀ r ∈ twoUsers.fileInfo, objectOwner r.fileId = r.md5
  decide

theorem deletedTwice_named (i : Bool) : Named objectOwner (deletedTwice i) := trivial

theorem deletedTwice_tame (i : Bool) : TameJob (deletedTwice i) := by
  change TameCall (.delFile [97] [49] [102])
  decide

theorem bystander_reads_deletes :
    let d' := ((start (fun _ => none) deletedTwice (fun _ _ => .ok 0) twoUsers).run Cmd.exec
      [true, false, true, false, true, true, false, false]).world
    ((getUserFilesCount [98]).run Cmd.exec (fun _ => .ok 0) d').1 = 1 := by
  have hkey : ¬ CacheKey [98] := by
    rw [CacheKey]
    decide
  have hcontent : ∀ r ∈ twoUsers.userFileList, r.user = [98] → some [49] ≠ some r.md5 := by decide
  have hactor : ∀ i, (deletedTwice i).actor ≠ some [98] := by decide
  exact (bystander_reads (fun _ => none) faithful_exec twoUsers_named deletedTwice_named
    deletedTwice_tame _ (by decide) (by decide) hkey hactor (fun _ => hcontent) [] _).2.1.trans
      (by decide)

theorem objects_kept_deletes :
    [8] ∈ ((start (fun _ => none) deletedTwice (fun _ _ => .ok 0) twoUsers).run Cmd.exec
      [true, false, true, false, true, true, false, false]).world.storage :=
  objects_kept (fun _ => none) faithful_exec twoUsers_named deletedTwice_named deletedTwice_tame _
    (by decide) fun _ user filename => by simp [deletedTwice, objectOwner]

end Isolation
