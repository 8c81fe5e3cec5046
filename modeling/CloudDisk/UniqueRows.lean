import CloudDisk.Accounts
import CloudDisk.ReferenceCounts
import CloudDisk.SuccessReplies

/-! # One row for each key

No table has a key. A handler looks for a row before it inserts one, but takes a lookup that
failed for one that found nothing, and an upload does not look at all. Calls whose lookup
answers when there is something to find keep every key single. -/
namespace UniqueRows

open ByteStrings CommandPrograms RowTables DiskState DiskHandlers HandlerRules HandlerEffects
  DiskCalls ReferenceCounts SuccessReplies JsonBodies RequestLoops Accounts

structure System where
  users : Multiset User
  disk : Disk

structure ListsUnique (d : Disk) : Prop where
  files : ∀ user md5 filename,
    countWhere (UserFile.isRow user md5 filename) d.userFileList ≤ 1
  shares : ∀ md5 filename,
    countWhere (DiskState.ShareFile.isNamed md5 filename) d.shareFileList ≤ 1

structure Unique (s : System) : Prop extends ListsUnique s.disk where
  names : ∀ name, countWhere (User.named name) s.users ≤ 1

theorem countWhere_cons_le_one {α κ : Type} (isKey : κ → α → Bool) (key : κ) {t : Multiset α}
    {r : α}
    (h : ∀ k, countWhere (isKey k) t ≤ 1) (hn : ∀ s ∈ t, isKey key s = false)
    (hkey : ∀ k, isKey k r → k = key) (k : κ) : countWhere (isKey k) (r ::ₘ t) ≤ 1 := by
  have hk := h k
  rw [countWhere_cons]
  split
  next hr =>
    rw [hkey k hr, countWhere_eq_zero.mpr hn]
  next => exact hk

section Commands
variable {d : Disk}

/-- Commands that add no row to the two lists and change no key in them. -/
def Keeping : Cmd → Prop
  | .query (.userFileList op) => (∃ p columns, op = .select p columns) ∨ (∃ p, op = .delete p) ∨
      ∃ p n, op = .update p fun r => { r with sharedStatus := n }
  | .query (.shareFileList op) => (∃ p columns, op = .select p columns) ∨ ∃ p, op = .delete p
  | _ => True

theorem keeping_unique (c : Cmd) (hc : Keeping c) (o : Outcome) (d : Disk) (h : ListsUnique d) :
    ListsUnique (Cmd.exec o c d).2 := by
  cases o with
  | fail => exact h
  | ok k =>
    cases c with
    | mysqlConnect => exact h
    | redisConnect => exact h
    | redis c => exact ⟨h.files, h.shares⟩
    | fdfsDelete fileid =>
      simp only [Cmd.exec]
      split
      · exact ⟨h.files, h.shares⟩
      · exact h
    | query q =>
      simp only [Cmd.exec]
      cases q.result k d with
      | none => exact h
      | some rs =>
        cases q with
        | userFileList op =>
          rcases hc with ⟨p, columns, rfl⟩ | ⟨p, rfl⟩ | ⟨p, n, rfl⟩
          · exact h
          · exact ⟨fun u m f => countWhere_delete_le.trans (h.files u m f), h.shares⟩
          · refine ⟨fun u m f => ?_, h.shares⟩
            have hsame := countWhere_update (p := p) (q := UserFile.isRow u m f)
              (f := fun r => { r with sharedStatus := n }) (t := d.userFileList) fun _ _ => rfl
            exact hsame.trans_le (h.files u m f)
        | shareFileList op =>
          rcases hc with ⟨p, columns, rfl⟩ | ⟨p, rfl⟩
          · exact h
          · exact ⟨h.files, fun m f => countWhere_delete_le.trans (h.shares m f)⟩
        | setNames => exact h
        | fileInfo op => exact ⟨h.files, h.shares⟩
        | userFileCount op => exact ⟨h.files, h.shares⟩
        | rankShares => exact h
        | userFileInfo user => exact h
        | shareFileInfo start count => exact h

theorem keeping_plumbing : Plumbing Keeping :=
  ⟨trivial, trivial, trivial, fun _ => trivial, fun _ _ => trivial⟩

theorem spec_keeping {α : Type} {adm : Outcome → Prop} {p : Handler α} (hp : p.All Keeping)
    (h : ListsUnique d) : Spec Cmd.exec adm p d fun _ d' => ListsUnique d' :=
  spec_all keeping_unique hp h

theorem run_keeping {α : Type} {p : Handler α} (hp : p.All Keeping) (h : ListsUnique d)
    (e : ℕ → Outcome) : ListsUnique (p.run Cmd.exec e d).2 := by
  have hspec : Spec Cmd.exec AnyOutcome p d fun _ d' => ListsUnique d' := spec_keeping hp h
  exact hspec e fun _ => trivial

end Commands

section Handlers
variable {now user md5 filename : CString} {d : Disk} {e : ℕ → Outcome}

theorem all_tail {user : CString} :
    (do if !(← raiseUserCount user) then return (-1 : ℤ)
        return 0 : Handler ℤ).All Keeping :=
  all_bind (all_raiseUserCount keeping_plumbing) fun _ => all_ite trivial trivial

theorem ListsUnique.insertUserFile (h : ListsUnique d)
    (hn : ∀ r ∈ d.userFileList, r.isRow user md5 filename = false) :
    ListsUnique ((DiskState.insertUserFile user md5 filename now).effect d) := by
  refine ⟨fun u m f => ?_, h.shares⟩
  refine countWhere_cons_le_one (fun k r => UserFile.isRow k.1 k.2.1 k.2.2 r)
    (user, md5, filename) (fun k => h.files k.1 k.2.1 k.2.2) hn ?_ (u, m, f)
  rintro ⟨u, m, f⟩ hk
  simp only [UserFile.isRow, decide_eq_true_eq] at hk
  obtain ⟨rfl, rfl, rfl⟩ := hk
  rfl

theorem ListsUnique.insertShareFile (h : ListsUnique d)
    (hn : ∀ r ∈ d.shareFileList, r.isNamed md5 filename = false) :
    ListsUnique ((DiskState.insertShareFile user md5 filename now).effect d) := by
  refine ⟨h.files, fun m f => ?_⟩
  refine countWhere_cons_le_one (fun k r => DiskState.ShareFile.isNamed k.1 k.2 r)
    (md5, filename) (fun k => h.shares k.1 k.2) hn ?_ (m, f)
  rintro ⟨m, f⟩ hk
  simp only [DiskState.ShareFile.isNamed, decide_eq_true_eq] at hk
  obtain ⟨rfl, rfl⟩ := hk
  rfl

theorem storeFile_unique {size : ℤ} {fileid url : CString} (h : ListsUnique d)
    (hn : ∀ r ∈ d.userFileList, r.isRow user md5 filename = false) :
    Spec Cmd.exec AnyOutcome (storeFileinfoToMysql now user filename md5 size fileid url) d
      fun _ d' => ListsUnique d' := by
  unfold storeFileinfoToMysql storeFileinfoToMysqlIn
  refine spec_msqlConn ?_ fun _ => spec_ret h
  apply spec_setNames
  intro _
  refine spec_mysqlQuery (fun _ => rfl) ?_ fun _ => spec_ret h
  have hd : ListsUnique ((insertFileInfo
      ⟨md5, fileid, url, size, getFileSuffix filename, 1⟩).effect d) := ⟨h.files, h.shares⟩
  refine spec_mysqlQuery (fun _ => rfl) ?_ fun _ => spec_ret hd
  exact spec_keeping all_tail (hd.insertUserFile hn)

theorem addReference_unique {n : ℤ} (h : ListsUnique d)
    (hn : ∀ r ∈ d.userFileList, r.isRow user md5 filename = false) {p : Handler ℤ} (hp : p = do
      if !(← mysqlQuery (updateFileCount md5 n)) then return -1
      if !(← mysqlQuery (DiskState.insertUserFile user md5 filename now)) then return -1
      if !(← raiseUserCount user) then return -1
      return (0 : ℤ)) :
    Spec Cmd.exec AnyOutcome p d fun _ d' => ListsUnique d' := by
  subst hp
  refine spec_mysqlQuery (fun _ => rfl) ?_ fun _ => spec_ret h
  have hd : ListsUnique ((updateFileCount md5 n).effect d) := ⟨h.files, h.shares⟩
  refine spec_mysqlQuery (fun _ => rfl) ?_ fun _ => spec_ret hd
  exact spec_keeping all_tail (hd.insertUserFile hn)

def Given (e : ℕ → Outcome) (i : ℕ) (o : Outcome) : Prop := e i = o

theorem run_of_given {α : Type} {p : Handler α} {Q : α → Disk → Prop}
    (h : SpecSeq Cmd.exec (Given e) p d Q) : Q (p.run Cmd.exec e d).1 (p.run Cmd.exec e d).2 :=
  h e fun _ => rfl

theorem specSeq_any {α : Type} {adm : ℕ → Outcome → Prop} {p : Handler α} {Q : α → Disk → Prop}
    (h : Spec Cmd.exec AnyOutcome p d Q) : SpecSeq Cmd.exec adm p d Q :=
  fun e _ => h e fun _ => trivial

theorem dealMd5_unique (h : ListsUnique d)
    (hcheck : (∃ r ∈ d.userFileList, r.isRow user md5 filename) → e 3 ≠ .fail) :
    ListsUnique ((dealMd5 now user md5 filename).run Cmd.exec e d).2 := by
  apply run_of_given (Q := fun _ d' => ListsUnique d')
  unfold dealMd5 dealMd5In
  refine specSeq_msqlConn (fun _ _ => ?_) fun _ => specSeq_ret h
  apply specSeq_setNames
  intro _
  refine specSeq_select (t := d.fileInfo) (fun _ => rfl) rfl (fun _ _ r hr hm => ?_)
    (fun _ _ _ => specSeq_ret h) fun _ => specSeq_ret h
  refine specSeq_select (t := d.userFileList) (fun _ => rfl) rfl (fun _ _ s hs hu => ?_)
    (fun _ _ hn => ?_) fun hfail => ?_
  · exact specSeq_ret h
  · exact specSeq_any (addReference_unique h hn rfl)
  · refine specSeq_any (addReference_unique h ?_ rfl)
    exact none_iff_not_exists.mpr fun hex => hcheck hex hfail

theorem saveFile_unique (h : ListsUnique d)
    (hcheck : (∃ r ∈ d.userFileList, r.isRow user md5 filename) → e 2 ≠ .fail) :
    ListsUnique ((saveFile now user md5 filename).run Cmd.exec e d).2 := by
  have hrest : (∀ r ∈ d.userFileList, r.isRow user md5 filename = false) →
      Spec Cmd.exec AnyOutcome (saveFileReference now user md5 filename) d
        fun _ d' => ListsUnique d' := by
    intro hn
    refine spec_selectFileCount (fun r _ _ => ?_) (fun _ => spec_ret h) fun _ => spec_ret h
    exact addReference_unique h hn rfl
  apply run_of_given (Q := fun _ d' => ListsUnique d')
  unfold saveFile saveFileIn
  refine specSeq_msqlConn (fun _ _ => ?_) fun _ => specSeq_ret h
  apply specSeq_setNames
  intro _
  refine specSeq_select (t := d.userFileList) (fun _ => rfl) rfl (fun _ _ s hs hu => ?_)
    (fun _ _ hn => ?_) fun hfail => ?_
  · exact specSeq_ret h
  · exact specSeq_any (hrest hn)
  · exact specSeq_any (hrest (none_iff_not_exists.mpr fun hex => hcheck hex hfail))

theorem shareFile_unique (h : ListsUnique d)
    (hcheck : (∃ r ∈ d.shareFileList, r.isNamed md5 filename) → e 4 ≠ .fail) :
    ListsUnique ((shareFile now user md5 filename).run Cmd.exec e d).2 := by
  have hwrites : ∀ p : Handler ℤ, (∀ r ∈ d.shareFileList, r.isNamed md5 filename = false) →
      (p = do
        if !(← mysqlQuery (updateSharedStatus user md5 filename 1)) then return -1
        if !(← mysqlQuery (DiskState.insertShareFile user md5 filename now)) then return -1
        if !(← raiseUserCount shareCountKey) then return -1
        let _ ← ropZsetAdd filePublicZset 0 (md5 ++ filename)
        let _ ← ropHashSet fileNameHash (md5 ++ filename) filename
        return (0 : ℤ)) →
      Spec Cmd.exec AnyOutcome p d fun _ d' => ListsUnique d' := by
    rintro p hn rfl
    refine spec_mysqlQuery (fun _ => rfl) ?_ fun _ => spec_ret h
    have hd : ListsUnique ((updateSharedStatus user md5 filename 1).effect d) :=
      keeping_unique (.query (updateSharedStatus user md5 filename 1))
        (Or.inr (Or.inr ⟨_, _, rfl⟩)) (.ok 0) d h
    refine spec_mysqlQuery (fun _ => rfl) ?_ fun _ => spec_ret hd
    refine spec_keeping ?_ (hd.insertShareFile hn)
    refine all_bind (all_raiseUserCount keeping_plumbing) fun _ => all_ite trivial ?_
    apply all_bind (all_ropWantsOne trivial)
    intro _
    exact all_bind (all_ropHashSet trivial) fun _ => trivial
  apply run_of_given (Q := fun _ d' => ListsUnique d')
  unfold shareFile
  refine specSeq_ropConnect (fun _ _ => ?_) fun _ => specSeq_ret h
  refine specSeq_msqlConn (fun _ _ => ?_) fun _ => specSeq_ret h
  apply specSeq_setNames
  intro _
  refine specSeq_ropZsetExit (fun _ _ => ?_) fun _ => specSeq_ret h
  by_cases h1 : zsetExit d (md5 ++ filename) = 1
  · rw [if_pos h1]
    exact specSeq_ret h
  rw [if_neg h1]
  by_cases h0 : zsetExit d (md5 ++ filename) = 0
  · rw [if_neg (not_not.mpr h0)]
    refine specSeq_select (t := d.shareFileList) (fun _ => rfl) rfl (fun _ _ r _ _ => ?_)
      (fun _ _ hn => ?_) fun hfail => ?_
    · refine specSeq_any (spec_keeping ?_ h)
      exact all_bind (all_ropWantsOne trivial) fun _ => trivial
    · exact specSeq_any (hwrites _ hn rfl)
    · refine specSeq_any (hwrites _ ?_ rfl)
      exact none_iff_not_exists.mpr fun hex => hcheck hex hfail
  · rw [if_pos h0]
    exact specSeq_ret h

theorem keeping_cancelShareFile : (cancelShareFile user md5 filename).All Keeping :=
  all_cancelShareFile keeping_plumbing (.inr (.inr ⟨_, _, rfl⟩)) (.inr ⟨_, rfl⟩)

theorem keeping_delFile : (delFile user md5 filename).All Keeping :=
  all_delFile keeping_plumbing (.inl ⟨_, _, rfl⟩) (.inr ⟨_, rfl⟩) (.inr (.inl ⟨_, rfl⟩))
    (all_delFileReference trivial (fun _ => trivial) trivial trivial fun _ => trivial)

end Handlers

/-! ## Calls, one at a time -/

inductive Request where
  | register (now regBuf : CString)
  | call (c : Call)

def Request.run (e : ℕ → Outcome) : Request → System → System
  | .register now regBuf, s =>
    { s with users := ((userRegister now regBuf).run AccountCmd.exec e s.users).2 }
  | .call c, s => { s with disk := (c.handler.run Cmd.exec e (c.arrive s.disk)).2 }

/-- If there is a row to be found then the lookup for it does not fail; and what is uploaded
is not in the user's list yet. -/
def Checked (e : ℕ → Outcome) (s : System) : Request → Prop
  | .register _ regBuf => ∀ write, getInfo regFields regBuf = .complete write →
      (∃ u ∈ s.users, u.named (write noRegistration).user) → e 2 ≠ .fail
  | .call (.upload _ user md5 filename _ _ _) =>
      ∀ r ∈ s.disk.userFileList, r.isRow user md5 filename = false
  | .call (.dealMd5 _ user md5 filename) =>
      (∃ r ∈ s.disk.userFileList, r.isRow user md5 filename) → e 3 ≠ .fail
  | .call (.saveFile _ user md5 filename) =>
      (∃ r ∈ s.disk.userFileList, r.isRow user md5 filename) → e 2 ≠ .fail
  | .call (.shareFile _ _ md5 filename) =>
      (∃ r ∈ s.disk.shareFileList, r.isNamed md5 filename) → e 4 ≠ .fail
  | .call _ => True

/-- The states of a run of calls, each of them allowed where it starts. -/
inductive Run (Allowed : (ℕ → Outcome) → System → Request → Prop) (s₀ : System) :
    System → Prop where
  | start : Run Allowed s₀ s₀
  | step (s : System) (r : Request) (e : ℕ → Outcome) (hs : Run Allowed s₀ s)
      (hr : Allowed e s r) : Run Allowed s₀ (r.run e s)

section Steps
variable {s : System} {e : ℕ → Outcome}

theorem registerUser_names {now : CString} {r : Registration} {t : Multiset User}
    (h : ∀ name, countWhere (User.named name) t ≤ 1)
    (hcheck : (∃ u ∈ t, u.named r.user) → e 2 ≠ .fail) (name : CString) :
    countWhere (User.named name) ((registerUser now r).run AccountCmd.exec e t).2 ≤ 1 := by
  have hinsert : ∀ adm (next : Reply → Prog AccountCmd Reply ℤ),
      (∀ reply, ∃ n, next reply = .ret n) →
      (∀ u ∈ t, u.named r.user = false) →
      SpecSeq AccountCmd.exec adm (.call (.query (.insertUser (r.row now))) next) t
        fun _ t' => countWhere (User.named name) t' ≤ 1 := by
    intro adm next hnext hn
    apply specSeq_call
    intro o _
    obtain ⟨n, hret⟩ := hnext (AccountCmd.exec o (.query (.insertUser (r.row now))) t).1
    rw [hret]
    cases o with
    | fail => exact specSeq_ret (h name)
    | ok k =>
      refine specSeq_ret (countWhere_cons_le_one User.named r.user h hn (fun k hk => ?_) name)
      simpa [User.named, Registration.row, eq_comm] using hk
  have hspec : SpecSeq AccountCmd.exec (Given e) (registerUser now r) t
      fun _ t' => countWhere (User.named name) t' ≤ 1 := by
    apply specSeq_call
    intro o _
    cases o with
    | fail => exact specSeq_ret (h name)
    | ok k =>
      apply specSeq_call
      intro o _
      have hnames : (AccountCmd.exec o .setNames t).2 = t := by cases o <;> rfl
      rw [show (AccountCmd.exec (.ok k) .mysqlConnect t).2 = t from rfl, hnames]
      apply specSeq_call
      intro o ho
      cases o with
      | fail =>
        refine hinsert _ _ (fun reply => ?_) (none_iff_not_exists.mpr fun hex => hcheck hex ho)
        cases reply <;> exact ⟨_, rfl⟩
      | ok l =>
        simp only [AccountCmd.exec]
        cases hl : listing l ((AccountSql.selectUser r.user).answer t) with
        | nil =>
          rw [listing_eq_nil, AccountSql.answer, Multiset.map_eq_zero, rowsWhere_eq_zero] at hl
          refine hinsert _ _ (fun reply => ?_) hl
          cases reply <;> exact ⟨_, rfl⟩
        | cons row rest => exact specSeq_ret (h name)
  exact hspec e fun _ => rfl

theorem request_unique {r : Request} (h : Unique s) (hr : Checked e s r) : Unique (r.run e s) := by
  cases r with
  | register now regBuf =>
    refine ⟨h.toListsUnique, fun name => ?_⟩
    change countWhere _ ((userRegister now regBuf).run AccountCmd.exec e s.users).2 ≤ 1
    unfold userRegister
    cases hinfo : getInfo regFields regBuf with
    | crashed => exact h.names name
    | stopped write => exact h.names name
    | complete write =>
      change countWhere _ ((registerUser now (write noRegistration) >>= fun ret =>
        .ret (some ret)).run AccountCmd.exec e s.users).2 ≤ 1
      rw [run_bind_ret]
      exact registerUser_names h.names (hr write hinfo) name
  | call c =>
    refine ⟨?_, h.names⟩
    have hd := h.toListsUnique
    cases c with
    | upload now user md5 filename size fileid url =>
      have harrive : ListsUnique { s.disk with storage := insert fileid s.disk.storage } :=
        ⟨hd.files, hd.shares⟩
      exact storeFile_unique harrive hr e fun _ => trivial
    | dealMd5 now user md5 filename => exact dealMd5_unique hd hr
    | saveFile now user md5 filename => exact saveFile_unique hd hr
    | shareFile now user md5 filename => exact shareFile_unique hd hr
    | cancelShareFile user md5 filename =>
      exact run_keeping keeping_cancelShareFile hd e
    | delFile user md5 filename =>
      exact run_keeping keeping_delFile hd e

end Steps

theorem rows_unique {s₀ s : System} (h₀ : Unique s₀) (h : Run Checked s₀ s) : Unique s := by
  induction h with
  | start => exact h₀
  | step s r e _ hr ih => exact request_unique ih hr

def emptySystem : System := ⟨0, emptyDisk⟩

theorem emptySystem_unique : Unique emptySystem where
  files _ _ _ := by simp [emptySystem, emptyDisk]
  shares _ _ := by simp [emptySystem, emptyDisk]
  names _ := by simp [emptySystem]

def regBody : CString :=
  cstr "\x7b\"userName\":\"a\",\"nickName\":\"\"," ++
    cstr "\"firstPwd\":\"p\",\"phone\":\"\",\"email\":\"\"\x7d"

def Request.twice (r : Request) (e e' : ℕ → Outcome) : System := r.run e' (r.run e emptySystem)

/-- A user registers twice and uploads a file; nothing fails. -/
theorem rows_unique_registered : ∃ s, Run Checked emptySystem s ∧
    Multiset.card s.users = 1 ∧ Multiset.card s.disk.userFileList = 1 ∧ Unique s := by
  have hok : ∀ i : ℕ, (fun _ => Outcome.ok 0) i ≠ .fail := fun _ => by simp
  have h0 : Run Checked emptySystem emptySystem := .start
  have h1 := h0.step _ (.register [] regBody) (fun _ => .ok 0) fun _ _ _ => hok 2
  have h2 := h1.step _ (.register [] regBody) (fun _ => .ok 0) fun _ _ _ => hok 2
  have h3 := h2.step _ (.call (.upload [] [97] [1] [102] 9 [7] [])) (fun _ => .ok 0)
    fun r hr => absurd hr (Multiset.notMem_zero r)
  exact ⟨_, h3, by decide +kernel, by decide +kernel, rows_unique emptySystem_unique h3⟩

/-- A second registration whose lookup fails, a second upload without any failure, and a
second share whose lookup fails after the cache missed the first. -/
theorem rows_not_unique :
    ¬ Unique ((Request.register [] regBody).twice (fun _ => .ok 0) (failAt 2)) ∧
    ¬ Unique ((Request.call (.upload [] [97] [1] [102] 9 [7] [])).twice
      (fun _ => .ok 0) (fun _ => .ok 0)) ∧
    ¬ Unique ((Request.call (.shareFile [] [97] [1] [102])).twice (failAt 9) (failAt 4)) := by
  refine ⟨fun h => ?_, fun h => ?_, fun h => ?_⟩
  · exact absurd (h.names [97]) (by decide +kernel)
  · exact absurd (h.files [97] [1] [102]) (by decide +kernel)
  · exact absurd (h.shares [1] [102]) (by decide +kernel)

end UniqueRows
