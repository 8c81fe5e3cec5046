import CloudDisk.CommandConflicts
import CloudDisk.ReferenceCounts

/-! # The md5, filesop and upload programs at the same time

One `deal_md5` and one `del_file` of the same file and one upload of another file take turns,
command by command, on one database. Nothing makes a read and the write that depends on it
one unit. The calls come out as if run one after another when conflicting statements of
different calls keep one common order of the calls, and not in general. The upload is about another
content: it conflicts with the other two only in the counters of the users. -/
namespace ConcurrentCalls

open ByteStrings CommandPrograms RowTables DiskState DiskHandlers HandlerRules HandlerEffects
  ReferenceCounts Interleavings CommandConflicts

inductive Caller where
  | md5
  | filesop
  | upload
  deriving DecidableEq

/-- The arguments of the three calls; `md5` is the file of the first two. -/
structure Calls where
  md5 : CString
  now : CString
  user : CString
  filename : CString
  delUser : CString
  delFilename : CString
  newMd5 : CString
  newNow : CString
  newUser : CString
  newFilename : CString
  size : ℤ
  fileid : CString
  url : CString

def Calls.handler (c : Calls) : Caller → Handler ℤ
  | .md5 => dealMd5 c.now c.user c.md5 c.filename
  | .filesop => delFile c.delUser c.md5 c.delFilename
  | .upload => storeFileinfoToMysql c.newNow c.newUser c.newFilename c.newMd5 c.size c.fileid c.url

def Calls.pool (c : Calls) (e : Caller → ℕ → Outcome) (i : Caller) : Thread Cmd Reply Outcome ℤ :=
  ⟨c.handler i, e i⟩

def Calls.start (c : Calls) (e : Caller → ℕ → Outcome) (d : Disk) :
    System Caller Cmd Reply Outcome Disk ℤ := ⟨c.pool e, d⟩

def outcome (s : System Caller Cmd Reply Outcome Disk ℤ) : (Caller → Option ℤ) × Disk :=
  (fun i => (s.pool i).result, s.world)

structure CountsRight (d : Disk) : Prop where
  files : ∀ r ∈ d.fileInfo, r.count = references d r.md5
  listed : ∀ r ∈ d.userFileList, ∃ s ∈ d.fileInfo, s.md5 = r.md5
  users : ∀ r ∈ d.userFileCount, r.user ≠ shareCountKey → r.count = owned d r.user
  stored : ∀ r ∈ d.fileInfo, r.fileId ∈ d.storage

structure Ready (c : Calls) (d : Disk) : Prop where
  counts : CountsRight d
  row : ∃ r ∈ d.userFileList, r.isRow c.delUser c.md5 c.delFilename
  other : c.newMd5 ≠ c.md5
  uploader : c.newUser = c.user ∨ c.newUser = c.delUser

/-- Running the calls one after another in some order can end like this. -/
def Serializable (c : Calls) (d : Disk) (final : (Caller → Option ℤ) × Disk) : Prop :=
  ∃ order, order.Perm [Caller.md5, .filesop, .upload] ∧ ∃ e, (∀ i n, NoFail (e i n)) ∧
    serial Cmd.exec (c.pool e) order (fun _ => none, d) = final

/-- If `deal_md5` replied 005 the file is known and stored. -/
def Kept (c : Calls) (final : (Caller → Option ℤ) × Disk) : Prop :=
  (∃ ret, final.1 .md5 = some ret ∧ dealMd5Status ret = .c005) →
    ∃ r ∈ final.2.fileInfo, r.hasMd5 c.md5 ∧ r.fileId ∈ final.2.storage

/-! ## One after another -/

section Serial
variable {c : Calls} {d d' : Disk} {results : Caller → Option ℤ} {n : ℤ}

structure Between (c : Calls) (s : (Caller → Option ℤ) × Disk) : Prop where
  stored : ∀ r ∈ s.2.fileInfo, r.hasMd5 c.md5 → r.fileId ∈ s.2.storage
  counted : s.1 .filesop = none → ∀ r ∈ s.2.fileInfo, r.hasMd5 c.md5 → 1 ≤ r.count
  added : s.1 .md5 = some 0 → (∃ r ∈ s.2.fileInfo, r.hasMd5 c.md5) ∧
    (s.1 .filesop = none → ∀ r ∈ s.2.fileInfo, r.hasMd5 c.md5 → 2 ≤ r.count)

theorem between_start (h : Ready c d) : Between c (fun _ => none, d) := by
  constructor
  · intro r hr _
    exact h.counts.stored r hr
  · intro _ r hr hm
    obtain ⟨u, hu, hrow⟩ := h.row
    have hpos : 0 < references d c.md5 := countWhere_pos.mpr ⟨u, hu, isRow_refersTo u hrow⟩
    rw [h.counts.files r hr, hasMd5_key r hm]
    omega
  · intro h0
    simp at h0

theorem exists_setFileCount {md5 : CString} (count : ℤ) {files : Multiset FileInfo}
    (h : ∃ r ∈ files, r.hasMd5 md5) : ∃ r ∈ setFileCount md5 count files, r.hasMd5 md5 := by
  obtain ⟨r, hr, hm⟩ := h
  exact ⟨{ r with count }, mem_updateWhere.mpr (.inl ⟨r, hr, hm, rfl⟩), hm⟩

theorem between_dealMd5 (h : Between c (results, d))
    (he : DealMd5 c.now c.user c.md5 c.filename d n d') :
    Between c (Function.update results .md5 (some n), d') := by
  cases he with
  | unknown hn => exact ⟨h.stored, h.counted, fun h0 => by simp at h0⟩
  | owned r hr hu => exact ⟨h.stored, h.counted, fun h0 => by simp at h0⟩
  | added r hr hm hn t ht =>
    constructor
    · intro s hs hsm
      obtain ⟨q, hq, m, rfl, -⟩ := mem_setFileCount hs
      exact h.stored q hq hsm
    · intro hnone s hs hsm
      have hr1 := h.counted hnone r hr hm
      obtain ⟨q, -, m, rfl, hcount⟩ := mem_setFileCount hs
      obtain rfl := hcount hsm
      change 1 ≤ r.count + 1
      omega
    · intro _
      refine ⟨exists_setFileCount _ ⟨r, hr, hm⟩, fun hnone s hs hsm => ?_⟩
      have hr1 := h.counted hnone r hr hm
      obtain ⟨q, -, m, rfl, hcount⟩ := mem_setFileCount hs
      obtain rfl := hcount hsm
      change 2 ≤ r.count + 1
      omega

theorem Between.sameFiles (h : Between c (results, d)) (hs : SameFiles d d') :
    Between c (results, d') := by
  obtain ⟨stored, counted, added⟩ := h
  rw [show d.fileInfo = d'.fileInfo from hs.fileInfo.symm] at stored counted added
  rw [show d.storage = d'.storage from hs.storage.symm] at stored
  exact ⟨stored, counted, added⟩

theorem between_released {b : Bool} (h : Between c (results, d)) (hnone : results .filesop = none)
    (he : Released c.md5 d b d') :
    Between c (Function.update results .filesop (some n), d') := by
  have hgone : ∀ r ∈ deleteWhere (FileInfo.hasMd5 c.md5) d.fileInfo, ¬ r.hasMd5 c.md5 :=
    fun r hr hm => by simp [(mem_deleteWhere.mp hr).2] at hm
  cases he with
  | missing hn => exact ⟨h.stored, fun h0 => by simp at h0, fun h0 =>
      ⟨(h.added h0).1, fun h1 => by simp at h1⟩⟩
  | kept r hr hm hc =>
    refine ⟨fun s hs hsm => ?_, fun h0 => by simp at h0, fun h0 =>
      ⟨exists_setFileCount _ (h.added h0).1, fun h1 => by simp at h1⟩⟩
    obtain ⟨q, hq, m, rfl, -⟩ := mem_setFileCount hs
    exact h.stored q hq hsm
  | dropped r s hr hm hc hs hsm hst =>
    refine ⟨fun q hq hqm => absurd hqm (hgone q hq), fun h0 => by simp at h0, fun h0 => ?_⟩
    have htwo := (h.added h0).2 hnone r hr hm
    omega
  | lost r s hr hm hc hs hsm hst =>
    refine ⟨fun q hq hqm => absurd hqm (hgone q hq), fun h0 => by simp at h0, fun h0 => ?_⟩
    have htwo := (h.added h0).2 hnone r hr hm
    omega

theorem between_delFile (h : Between c (results, d)) (hnone : results .filesop = none)
    (he : DelFile c.delUser c.md5 c.delFilename d n d') :
    Between c (Function.update results .filesop (some n), d') := by
  have hdone : ∀ d₁, Between c (results, d₁) →
      Between c (Function.update results .filesop (some n), d₁) := fun d₁ h₁ =>
    ⟨h₁.stored, fun h0 => by simp at h0, fun h0 => ⟨(h₁.added h0).1, fun h1 => by simp at h1⟩⟩
  cases he with
  | confused hm => exact hdone d h
  | stuck flag hm d₁ hu =>
    exact hdone _ (h.sameFiles (unshared_sharesOnly hu).toSameFiles)
  | uncounted d₁ hc hn => exact hdone _ (h.sameFiles (cleared_sharesOnly hc).1.toSameFiles)
  | deleted d₁ hc t ht b d₂ hr =>
    obtain ⟨stored, counted, added⟩ := h.sameFiles (cleared_sharesOnly hc).1.toSameFiles
    have hdrop : Between c (results, dropUserFile c.delUser c.md5 c.delFilename t d₁) :=
      ⟨stored, counted, added⟩
    exact between_released hdrop hnone hr

theorem between_storeFile (hother : c.newMd5 ≠ c.md5) (h : Between c (results, d))
    (he : StoreFile c.newNow c.newUser c.newMd5 c.newFilename c.size c.fileid c.url d n d') :
    Between c (Function.update results .upload (some n), d') := by
  obtain ⟨t, ht⟩ := he
  have hmem : ∀ r ∈ (⟨c.newMd5, c.fileid, c.url, c.size, getFileSuffix c.newFilename, 1⟩ : FileInfo)
      ::ₘ d.fileInfo, r.hasMd5 c.md5 → r ∈ d.fileInfo := by
    intro r hr hm
    rcases Multiset.mem_cons.mp hr with rfl | hr
    · simp [FileInfo.hasMd5, hother] at hm
    · exact hr
  constructor
  · intro r hr hm
    exact h.stored r (hmem r hr hm) hm
  · intro h0 r hr hm
    exact h.counted h0 r (hmem r hr hm) hm
  · intro h0
    obtain ⟨⟨r, hr, hm⟩, htwo⟩ := h.added h0
    exact ⟨⟨r, Multiset.mem_cons_of_mem hr, hm⟩, fun h1 s hs hsm => htwo h1 s (hmem s hs hsm) hsm⟩

theorem kept_of_serializable (h : Ready c d) {final : (Caller → Option ℤ) × Disk}
    (hs : Serializable c d final) : Kept c final := by
  obtain ⟨order, hperm, e, he, rfl⟩ := hs
  have hnodup : order.Nodup := hperm.nodup_iff.mpr (by decide)
  have hend : Between c (serial Cmd.exec (c.pool e) order (fun _ => none, d)) := by
    apply serial_invariant _ order hnodup _ (fun _ _ => rfl) (between_start h)
    intro i results w hnone hw
    cases i with
    | md5 => exact between_dealMd5 hw (dealMd5_effect _ _ _ _ w _ (he .md5))
    | filesop => exact between_delFile hw hnone (delFile_effect _ _ _ w _ (he .filesop))
    | upload =>
      exact between_storeFile h.other hw
        (storeFileinfoToMysql_effect _ _ _ _ _ _ _ w _ (he .upload))
  rintro ⟨ret, hret, hcode⟩
  have hzero : ret = 0 := by
    by_contra hne
    simp only [dealMd5Status, hne, if_false] at hcode
    split at hcode <;> simp at hcode
  obtain ⟨⟨r, hr, hm⟩, -⟩ := hend.added (hzero ▸ hret)
  exact ⟨r, hr, hm, hend.stored r hr hm⟩

end Serial

/-! ## What the calls have to do with each other -/

/-- Of the files and the lists only rows of this content are touched. -/
def OnFile (md5 : CString) : Cmd → Prop
  | .query (.fileInfo op) => ∀ r, op.Touches r → r.md5 = md5
  | .query (.userFileList op) => ∀ r, op.Touches r → r.md5 = md5
  | .query q => joins q = false
  | _ => True

/-- Only files, lists and counters are touched, and no row of this content. -/
def OffFile (md5 : CString) : Cmd → Prop
  | .query (.fileInfo op) => ∀ r, op.Touches r → r.md5 ≠ md5
  | .query (.userFileList op) => ∀ r, op.Touches r → r.md5 ≠ md5
  | .query (.userFileCount _) | .query .setNames | .mysqlConnect | .redisConnect => True
  | _ => False

def onCounter : Cmd → Bool
  | .query (.userFileCount _) => true
  | _ => false

section Footprint
variable {now user md5 filename : CString}

theorem isRow_md5 (r : UserFile) (h : r.isRow user md5 filename) : r.md5 = md5 :=
  congrArg (·.2.1) (isRow_key r h)

theorem touches_update {count : ℤ} (r : FileInfo)
    (h : (TableOp.update (FileInfo.hasMd5 md5) fun r => { r with count } :
      TableOp FileInfo (List Cell)).Touches r) : r.md5 = md5 := by
  rcases h with h | ⟨s, h, rfl⟩ <;> exact hasMd5_key _ h

theorem onFile_plumbing : Plumbing (OnFile md5) :=
  ⟨trivial, trivial, rfl, fun _ => rfl, fun _ _ => trivial⟩

theorem onFile_dealMd5 : (dealMd5 now user md5 filename).All (OnFile md5) :=
  (stays_dealMd5 onFile_plumbing.wiring (onFile_plumbing.counting user) hasMd5_key isRow_md5
    (fun _ => touches_update) fun r hr => by rw [hr]).all

theorem onFile_delFile : (delFile user md5 filename).All (OnFile md5) := by
  apply all_delFile onFile_plumbing isRow_md5 rfl isRow_md5
  exact all_delFileReference hasMd5_key (fun _ => touches_update) hasMd5_key hasMd5_key
    fun _ => trivial

theorem offFile_storeFile {newMd5 fileid url : CString} {size : ℤ} (h : newMd5 ≠ md5) :
    (storeFileinfoToMysql now user filename newMd5 size fileid url).All (OffFile md5) :=
  (stays_storeFileinfoToMysql ⟨trivial, trivial, trivial⟩
    ⟨trivial, trivial, fun _ => trivial, trivial⟩ (fun r hr => by rwa [hr])
    fun r hr => by rwa [hr]).all

theorem onCounter_of_conflict {b a : Cmd} (hb : OffFile md5 b) (ha : OnFile md5 a)
    (h : Conflict b a) : onCounter b ∧ onCounter a := by
  cases b with
  | mysqlConnect => cases a <;> exact h.elim
  | redisConnect => cases a <;> exact h.elim
  | redis c => exact hb.elim
  | fdfsDelete fileid => exact hb.elim
  | query p =>
    cases a with
    | mysqlConnect => exact h.elim
    | redisConnect => exact h.elim
    | redis c => exact h.elim
    | fdfsDelete fileid => exact h.elim
    | query q =>
      cases p with
      | fileInfo op =>
        cases q with
        | fileInfo op' =>
          obtain ⟨-, r, hr, hr'⟩ := h
          exact absurd (ha r hr') (hb r hr)
        | _ => simp_all [Conflict, SqlConflict, OnFile, joins]
      | userFileList op =>
        cases q with
        | userFileList op' =>
          obtain ⟨-, r, hr, hr'⟩ := h
          exact absurd (ha r hr') (hb r hr)
        | _ => simp_all [Conflict, SqlConflict, OnFile, joins]
      | userFileCount op =>
        cases q with
        | userFileCount op' => exact ⟨rfl, rfl⟩
        | _ => simp_all [Conflict, SqlConflict, OnFile, joins]
      | setNames => cases q <;> simp_all [Conflict, SqlConflict, OnFile, joins, writes]
      | shareFileList op => exact hb.elim
      | rankShares => exact hb.elim
      | userFileInfo user => exact hb.elim
      | shareFileInfo start count => exact hb.elim

end Footprint

/-! ## Taking turns -/

/-- Before each statement, no statement of a call that the order puts later has already run
and conflicts with it. -/
def ConflictsInOrder (order : List Caller) (trace : List (Event Caller Cmd Outcome)) : Prop :=
  trace.Pairwise fun b a =>
    order.idxOf a.thread < order.idxOf b.thread → ¬ Conflict b.command a.command

/-- The same, but of the statements of the upload only those about the counters are looked at. -/
def InTurn (order : List Caller) (trace : List (Event Caller Cmd Outcome)) : Prop :=
  trace.Pairwise fun b a => order.idxOf a.thread < order.idxOf b.thread →
    (b.thread = .upload ∨ a.thread = .upload → onCounter b.command ∧ onCounter a.command) →
    ¬ Conflict b.command a.command

section Turns
variable {c : Calls} {d : Disk} {e : Caller → ℕ → Outcome} {schedule order : List Caller}

theorem trace_commands (hother : c.newMd5 ≠ c.md5) {a : Event Caller Cmd Outcome}
    (ha : a ∈ (c.start e d).trace Cmd.exec schedule) :
    (a.thread ≠ .upload → OnFile c.md5 a.command) ∧
      (a.thread = .upload → OffFile c.md5 a.command) := by
  refine trace_all (P := fun i cmd => (i ≠ Caller.upload → OnFile c.md5 cmd) ∧
    (i = .upload → OffFile c.md5 cmd)) schedule (c.start e d) (fun i => ?_) a ha
  cases i with
  | md5 => exact all_mono (fun _ h => ⟨fun _ => h, fun h => by cases h⟩) onFile_dealMd5
  | filesop => exact all_mono (fun _ h => ⟨fun _ => h, fun h => by cases h⟩) onFile_delFile
  | upload =>
    exact all_mono (fun _ h => ⟨fun hne => absurd rfl hne, fun _ => h⟩) (offFile_storeFile hother)

theorem conflictsInOrder_iff (hother : c.newMd5 ≠ c.md5) :
    ConflictsInOrder order ((c.start e d).trace Cmd.exec schedule) ↔
      InTurn order ((c.start e d).trace Cmd.exec schedule) := by
  constructor
  · exact fun h => h.imp fun hno hlt _ => hno hlt
  · intro h
    refine h.imp_of_mem fun {b a} hb ha hturn hlt hconflict => ?_
    obtain ⟨hbon, hboff⟩ := trace_commands hother hb
    obtain ⟨haon, haoff⟩ := trace_commands hother ha
    apply hturn hlt ?_ hconflict
    rintro (hup | hup)
    · apply onCounter_of_conflict (hboff hup) (haon ?_) hconflict
      intro hup'
      rw [hup, hup'] at hlt
      exact Nat.lt_irrefl _ hlt
    · apply And.symm
      apply onCounter_of_conflict (haoff hup) (hbon ?_) hconflict.symm
      intro hup'
      rw [hup, hup'] at hlt
      exact Nat.lt_irrefl _ hlt

theorem interleaving_serial (hready : Ready c d) (he : ∀ i n, NoFail (e i n))
    (hdone : ∀ i, (((c.start e d).run Cmd.exec schedule).pool i).result.isSome)
    (hperm : order.Perm [.md5, .filesop, .upload])
    (horder : InTurn order ((c.start e d).trace Cmd.exec schedule)) :
    Serializable c d (outcome ((c.start e d).run Cmd.exec schedule)) ∧
      Kept c (outcome ((c.start e d).run Cmd.exec schedule)) := by
  have hnodup : order.Nodup := hperm.nodup_iff.mpr (by decide)
  have hall : ∀ i, i ∈ order := fun i => hperm.mem_iff.mpr (by cases i <;> decide)
  have hin : InOrder Cmd.exec order ((c.start e d).trace Cmd.exec schedule) :=
    ((conflictsInOrder_iff hready.other).mpr horder).imp fun hno hlt =>
      independent_of_not_conflict (hno hlt)
  have hserial : Serializable c d (outcome ((c.start e d).run Cmd.exec schedule)) :=
    ⟨order, hperm, e, he, serializable hnodup hall hdone hin⟩
  exact ⟨hserial, kept_of_serializable hready hserial⟩

/-- `deal_md5` and `del_file` one after the other, and the upload anywhere between their
statements, as long as it is in order with those about the counters. -/
theorem inTurn_of_counters
    (hcalls : schedule.Pairwise fun j i =>
      order.idxOf i < order.idxOf j → j = .upload ∨ i = .upload)
    (hcounters : ((c.start e d).trace Cmd.exec schedule).Pairwise fun b a =>
      order.idxOf a.thread < order.idxOf b.thread → ¬ (onCounter b.command ∧ onCounter a.command)) :
    InTurn order ((c.start e d).trace Cmd.exec schedule) := by
  have hsub : (((c.start e d).trace Cmd.exec schedule).map Event.thread).Sublist schedule :=
    trace_threads schedule _
  have hthreads := List.pairwise_map.mp (hcalls.sublist hsub)
  exact hthreads.imp₂ (fun _ _ hup hno hlt himp _ => hno hlt (himp (hup hlt))) hcounters

end Turns

/-! ## Examples -/

/-- User `v` is the only owner of the file `1`; the object of a new upload is in place. -/
def oneOwner : Disk where
  fileInfo := {⟨[49], [7], [], 9, [], 1⟩}
  userFileList := {⟨[118], [49], [], [102], 0, 0⟩}
  shareFileList := 0
  userFileCount := {⟨[118], 1⟩}
  storage := {[7], [8]}
  redis _ := none

/-- User `a` wants the file `1` that `v` deletes, and uploads the file `2`. -/
def contended : Calls where
  md5 := [49]
  now := []
  user := [97]
  filename := [103]
  delUser := [118]
  delFilename := [102]
  newMd5 := [50]
  newNow := []
  newUser := [97]
  newFilename := [104]
  size := 9
  fileid := [8]
  url := []

theorem contended_ready : Ready contended oneOwner := by
  have hrow : (⟨[118], [49], [], [102], 0, 0⟩ : UserFile) ∈ oneOwner.userFileList := by decide
  have hfile : (⟨[49], [7], [], 9, [], 1⟩ : FileInfo) ∈ oneOwner.fileInfo := by decide
  refine ⟨⟨by decide, fun r hr => ?_, by decide, by decide⟩, ⟨_, hrow, by decide⟩, by decide,
    .inl rfl⟩
  obtain rfl := Multiset.mem_singleton.mp hr
  exact ⟨_, hfile, rfl⟩

def turns (l : List (ℕ × Caller)) : List Caller := l.flatMap fun q => List.replicate q.1 q.2

/-- The two calls and the upload by turns, without failures. -/
def contendedRun (l : List (ℕ × Caller)) : System Caller Cmd Reply Outcome Disk ℤ :=
  (contended.start (fun _ _ => .ok 0) oneOwner).run Cmd.exec (turns l)

theorem interleaving_serial_upload_around :
    Serializable contended oneOwner
        (outcome (contendedRun [(3, .upload), (8, .md5), (10, .filesop), (3, .upload)])) ∧
      Kept contended
        (outcome (contendedRun [(3, .upload), (8, .md5), (10, .filesop), (3, .upload)])) := by
  have hdone : ∀ i, ((contendedRun [(3, .upload), (8, .md5), (10, .filesop), (3, .upload)]).pool
      i).result.isSome := by
    intro i
    cases i <;> decide +kernel
  refine interleaving_serial contended_ready (fun _ _ => by simp [NoFail]) hdone
    (List.Perm.refl _) ?_
  apply inTurn_of_counters
  · decide
  · decide +kernel

/-- `deal_md5` has read the count when `del_file` runs and removes the file. -/
theorem interleaving_not_serial :
    Ready contended oneOwner ∧ ∃ l, (∀ i, ((contendedRun l).pool i).result.isSome) ∧
      ¬ Serializable contended oneOwner (outcome (contendedRun l)) ∧
      ¬ Kept contended (outcome (contendedRun l)) := by
  have hreply : ((contendedRun [(3, .md5), (13, .filesop), (5, .md5), (6, .upload)]).pool
      .md5).result = some 0 := by decide +kernel
  have hfiles : (contendedRun [(3, .md5), (13, .filesop), (5, .md5), (6, .upload)]).world.fileInfo =
      {⟨[50], [8], [], 9, cstr "null", 1⟩} := by decide +kernel
  have hdone : ∀ i, ((contendedRun [(3, .md5), (13, .filesop), (5, .md5), (6, .upload)]).pool
      i).result.isSome := by
    intro i
    cases i <;> decide +kernel
  have hlost : ¬ Kept contended
      (outcome (contendedRun [(3, .md5), (13, .filesop), (5, .md5), (6, .upload)])) := by
    intro hkept
    obtain ⟨r, hr, hm, -⟩ := hkept ⟨0, hreply, rfl⟩
    rw [outcome, hfiles, Multiset.mem_singleton] at hr
    rw [hr] at hm
    exact absurd hm (by decide)
  exact ⟨contended_ready, _, hdone, fun hs => hlost (kept_of_serializable contended_ready hs),
    hlost⟩

end ConcurrentCalls
