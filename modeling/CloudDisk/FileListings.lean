import CloudDisk.PrintedReplies
import CloudDisk.ReferenceCounts
import Mathlib.Algebra.Order.BigOperators.Group.Multiset

/-! # The list of a user's files

`get_user_filelist` joins `user_file_list` with `file_info`, and the number of files comes
from a counter. That the join neither loses nor repeats a row, and that the counter agrees
with it, rests on what the other handlers keep up over whole runs. Where the columns of
`file_info` came from is told by the history of calls. The list is logged before it is sent, and
the log has room for some 4000 bytes only. -/
namespace FileListings

open ByteStrings CommandPrograms RowTables DiskState DiskHandlers HandlerRules HandlerEffects
  DiskCalls ReferenceCounts JsonPrinting RequestLoops PrintedReplies
open HmsetCommands (Allocations)
open LogMessages (Tm mesgSize)

structure FileItem where
  user : CString
  md5 : CString
  time : CString
  filename : CString
  shareStatus : ℤ
  pv : ℤ
  url : CString
  size : ℤ
  type : CString
  deriving DecidableEq

/-- The columns of a fetched row are read by position. -/
def fileItem : List Cell → Option FileItem
  | [.str user, .str md5, .str time, .str filename, .int status, .int pv, .str url, .int size,
      .str type] => some ⟨user, md5, time, filename, status, pv, url, size, type⟩
  | _ => none

/-! ## Where a file came from -/

structure Creation where
  url : CString
  size : ℤ
  type : CString
  deriving DecidableEq

def creates (md5 : CString) : Call → Option Creation
  | .upload _ _ m filename size _ url =>
    if m = md5 then some ⟨url, size, getFileSuffix filename⟩ else none
  | _ => none

/-- The upload that created the present row of `file_info`: the latest one of that content,
in a history that has its latest call first. -/
def creation (history : List Call) (md5 : CString) : Option Creation :=
  history.findSome? (creates md5)

/-- Uploads are of new content and deletions of existing rows; nothing is shared. -/
def Listable (d : Disk) : Call → Prop
  | .upload _ _ md5 _ _ _ _ => ∀ r ∈ d.fileInfo, r.hasMd5 md5 = false
  | .delFile user md5 filename => ∃ r ∈ d.userFileList, r.isRow user md5 filename
  | .dealMd5 _ _ _ _ => True
  | .saveFile _ _ _ _ => True
  | .shareFile _ _ _ _ => False
  | .cancelShareFile _ _ _ => False

inductive Run : List Call → Disk → Prop where
  | start (d : Disk) (h : TablesEmpty d) : Run [] d
  | call (history : List Call) (d : Disk) (c : Call) (e : ℕ → Outcome) (hd : Run history d)
      (hc : Listable d c) (he : ∀ i, NoFail (e i)) :
      Run (c :: history) (c.handler.run Cmd.exec e (c.arrive d)).2

structure Recorded (history : List Call) (d : Disk) : Prop where
  tallies : Tallies d
  created : ∀ r ∈ d.fileInfo, creation history r.md5 = some ⟨r.url, r.size, r.type⟩

section Steps
variable {history : List Call} {d d' : Disk} {now user md5 filename : CString}
  {t : Multiset UserCount}

theorem tallies_referenced (h : Tallies d) {r : FileInfo} (hr : r ∈ d.fileInfo)
    (hm : r.hasMd5 md5) (hn : ∀ s ∈ d.userFileList, s.isRow user md5 filename = false)
    (ht : Raised user d.userFileCount t) :
    Tallies (addReference now user md5 filename d (setFileCount md5 (r.count + 1) d.fileInfo) t) :=
  h.addReference (h.raised_tally hr hm) (fun _ hne => setFileCount_frame hne) hn ht

theorem tallies_uploaded (h : Tallies d) {size : ℤ} {fileid url type : CString}
    {storage : Finset CString} (hm : ∀ r ∈ d.fileInfo, r.hasMd5 md5 = false)
    (ht : Raised user d.userFileCount t) :
    Tallies (addReference now user md5 filename { d with storage }
      (⟨md5, fileid, url, size, type, 1⟩ ::ₘ d.fileInfo) t) := by
  have hstored : Tallies { d with storage } := ⟨h.files, h.users, h.triples⟩
  apply hstored.addReference
  · exact h.inserted_tally (r := ⟨md5, fileid, url, size, type, 1⟩) hm rfl
  · exact fun other hne => inserted_others hne
  · exact (h.noReference hm).2
  · exact ht

def Recounted (s r : FileInfo) : Prop :=
  s.md5 = r.md5 ∧ s.url = r.url ∧ s.size = r.size ∧ s.type = r.type

theorem mem_setFileCount_recounted {n : ℤ} {files : Multiset FileInfo} {r : FileInfo}
    (h : r ∈ setFileCount md5 n files) : ∃ s ∈ files, Recounted s r := by
  obtain ⟨s, hs, m, rfl, -⟩ := mem_setFileCount h
  exact ⟨s, hs, rfl, rfl, rfl, rfl⟩

theorem created_recounted {c : Call} (hc : ∀ m, creates m c = none)
    (h : ∀ r ∈ d.fileInfo, creation history r.md5 = some ⟨r.url, r.size, r.type⟩)
    (hfiles : ∀ r ∈ d'.fileInfo, ∃ s ∈ d.fileInfo, Recounted s r) :
    ∀ r ∈ d'.fileInfo, creation (c :: history) r.md5 = some ⟨r.url, r.size, r.type⟩ := by
  intro r hr
  obtain ⟨s, hs, hmd5, hurl, hsize, htype⟩ := hfiles r hr
  unfold creation
  rw [List.findSome?_cons, hc, ← hmd5, ← hurl, ← hsize, ← htype]
  exact h s hs

theorem released_recounted {b : Bool}
    (h : Released md5 (dropUserFile user md5 filename t d) b d') :
    ∀ r ∈ d'.fileInfo, ∃ s ∈ d.fileInfo, Recounted s r := by
  cases h with
  | missing hn => exact fun r hr => ⟨r, hr, rfl, rfl, rfl, rfl⟩
  | kept q hq hm hc => exact fun r hr => mem_setFileCount_recounted hr
  | dropped q s hq hm hc hs hsm hst =>
    exact fun r hr => ⟨r, (mem_deleteWhere.mp hr).1, rfl, rfl, rfl, rfl⟩
  | lost q s hq hm hc hs hsm hst =>
    exact fun r hr => ⟨r, (mem_deleteWhere.mp hr).1, rfl, rfl, rfl, rfl⟩

theorem recorded_delFile {n : ℤ} (h : Recorded history d)
    (hrow : ∃ r ∈ d.userFileList, r.isRow user md5 filename)
    (he : DelFile user md5 filename d n d') :
    Recorded (.delFile user md5 filename :: history) d' := by
  have hsame : ∀ e : Disk, SharesOnly d e → Recorded (.delFile user md5 filename :: history) e := by
    intro e hs
    refine ⟨h.tallies.sharesOnly hs, created_recounted (fun _ => rfl) h.created ?_⟩
    intro r hr
    rw [hs.fileInfo] at hr
    exact ⟨r, hr, rfl, rfl, rfl, rfl⟩
  cases he with
  | confused _ => exact hsame d ⟨SameFiles.refl d, fun _ _ => rfl⟩
  | stuck flag _ _ hu => exact hsame _ (unshared_sharesOnly hu)
  | uncounted _ hc _ => exact hsame _ (cleared_sharesOnly hc).1
  | deleted e hc t ht b _ hr =>
    obtain ⟨hs, hlist⟩ := cleared_sharesOnly hc
    refine ⟨(h.tallies.sharesOnly hs).release (hlist ▸ hrow) ht hr,
      created_recounted (fun _ => rfl) h.created ?_⟩
    intro r hmem
    rw [← hs.fileInfo]
    exact released_recounted hr r hmem

theorem recorded_call {c : Call} {n : ℤ} (h : Recorded history d) (ha : Listable d c)
    (he : c.Effect (c.arrive d) n d') : Recorded (c :: history) d' := by
  have hself : ∀ c : Call, (∀ m, creates m c = none) → Recorded (c :: history) d := by
    intro c hc
    refine ⟨h.tallies, created_recounted hc h.created ?_⟩
    exact fun r hr => ⟨r, hr, rfl, rfl, rfl, rfl⟩
  cases c with
  | upload now user md5 filename size fileid url =>
    cases he with
    | stored t ht =>
      refine ⟨tallies_uploaded h.tallies ha ht, ?_⟩
      intro r hr
      unfold creation
      rw [List.findSome?_cons]
      rcases Multiset.mem_cons.mp hr with rfl | hr
      · simp [creates]
      · have hne : md5 ≠ r.md5 := by
          rintro rfl
          simpa [FileInfo.hasMd5] using ha r hr
        simp only [creates, if_neg hne]
        exact h.created r hr
  | dealMd5 now user md5 filename =>
    cases he with
    | unknown _ => exact hself _ fun _ => rfl
    | owned _ _ _ => exact hself _ fun _ => rfl
    | added r hr hm hn t ht =>
      exact ⟨tallies_referenced h.tallies hr hm hn ht, created_recounted (fun _ => rfl) h.created
        fun r hr => mem_setFileCount_recounted hr⟩
  | saveFile now user md5 filename =>
    cases he with
    | unknown _ => exact hself _ fun _ => rfl
    | owned _ _ _ => exact hself _ fun _ => rfl
    | added r hr hm hn t ht =>
      exact ⟨tallies_referenced h.tallies hr hm hn ht, created_recounted (fun _ => rfl) h.created
        fun r hr => mem_setFileCount_recounted hr⟩
  | shareFile now user md5 filename => exact ha.elim
  | cancelShareFile user md5 filename => exact ha.elim
  | delFile user md5 filename => exact recorded_delFile h ha he

theorem recorded_run (h : Run history d) : Recorded history d := by
  induction h with
  | start d h => exact ⟨tallies_empty h, by simp [h.fileInfo]⟩
  | call history d c e hd hc he ih =>
    exact recorded_call ih hc (c.handler_effect (c.arrive d) e he)

end Steps

/-! ## The join -/

theorem join_single {α : Type} {t : Multiset α} {md5 : α → CString} {columns g : α → List Cell}
    {files : Multiset FileInfo}
    (h : ∀ a ∈ t, ∃ f, rowsWhere (FileInfo.hasMd5 (md5 a)) files = {f} ∧
      g a = columns a ++ [.str f.url, .int f.size, .str f.type]) :
    joinFileInfo t md5 columns files = t.map g := by
  induction t using Multiset.induction with
  | empty => simp [joinFileInfo]
  | cons a t ih =>
    obtain ⟨f, hf, hg⟩ := h a (Multiset.mem_cons_self a t)
    have hrest := ih fun b hb => h b (Multiset.mem_cons_of_mem hb)
    have hmatch : files.filter (fun r => r.md5 = md5 a) = {f} := by
      rw [← hf]
      unfold rowsWhere
      congr 1
      funext r
      simp [FileInfo.hasMd5]
    unfold joinFileInfo at hrest ⊢
    rw [Multiset.cons_product, Multiset.filter_add, Multiset.map_add, hrest, Multiset.filter_map,
      Multiset.map_cons, hg]
    simp only [Function.comp_def, hmatch]
    simp

section Listing
variable {history : List Call} {d : Disk} {user : CString}

def itemOf (r : UserFile) (c : Creation) : FileItem :=
  ⟨r.user, r.md5, r.createtime, r.filename, r.sharedStatus, r.pv, c.url, c.size, c.type⟩

/-- The printed columns of a row, with those of the file it refers to. -/
def listedRow (history : List Call) (r : UserFile) : List Cell :=
  [.str r.user, .str r.md5, .str r.createtime, .str r.filename, .int r.sharedStatus, .int r.pv] ++
    ((creation history r.md5).map fun c => [.str c.url, .int c.size, .str c.type]).getD []

theorem file_of_owned (h : Recorded history d) {r : UserFile} (hr : r ∈ d.userFileList) :
    ∃ f, rowsWhere (FileInfo.hasMd5 r.md5) d.fileInfo = {f} ∧
      creation history r.md5 = some ⟨f.url, f.size, f.type⟩ := by
  have hpos : 0 < references d r.md5 := countWhere_pos.mpr ⟨r, hr, by simp [refersTo]⟩
  obtain ⟨f, hf, hfm⟩ := (h.tallies.files r.md5).exists_mem hpos
  obtain ⟨hone, -, -⟩ := (h.tallies.files r.md5).of_mem hf hfm
  have hmd5 : f.md5 = r.md5 := by simpa [FileInfo.hasMd5] using hfm
  exact ⟨f, hone, hmd5 ▸ h.created f hf⟩

theorem joined (h : Recorded history d) :
    joinFileInfo (rowsWhere (fun r : UserFile => r.user = user) d.userFileList) UserFile.md5
      (fun r => [.str r.user, .str r.md5, .str r.createtime, .str r.filename,
        .int r.sharedStatus, .int r.pv]) d.fileInfo =
      (rowsWhere (ownedBy user) d.userFileList).map (listedRow history) := by
  apply join_single
  intro r hr
  obtain ⟨f, hone, hcreated⟩ := file_of_owned h (mem_rowsWhere.mp hr).1
  refine ⟨f, hone, ?_⟩
  simp [listedRow, hcreated]

theorem fileItem_listedRow {r : UserFile} {c : Creation} (h : creation history r.md5 = some c) :
    fileItem (listedRow history r) = some (itemOf r c) := by
  simp [listedRow, h, fileItem, itemOf]

theorem items_of_rows (h : Recorded history d) {rows : List (List Cell)}
    (hrows : (rows : Multiset (List Cell)) =
      (rowsWhere (ownedBy user) d.userFileList).map (listedRow history)) :
    ∃ items : List FileItem, rows.map fileItem = items.map some ∧
      ((items.map some : List (Option FileItem)) : Multiset (Option FileItem)) =
        (rowsWhere (ownedBy user) d.userFileList).map fun r =>
          (creation history r.md5).map (itemOf r) := by
  have hitems : ((rows.map fileItem : List (Option FileItem)) : Multiset (Option FileItem)) =
      (rowsWhere (ownedBy user) d.userFileList).map fun r =>
        (creation history r.md5).map (itemOf r) := by
    rw [← Multiset.map_coe, hrows, Multiset.map_map]
    apply Multiset.map_congr rfl
    intro r hr
    obtain ⟨f, -, hc⟩ := file_of_owned h (mem_rowsWhere.mp hr).1
    rw [Function.comp_apply, fileItem_listedRow hc, hc]
    rfl
  obtain ⟨items, hmap⟩ : rows.map fileItem ∈ Set.range (List.map some) := by
    rw [Set.range_list_map]
    intro o ho
    have hmem : o ∈ ((rows.map fileItem : List (Option FileItem)) :
        Multiset (Option FileItem)) := ho
    rw [hitems] at hmem
    obtain ⟨r, hr, rfl⟩ := Multiset.mem_map.mp hmem
    obtain ⟨f, -, hc⟩ := file_of_owned h (mem_rowsWhere.mp hr).1
    rw [hc]
    exact ⟨itemOf r ⟨f.url, f.size, f.type⟩, rfl⟩
  rw [← hmap] at hitems
  exact ⟨items, hmap.symm, hitems⟩

theorem getUserFilelist_effect (user : CString) (h : Recorded history d) :
    Spec Cmd.exec NoFail (getUserFilelist user) d fun listed _ =>
      ((listed.getD [] : List (List Cell)) : Multiset (List Cell)) =
        (rowsWhere (ownedBy user) d.userFileList).map (listedRow history) ∧ listed ≠ some [] := by
  unfold getUserFilelist fileList
  refine spec_msqlConn ?_ NoFail.elim
  apply spec_setNames
  intro _
  apply spec_call
  intro o ho
  cases o with
  | fail => exact ho.elim
  | ok k =>
    have hrows := coe_listing k (joinFileInfo
      (rowsWhere (fun r : UserFile => r.user = user) d.userFileList) UserFile.md5
      (fun r => [.str r.user, .str r.md5, .str r.createtime, .str r.filename,
        .int r.sharedStatus, .int r.pv]) d.fileInfo)
    rw [joined h] at hrows
    simp only [Cmd.exec, Sql.result]
    rw [joined h]
    cases hl : listing k ((rowsWhere (ownedBy user) d.userFileList).map (listedRow history)) with
    | nil =>
      rw [hl] at hrows
      exact spec_ret ⟨hrows, by simp⟩
    | cons row rest =>
      rw [hl] at hrows
      exact spec_ret ⟨hrows, by simp⟩

theorem getUserFilesCount_effect (h : Tallies d) (hkey : user ≠ shareCountKey) :
    Spec Cmd.exec NoFail (getUserFilesCount user) d fun n _ => n = owned d user := by
  unfold getUserFilesCount filesCount
  refine spec_msqlConn ?_ NoFail.elim
  apply spec_setNames
  intro _
  refine spec_selectUserCount ?_ ?_ NoFail.elim
  · intro r hr hu
    exact spec_ret ((h.users user hkey).of_mem hr hu).2.1
  · intro hn
    apply spec_ret
    rw [(h.users user hkey).of_none hn]
    rfl

end Listing

/-! ## What is sent -/

/-- The rows of the query that `get_user_filelist` sends. -/
def userRows (user : CString) (d : Disk) : Multiset (List Cell) :=
  joinFileInfo (rowsWhere (fun r : UserFile => r.user = user) d.userFileList) UserFile.md5
    (fun r => [.str r.user, .str r.md5, .str r.createtime, .str r.filename,
      .int r.sharedStatus, .int r.pv]) d.fileInfo

/-- The numbers of the list are printed in full. -/
structure InFull (user : CString) (d : Disk) : Prop where
  status : ∀ r ∈ d.userFileList, r.user = user → r.sharedStatus.natAbs < 10 ^ 15
  pv : ∀ r ∈ d.userFileList, r.user = user → r.pv.natAbs < 10 ^ 15
  size : ∀ f ∈ d.fileInfo, f.size.natAbs < 10 ^ 15

/-- The log has room for the rows of the list, its frame, the end of the line and the NUL. -/
def ListFits (user : CString) (d : Disk) : Prop :=
  userRows user d ≠ 0 → ((userRows user d).map fun row =>
    (((userFileItem row).getD .null).text true 2).length + 2).sum + 15 < mesgSize

section Sending
variable {history : List Call} {d : Disk} {user : CString} {rows : List (List Cell)}

theorem userRows_joined (hfull : InFull user d) {row : List Cell} (h : row ∈ userRows user d) :
    ∃ (r : UserFile) (f : FileInfo) (status pv size : Whole), r ∈ d.userFileList ∧ r.user = user ∧
      row = joinedRow r f ∧ userFileItem row = some (joinedItem r f status pv size) := by
  obtain ⟨⟨r, f⟩, hq, rfl⟩ := Multiset.mem_map.mp h
  obtain ⟨hr, hf⟩ := Multiset.mem_product.mp (Multiset.mem_filter.mp hq).1
  obtain ⟨hmem, huser⟩ := mem_rowsWhere.mp hr
  have huser : r.user = user := by simpa using huser
  exact ⟨r, f, ⟨_, hfull.status r hmem huser⟩, ⟨_, hfull.pv r hmem huser⟩, ⟨_, hfull.size f hf⟩,
    hmem, huser, rfl, userFileItem_joined rfl rfl rfl⟩

theorem userFileItem_isSome (hfull : InFull user d)
    (hrows : (rows : Multiset (List Cell)) = userRows user d) (row : List Cell)
    (hrow : row ∈ rows) :
    (userFileItem row).isSome := by
  have hmem : row ∈ userRows user d := hrows ▸ Multiset.mem_coe.mpr hrow
  obtain ⟨r, f, status, pv, size, -, -, -, hitem⟩ := userRows_joined hfull hmem
  rw [hitem]
  rfl

theorem fitsLog_rows_iff (hfull : InFull user d)
    (hrows : (rows : Multiset (List Cell)) = userRows user d) (hne : rows ≠ []) :
    FitsLog (.userFiles rows) ↔ ListFits user d := by
  have hsome := userFileItem_isSome hfull hrows
  have htext : replyText (.userFiles rows) =
      some (filesText (rows.map fun row => (userFileItem row).getD .null)) := by
    rw [replyText, mapM_getD Item.null hsome]
    rfl
  have hzero : userRows user d ≠ 0 := by
    rw [← hrows]
    simpa using hne
  have hlength : (filesText (rows.map fun row => (userFileItem row).getD .null)).length =
      ((userRows user d).map fun row =>
        (((userFileItem row).getD .null).text true 2).length + 2).sum + 14 := by
    rw [filesText_length (by simpa using hne), listLength, List.map_map, ← hrows,
      Multiset.map_coe, Multiset.sum_coe]
    rfl
  constructor
  · intro h _
    have hlog := h _ htext
    rw [hlength] at hlog
    exact hlog
  · intro h
    apply fitsLog_of_text htext
    rw [hlength]
    exact h hzero

end Sending

/-- One item for each of the user's rows, as many as the counter says, the failure code exactly
when there are none, and all of it is sent. -/
structure ListingRight (memory : Allocations) (now : Tm) (history : List Call) (user : CString)
    (d : Disk) (listed : Option (List (List Cell))) (count : ℤ) : Prop where
  items : ∀ rows, listed = some rows → ∃ items : List FileItem,
    rows.map fileItem = items.map some ∧
      ((items.map some : List (Option FileItem)) : Multiset (Option FileItem)) =
        (rowsWhere (ownedBy user) d.userFileList).map fun r =>
          (creation history r.md5).map (itemOf r)
  count : ((listed.getD []).length : ℤ) = count
  empty : listed = none ↔ ∀ r ∈ d.userFileList, ownedBy user r = false
  sent : Sent memory now (filesReply .userFiles listed)

/-- In every run, the listing of a user has one item for each of the user's rows, the
counter says how many, and the failure code means that there are none. -/
theorem user_listing_exact (history : List Call) (d : Disk) (h : Run history d) (user : CString)
    (hkey : user ≠ shareCountKey) (e e' : ℕ → Outcome) (he : ∀ i, NoFail (e i))
    (he' : ∀ i, NoFail (e' i)) :
    let listed := ((getUserFilelist user).run Cmd.exec e d).1
    (∀ rows, listed = some rows → ∃ items : List FileItem, rows.map fileItem = items.map some ∧
      ((items.map some : List (Option FileItem)) : Multiset (Option FileItem)) =
        (rowsWhere (ownedBy user) d.userFileList).map fun r =>
          (creation history r.md5).map (itemOf r)) ∧
    ((listed.getD []).length : ℤ) = ((getUserFilesCount user).run Cmd.exec e' d).1 ∧
    (listed = none ↔ ∀ r ∈ d.userFileList, ownedBy user r = false) := by
  have hrec := recorded_run h
  obtain ⟨hrows, hne⟩ := getUserFilelist_effect user hrec e he
  have hcount := getUserFilesCount_effect hrec.tallies hkey e' he'
  intro listed
  change ((listed.getD [] : List (List Cell)) : Multiset (List Cell)) = _ at hrows
  refine ⟨fun rows hlisted => ?_, ?_, ?_⟩
  · rw [hlisted] at hrows
    exact items_of_rows hrec hrows
  · have hlen := congrArg Multiset.card hrows
    rw [Multiset.coe_card, Multiset.card_map] at hlen
    rw [hcount, hlen]
    rfl
  · rw [← rowsWhere_eq_zero]
    constructor
    · intro hnone
      rw [hnone] at hrows
      exact Multiset.map_eq_zero.mp hrows.symm
    · intro hzero
      rw [hzero, Multiset.map_zero] at hrows
      cases hl : listed with
      | none => rfl
      | some rows =>
        rw [hl] at hrows
        have hnil : rows = [] := by simpa using hrows
        rw [hnil] at hl
        exact absurd hl hne

theorem sent_listing_iff {history : List Call} {d : Disk} (h : Run history d) {user : CString}
    (hfull : InFull user d) {memory : Allocations} (hmem : ∀ i, memory i ≠ none) {now : Tm}
    {e : ℕ → Outcome} (he : ∀ i, NoFail (e i)) :
    Sent memory now (filesReply .userFiles ((getUserFilelist user).run Cmd.exec e d).1) ↔
      ListFits user d := by
  obtain ⟨hrows, hne⟩ := getUserFilelist_effect user (recorded_run h) e he
  rw [← joined (recorded_run h)] at hrows
  change _ = userRows user d at hrows
  cases hlisted : ((getUserFilelist user).run Cmd.exec e d).1 with
  | none =>
    rw [hlisted] at hrows
    exact iff_of_true (sent_status hmem _) fun hzero => absurd hrows.symm hzero
  | some rows =>
    rw [hlisted] at hrows hne
    have hnil : rows ≠ [] := fun hnil => hne (congrArg some hnil)
    refine (sent_userFiles_iff hmem fun row hrow => ?_).trans (fitsLog_rows_iff hfull hrows hnil)
    exact userFileItem_isSome hfull hrows row hrow

/-- In every run, the list of a user is right and sent exactly when the log has room for it. -/
theorem user_listing_right_iff (history : List Call) (d : Disk) (h : Run history d)
    (user : CString) (hkey : user ≠ shareCountKey) (hfull : InFull user d) (memory : Allocations)
    (hmem : ∀ i, memory i ≠ none) (now : Tm) (e e' : ℕ → Outcome) (he : ∀ i, NoFail (e i))
    (he' : ∀ i, NoFail (e' i)) :
    ListingRight memory now history user d ((getUserFilelist user).run Cmd.exec e d).1
      ((getUserFilesCount user).run Cmd.exec e' d).1 ↔ ListFits user d := by
  obtain ⟨hitems, hcount, hempty⟩ := user_listing_exact history d h user hkey e e' he he'
  have hsent : Sent memory now (filesReply .userFiles ((getUserFilelist user).run Cmd.exec e d).1) ↔
      ListFits user d := sent_listing_iff h hfull hmem he
  exact ⟨fun hright => hsent.mp hright.sent, fun hfits =>
    ⟨hitems, hcount, hempty, hsent.mpr hfits⟩⟩

/-- A file that one user uploads and a second one gets by its checksum. -/
theorem user_listing_second_owner : ∃ history d,
    history = [.dealMd5 [50] [98] [1] [103], .upload [49] [97] [1] [102] 9 [7] [117]] ∧
    Run history d ∧
    ((getUserFilelist [98]).run Cmd.exec (fun _ => .ok 0) d).1 =
      some [[.str [98], .str [1], .str [50], .str [103], .int 0, .int 0, .str [117], .int 9,
        .str (cstr "null")]] ∧
    ListingRight (fun _ => some fun _ => 0) ⟨2026, 2, 28, 23, 59, 59⟩ history [98] d
      ((getUserFilelist [98]).run Cmd.exec (fun _ => .ok 0) d).1
      ((getUserFilesCount [98]).run Cmd.exec (fun _ => .ok 0) d).1 := by
  have hok : ∀ i : ℕ, NoFail ((fun _ => .ok 0 : ℕ → Outcome) i) := fun _ => by simp [NoFail]
  have h0 : Run [] emptyDisk := .start _ emptyDisk_tables
  have h1 := h0.call _ _ (.upload [49] [97] [1] [102] 9 [7] [117]) (fun _ => .ok 0)
    (by simp [Listable, emptyDisk]) hok
  have h2 := h1.call _ _ (.dealMd5 [50] [98] [1] [103]) (fun _ => .ok 0) trivial hok
  refine ⟨_, _, rfl, h2, by decide, ?_⟩
  refine (user_listing_right_iff _ _ h2 [98] (by decide) ⟨by decide, by decide, by decide⟩ _
    (fun _ => Option.some_ne_none _) _ (fun _ => .ok 0) (fun _ => .ok 0) hok hok).mpr ?_
  intro _
  decide +kernel

/-! ## Lists that are too long -/

/-- One content of a user under so many names, the latest call first. -/
def names : ℕ → List Call
  | 0 => [.upload [] [97] (List.replicate 32 48) [102] 1 [111] []]
  | n + 1 => .dealMd5 [] [97] (List.replicate 32 48) [UInt8.ofNat (n + 1)] :: names n

def shelf : ℕ → Disk
  | 0 => ((Call.upload [] [97] (List.replicate 32 48) [102] 1 [111] []).handler.run Cmd.exec
      (fun _ => .ok 0) ((Call.upload [] [97] (List.replicate 32 48) [102] 1 [111] []).arrive
        emptyDisk)).2
  | n + 1 => ((dealMd5 [] [97] (List.replicate 32 48) [UInt8.ofNat (n + 1)]).run Cmd.exec
      (fun _ => .ok 0) (shelf n)).2

theorem run_shelf (n : ℕ) : Run (names n) (shelf n) := by
  have hok : ∀ i : ℕ, NoFail ((fun _ => .ok 0 : ℕ → Outcome) i) := fun _ => by simp [NoFail]
  induction n with
  | zero =>
    exact (Run.start _ emptyDisk_tables).call _ _ _ _ (by simp [Listable, emptyDisk]) hok
  | succ n ih => exact ih.call _ _ (.dealMd5 [] [97] _ _) _ trivial hok

theorem not_listFits {user : CString} {d : Disk} (hfull : InFull user d)
    (hmd5 : ∀ r ∈ d.userFileList, r.user = user → (untilNul r.md5).length = 32)
    (hmany : 23 ≤ Multiset.card (userRows user d)) : ¬ ListFits user d := by
  intro hfits
  have hzero : userRows user d ≠ 0 := by
    intro h0
    rw [h0] at hmany
    exact absurd hmany (by decide)
  have hsum := Multiset.card_nsmul_le_sum (s := (userRows user d).map fun row =>
    (((userFileItem row).getD .null).text true 2).length + 2) (a := 178) <| by
      intro m hm
      obtain ⟨row, hrow, rfl⟩ := Multiset.mem_map.mp hm
      obtain ⟨r, f, status, pv, size, hr, huser, -, hitem⟩ := userRows_joined hfull hrow
      have hlong := length_joined r f status pv size
      rw [hmd5 r hr huser] at hlong
      rw [hitem, Option.getD_some]
      omega
  rw [Multiset.card_map, nsmul_eq_mul, Nat.cast_id] at hsum
  have hroom := hfits hzero
  rw [mesgSize] at hroom
  omega

set_option maxRecDepth 4000 in
/-- The list of a user with 23 files is not sent, although nothing fails. -/
theorem long_listing_lost : ∃ history d, Run history d ∧ InFull [97] d ∧
    ∀ (memory : Allocations) (now : Tm), (∀ i, memory i ≠ none) →
      ¬ ListingRight memory now history [97] d
        ((getUserFilelist [97]).run Cmd.exec (fun _ => .ok 0) d).1
        ((getUserFilesCount [97]).run Cmd.exec (fun _ => .ok 0) d).1 := by
  have hok : ∀ i : ℕ, NoFail ((fun _ => .ok 0 : ℕ → Outcome) i) := fun _ => by simp [NoFail]
  have hfull : InFull [97] (shelf 22) := by constructor <;> decide +kernel
  refine ⟨names 22, shelf 22, run_shelf 22, hfull, fun memory now hmem hright => ?_⟩
  apply not_listFits hfull (by decide +kernel) (by decide +kernel)
  exact (sent_listing_iff (run_shelf 22) hfull hmem hok).mp hright.sent

end FileListings
