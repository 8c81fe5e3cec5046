import CloudDisk.DiskCalls
import CloudDisk.StatementLengths

/-! # The statements of the handlers as texts

A statement reaches the server as a text in `sql_cmd`, with its arguments between quotes and
nothing escaped. The server does what was meant if the text fits and is read with the tokens of its
format. What it does with any other text is left open, and so are the results of calls that send
one. Calls whose strings have no quotes and no escapes and are short enough send none. -/
namespace DiskTexts

open ByteStrings CommandPrograms RowTables DiskState DiskHandlers HandlerRules DiskCalls SqlTexts
  SqlFormats SqlTemplates

/-! ## Formats -/

inductive Statement where
  | setNames
  | selectFileCount (md5 : CString)
  | selectFileId (md5 : CString)
  | updateFileCount (md5 : CString) (count : ℤ)
  | deleteFileInfo (md5 : CString)
  | insertFileInfo (r : FileInfo)
  | selectUserFile (user md5 filename : CString)
  | selectSharedStatus (user md5 filename : CString)
  | markShared (user md5 filename : CString)
  | markUnshared (user md5 filename : CString)
  | deleteUserFile (user md5 filename : CString)
  | insertUserFile (user md5 filename createtime : CString)
  | selectShareFile (md5 filename : CString)
  | selectSharePv (md5 filename : CString)
  | updateSharePv (md5 filename : CString) (pv : ℤ)
  | deleteShareFile (user md5 filename : CString)
  | insertShareFile (user md5 filename createtime : CString)
  | selectUserCount (user : CString)
  | updateUserCount (user : CString) (count : ℤ)
  | deleteUserCount (user : CString)
  | insertUserCount (user : CString)
  | rankShares
  | userFileInfo (user : CString)
  | shareFileInfo (start count : ℤ)

namespace Statement

def sql : Statement → Sql
  | setNames => .setNames
  | selectFileCount md5 => DiskState.selectFileCount md5
  | selectFileId md5 => DiskState.selectFileId md5
  | updateFileCount md5 count => DiskState.updateFileCount md5 count
  | deleteFileInfo md5 => DiskState.deleteFileInfo md5
  | insertFileInfo r => DiskState.insertFileInfo r
  | selectUserFile user md5 filename => DiskState.selectUserFile user md5 filename
  | selectSharedStatus user md5 filename => DiskState.selectSharedStatus user md5 filename
  | markShared user md5 filename => DiskState.updateSharedStatus user md5 filename 1
  | markUnshared user md5 filename => DiskState.updateSharedStatus user md5 filename 0
  | deleteUserFile user md5 filename => DiskState.deleteUserFile user md5 filename
  | insertUserFile user md5 filename createtime =>
    DiskState.insertUserFile user md5 filename createtime
  | selectShareFile md5 filename => DiskState.selectShareFile md5 filename
  | selectSharePv md5 filename => DiskState.selectSharePv md5 filename
  | updateSharePv md5 filename pv => DiskState.updateSharePv md5 filename pv
  | deleteShareFile user md5 filename => DiskState.deleteShareFile user md5 filename
  | insertShareFile user md5 filename createtime =>
    DiskState.insertShareFile user md5 filename createtime
  | selectUserCount user => DiskState.selectUserCount user
  | updateUserCount user count => DiskState.updateUserCount user count
  | deleteUserCount user => DiskState.deleteUserCount user
  | insertUserCount user => DiskState.insertUserCount user
  | rankShares => .rankShares
  | userFileInfo user => .userFileInfo user
  | shareFileInfo start count => .shareFileInfo start count

/-- All the formats that the programs have for a statement. -/
def formats : Statement → List CString
  | setNames => [cstr "set names utf8"]
  | selectFileCount _ => [Template.md5FileCount.format]
  | selectFileId _ => [Template.delFileId.format]
  | updateFileCount _ _ => [Template.md5RaiseFile.format, Template.delLowerFile.format]
  | deleteFileInfo _ => [Template.delFileInfo.format]
  | insertFileInfo _ => [Template.storeInsertInfo.format]
  | selectUserFile _ _ _ => [Template.md5UserFile.format]
  | selectSharedStatus _ _ _ => [Template.delSharedStatus.format]
  | markShared _ _ _ => [StatementLengths.Format.shareMark.text]
  | markUnshared _ _ _ =>
    [cstr "update user_file_list set shared_status = 0 where user = '%s' and md5 = '%s' and " ++
      cstr "filename = '%s'"]
  | deleteUserFile _ _ _ => [Template.delUserFile.format]
  | insertUserFile _ _ _ _ => [Template.md5InsertFile.format]
  | selectShareFile _ _ => [StatementLengths.Format.shareLookup.text]
  | selectSharePv _ _ =>
    [cstr "select pv from share_file_list where md5 = '%s' and filename = '%s'"]
  | updateSharePv _ _ _ =>
    [cstr "update share_file_list set pv = %d where md5 = '%s' and filename = '%s'"]
  | deleteShareFile _ _ _ => [Template.delShareRow.format]
  | insertShareFile _ _ _ _ => [StatementLengths.Format.shareInsertRow.text]
  | selectUserCount _ =>
    [Template.md5UserCount.format, cstr "select count from user_file_count where user=\"%s\""]
  | updateUserCount _ _ => [Template.md5UpdateCount.format]
  | deleteUserCount _ => [Template.delDropCount.format]
  | insertUserCount _ =>
    [Template.md5InsertCount.format, StatementLengths.Format.shareInsertCount.text]
  | rankShares => [cstr "select md5, filename, pv from share_file_list order by pv desc"]
  | userFileInfo _ =>
    [cstr "select user_file_list.*, file_info.url, file_info.size, file_info.type from " ++
      cstr "file_info, user_file_list where user = '%s' and file_info.md5 = user_file_list.md5"]
  | shareFileInfo _ _ =>
    [cstr "select share_file_list.*, file_info.url, file_info.size, file_info.type from " ++
      cstr "file_info, share_file_list where file_info.md5 = share_file_list.md5 limit %d, %d"]

def arguments : Statement → List Arg
  | setNames | rankShares => []
  | selectFileCount md5 | selectFileId md5 | deleteFileInfo md5 => [.str md5]
  | updateFileCount md5 count => [.int count, .str md5]
  | insertFileInfo r =>
    [.str r.md5, .str r.fileId, .str r.url, .int r.size, .str r.type, .int r.count]
  | selectUserFile user md5 filename | selectSharedStatus user md5 filename
  | markShared user md5 filename | markUnshared user md5 filename
  | deleteUserFile user md5 filename | deleteShareFile user md5 filename =>
    [.str user, .str md5, .str filename]
  | insertUserFile user md5 filename createtime =>
    [.str user, .str md5, .str createtime, .str filename, .int 0, .int 0]
  | selectShareFile md5 filename | selectSharePv md5 filename => [.str md5, .str filename]
  | updateSharePv md5 filename pv => [.int pv, .str md5, .str filename]
  | insertShareFile user md5 filename createtime =>
    [.str user, .str md5, .str createtime, .str filename, .int 0]
  | selectUserCount user | deleteUserCount user | userFileInfo user => [.str user]
  | updateUserCount user count => [.int count, .str user]
  | insertUserCount user => [.str user, .int 1]
  | shareFileInfo start count => [.int start, .int count]

def suffix : Statement → CString
  | insertFileInfo r => r.type
  | _ => []

end Statement

/-! ## Texts that are read as they were meant -/

/-- The most that an argument takes; a number has at most 20 bytes. -/
def room : Arg → ℕ
  | .str s => s.length
  | .int _ => 20

def ownTokens (format : CString) (args : List Arg) : List Token :=
  tokens .gap (pieces ((segments (units format)).getD []) args)

/-- In each of its formats the statement fits `sql_cmd` and is read with its own tokens. -/
structure Statement.Meant (s : Statement) : Prop where
  suffix : s.suffix.length < suffixLen
  fits : ∀ f ∈ s.formats, (units f).length + (s.arguments.map room).sum < sqlMaxLen
  read : ∀ f ∈ s.formats, lex .gap (sprintf (units f) s.arguments) = some (ownTokens f s.arguments)

def AsMeant : Cmd → Prop
  | .query q => ∃ s : Statement, s.sql = q ∧ s.Meant
  | _ => True

abbrev Server := Outcome → Cmd → Disk → Reply × Disk

/-- The server executes a statement that it reads as it was meant. -/
def Faithful (server : Server) : Prop := ∀ c, AsMeant c → ∀ o d, server o c d = c.exec o d

theorem faithful_exec : Faithful Cmd.exec := fun _ _ _ _ => rfl

theorem run_faithful {server : Server} (hs : Faithful server) {α : Type} {p : Handler α}
    (hp : p.All AsMeant) (e : ℕ → Outcome) (d : Disk) :
    p.run server e d = p.run Cmd.exec e d :=
  run_eq_of_all hs hp e d

theorem spec_faithful {server : Server} (hs : Faithful server) {α : Type} {adm : Outcome → Prop}
    {p : Handler α} (hp : p.All AsMeant) {d : Disk} {Q : α → Disk → Prop}
    (h : Spec Cmd.exec adm p d Q) : Spec server adm p d Q :=
  spec_of_all hs hp h

/-- What a format has to be like, for arguments of these kinds. -/
def wellFormed (ks : List Kind) (f : CString) : Bool :=
  decide (ks = kinds (units f)) && ((segments (units f)).map apart == some true) &&
    decide ((units f).length + 20 * ks.count .int ≤ 196)

set_option maxRecDepth 4000 in
theorem formats_wellFormed (s : Statement) :
    ∀ f ∈ s.formats, wellFormed (s.arguments.map Arg.kind) f = true := by
  cases s <;> simp only [Statement.formats, List.forall_mem_cons, List.not_mem_nil,
    IsEmpty.forall_iff, implies_true, and_true]
  case insertFileInfo | selectSharedStatus | markShared | markUnshared | insertUserFile |
      insertShareFile | userFileInfo | shareFileInfo => exact eval_append (wellFormed _) _ _ rfl
  case updateFileCount | selectUserCount | insertUserCount =>
    exact ⟨eval_format (wellFormed _) _ rfl, eval_format (wellFormed _) _ rfl⟩
  all_goals exact eval_format (wellFormed _) _ rfl

def strings (args : List Arg) : List CString :=
  args.filterMap fun
    | .str s => some s
    | .int _ => none

@[simp] theorem strings_str (s : CString) (args : List Arg) :
    strings (.str s :: args) = s :: strings args := rfl

@[simp] theorem strings_int (n : ℤ) (args : List Arg) :
    strings (.int n :: args) = strings args := rfl

theorem room_sum (args : List Arg) : (args.map room).sum =
    ((strings args).map List.length).sum + 20 * (args.map Arg.kind).count .int := by
  induction args with
  | nil => rfl
  | cons a args ih =>
    cases a with
    | str s =>
      have hcount : (Kind.str :: args.map Arg.kind).count .int = (args.map Arg.kind).count .int :=
        List.count_cons_of_ne (by decide)
      rw [strings_str]
      simp only [List.map_cons, List.sum_cons, ih, room, Arg.kind, hcount]
      omega
    | int n =>
      rw [strings_int]
      simp only [List.map_cons, List.sum_cons, ih, room, Arg.kind, List.count_cons_self]
      omega

theorem clean_arg {args : List Arg} {q : UInt8} (hq : isQuote q)
    (h : ∀ s ∈ strings args, clean q s) : ∀ a ∈ args, clean q a.text := by
  intro a ha
  cases a with
  | str s => exact h s (List.mem_filterMap.mpr ⟨_, ha, rfl⟩)
  | int n => exact clean_of_plain hq fun _ hb => intText_plain hb

/-- Strings that every statement can be made of: neither quote, no escape, and short together. -/
structure Tame (texts : List CString) : Prop where
  clean : ∀ s ∈ texts, clean 39 s ∧ clean 34 s
  short : (texts.map List.length).sum ≤ 315

instance decidableTame (texts : List CString) : Decidable (Tame texts) :=
  decidable_of_iff ((∀ s ∈ texts, clean 39 s ∧ clean 34 s) ∧ (texts.map List.length).sum ≤ 315)
    ⟨fun h => ⟨h.1, h.2⟩, fun h => ⟨h.clean, h.short⟩⟩

section Tame
variable {texts : List CString} {user md5 filename now : CString}

theorem Tame.mono {texts' : List CString} (h : Tame texts) (hmem : ∀ t ∈ texts', t ∈ texts)
    (hlen : (texts'.map List.length).sum ≤ (texts.map List.length).sum) : Tame texts' :=
  ⟨fun s hs => h.clean s (hmem s hs), hlen.trans h.short⟩

theorem Tame.meant {s : Statement} (h : Tame (strings s.arguments))
    (hsuffix : s.suffix.length < suffixLen) : s.Meant := by
  refine ⟨hsuffix, fun f hf => ?_, fun f hf => ?_⟩
  · have hwell := formats_wellFormed s f hf
    have hshort := h.short
    simp only [wellFormed, Bool.and_eq_true, decide_eq_true_eq] at hwell
    rw [room_sum, sqlMaxLen]
    omega
  · have hwell := formats_wellFormed s f hf
    simp only [wellFormed, Bool.and_eq_true, decide_eq_true_eq, beq_iff_eq] at hwell
    obtain ⟨⟨hk, hapart⟩, -⟩ := hwell
    obtain ⟨ss, hss, ha⟩ := Option.map_eq_some_iff.mp hapart
    rw [ownTokens, hss]
    apply (sprintf_lex_iff hss ha hk).mpr
    intro q t hmem
    obtain ⟨⟨k, hseg⟩, a, ha', rfl⟩ := mem_pieces_quoted hmem
    have hq : isQuote q := segments_wf hss _ hseg
    refine clean_arg hq (fun t ht => ?_) a ha'
    have hq' : q = 39 ∨ q = 34 := by simpa [isQuote] using hq
    rcases hq' with rfl | rfl
    · exact (h.clean t ht).1
    · exact (h.clean t ht).2

theorem Tame.asMeant (s : Statement) (h : Tame (strings s.arguments)) (hs : s.suffix = []) :
    AsMeant (.query s.sql) :=
  ⟨s, rfl, h.meant (by rw [hs]; decide)⟩

theorem tame_nil : Tame [] := ⟨by simp, by simp⟩

set_option maxRecDepth 2000 in
theorem tame_shareCountKey : Tame [shareCountKey] := by
  have hkey : (decide (∀ s ∈ [shareCountKey], clean 39 s ∧ clean 34 s) &&
      decide (([shareCountKey].map List.length).sum ≤ 315)) = true :=
    eval_format (fun key => decide (∀ s ∈ [key], clean 39 s ∧ clean 34 s) &&
      decide (([key].map List.length).sum ≤ 315)) _ rfl
  simp only [Bool.and_eq_true, decide_eq_true_eq] at hkey
  exact ⟨hkey.1, hkey.2⟩

theorem meant_wiring : Wiring AsMeant :=
  ⟨trivial, trivial, Tame.asMeant .setNames tame_nil rfl⟩

theorem meant_caching : Caching AsMeant := fun _ _ => trivial

theorem meant_counting (h : Tame [user]) : Counting AsMeant user where
  select := Tame.asMeant (.selectUserCount user) h rfl
  insert := Tame.asMeant (.insertUserCount user) h rfl
  update n := Tame.asMeant (.updateUserCount user n) h rfl
  delete := Tame.asMeant (.deleteUserCount user) h rfl

theorem Tame.ofUser (h : Tame [user, md5, filename]) : Tame [user] :=
  h.mono (by simp) (by simp)

theorem Tame.ofMd5 (h : Tame [user, md5, filename]) : Tame [md5] :=
  h.mono (by simp) (by simp only [List.map_cons, List.map_nil, List.sum_cons, List.sum_nil]; omega)

theorem Tame.ofShare (h : Tame [user, md5, filename]) : Tame [md5, filename] :=
  h.mono (by simp) (by simp)

end Tame

/-! ## Calls -/

def callTexts : Call → List CString
  | .upload now user md5 filename _ fileid url =>
    [user, md5, filename, now, fileid, url, getFileSuffix filename]
  | .dealMd5 now user md5 filename | .saveFile now user md5 filename
  | .shareFile now user md5 filename => [user, md5, filename, now]
  | .cancelShareFile user md5 filename | .delFile user md5 filename => [user, md5, filename]

def callSuffix : Call → CString
  | .upload _ _ _ filename _ _ _ => getFileSuffix filename
  | _ => []

/-- The strings of a call are tame, and `suffix` holds the suffix of an upload. -/
structure TameCall (c : Call) : Prop where
  texts : Tame (callTexts c)
  suffix : (callSuffix c).length < suffixLen

instance decidableTameCall (c : Call) : Decidable (TameCall c) :=
  decidable_of_iff (Tame (callTexts c) ∧ (callSuffix c).length < suffixLen)
    ⟨fun h => ⟨h.1, h.2⟩, fun h => ⟨h.texts, h.suffix⟩⟩

section Calls
variable {now user md5 filename fileid url : CString} {size : ℤ}

theorem tame_file (h : Tame [user, md5, filename, now]) : Tame [user, md5, filename] :=
  h.mono (by simp) (by simp)

theorem tame_insert (h : Tame [user, md5, filename, now]) : Tame [user, md5, now, filename] :=
  h.mono (by simp) (by
    simp only [List.map_cons, List.map_nil, List.sum_cons, List.sum_nil]
    omega)

theorem all_dealMd5 (h : Tame [user, md5, filename, now]) :
    (dealMd5 now user md5 filename).All AsMeant := by
  have hfile := tame_file h
  exact (stays_dealMd5 meant_wiring (meant_counting hfile.ofUser)
    (Tame.asMeant (.selectFileCount md5) hfile.ofMd5 rfl)
    (Tame.asMeant (.selectUserFile user md5 filename) hfile rfl)
    (fun n => Tame.asMeant (.updateFileCount md5 n) hfile.ofMd5 rfl)
    (Tame.asMeant (.insertUserFile user md5 filename now) (tame_insert h) rfl)).all

theorem all_saveFile (h : Tame [user, md5, filename, now]) :
    (saveFile now user md5 filename).All AsMeant := by
  have hfile := tame_file h
  exact (stays_saveFile meant_wiring (meant_counting hfile.ofUser)
    (Tame.asMeant (.selectFileCount md5) hfile.ofMd5 rfl)
    (Tame.asMeant (.selectUserFile user md5 filename) hfile rfl)
    (fun n => Tame.asMeant (.updateFileCount md5 n) hfile.ofMd5 rfl)
    (Tame.asMeant (.insertUserFile user md5 filename now) (tame_insert h) rfl)).all

theorem all_storeFile
    (h : Tame [user, md5, filename, now, fileid, url, getFileSuffix filename])
    (hsuffix : (getFileSuffix filename).length < suffixLen) :
    (storeFileinfoToMysql now user filename md5 size fileid url).All AsMeant := by
  have hinsert : Tame [user, md5, filename, now] :=
    h.mono (by simp) (by
      simp only [List.map_cons, List.map_nil, List.sum_cons, List.sum_nil]
      omega)
  have hinfo : Tame [md5, fileid, url, getFileSuffix filename] :=
    h.mono (by simp) (by
      simp only [List.map_cons, List.map_nil, List.sum_cons, List.sum_nil]
      omega)
  refine (stays_storeFileinfoToMysql meant_wiring (meant_counting (tame_file hinsert).ofUser) ?_
    (Tame.asMeant (.insertUserFile user md5 filename now) (tame_insert hinsert) rfl)).all
  exact ⟨.insertFileInfo ⟨md5, fileid, url, size, getFileSuffix filename, 1⟩, rfl,
    Tame.meant hinfo hsuffix⟩

theorem all_handler {c : Call} (h : TameCall c) : c.handler.All AsMeant := by
  obtain ⟨htexts, hsuffix⟩ := h
  cases c with
  | upload now user md5 filename size fileid url => exact all_storeFile htexts hsuffix
  | dealMd5 now user md5 filename => exact all_dealMd5 htexts
  | saveFile now user md5 filename => exact all_saveFile htexts
  | shareFile now user md5 filename =>
    have hfile := tame_file htexts
    exact (stays_shareFile meant_wiring meant_caching (meant_counting tame_shareCountKey)
      (Tame.asMeant (.selectShareFile md5 filename) hfile.ofShare rfl)
      (Tame.asMeant (.markShared user md5 filename) hfile rfl)
      (Tame.asMeant (.insertShareFile user md5 filename now) (tame_insert htexts) rfl)).all
  | cancelShareFile user md5 filename =>
    exact (stays_cancelShareFile meant_wiring meant_caching (meant_counting tame_shareCountKey)
      (Tame.asMeant (.markUnshared user md5 filename) htexts rfl)
      (Tame.asMeant (.deleteShareFile user md5 filename) htexts rfl)).all
  | delFile user md5 filename =>
    refine (stays_delFile meant_wiring meant_caching (meant_counting htexts.ofUser)
      (meant_counting tame_shareCountKey)
      (Tame.asMeant (.selectSharedStatus user md5 filename) htexts rfl)
      (Tame.asMeant (.deleteShareFile user md5 filename) htexts rfl)
      (Tame.asMeant (.deleteUserFile user md5 filename) htexts rfl) ?_).all
    exact stays_delFileReference (Tame.asMeant (.selectFileCount md5) htexts.ofMd5 rfl)
      (fun n => Tame.asMeant (.updateFileCount md5 n) htexts.ofMd5 rfl)
      (Tame.asMeant (.selectFileId md5) htexts.ofMd5 rfl)
      (Tame.asMeant (.deleteFileInfo md5) htexts.ofMd5 rfl) fun _ _ _ _ => trivial

theorem all_getUserFilesCount (h : Tame [user]) : (getUserFilesCount user).All AsMeant :=
  all_filesCount meant_wiring (meant_counting h).select

theorem all_getShareFilesCount : getShareFilesCount.All AsMeant :=
  all_filesCount meant_wiring (meant_counting tame_shareCountKey).select

theorem all_getUserFilelist (h : Tame [user]) : (getUserFilelist user).All AsMeant :=
  all_fileList meant_wiring (Tame.asMeant (.userFileInfo user) h rfl)

end Calls

end DiskTexts
