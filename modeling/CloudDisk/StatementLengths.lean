import CloudDisk.CheckedCode
import CloudDisk.DiskHandlers
import CloudDisk.SqlTemplates

/-! # What is written into sql_cmd

Every `sprintf` of `deal_md5`, `store_fileinfo_to_mysql`, `share_file` and `del_file`, with its
arguments. The strings have buffers of their own, larger together than the 512 bytes of
`sql_cmd`; whether a statement fits is a sum of lengths. -/
namespace StatementLengths

open ByteStrings CheckedCode SqlFormats SqlTemplates DiskState DiskHandlers

/-! ## Formats -/

inductive Format where
  | of (t : Template)
  | shareLookup
  | shareMark
  | shareInsertRow
  | shareUserCount
  | shareInsertCount
  | shareUpdateCount
  deriving DecidableEq

def Format.text : Format → CString
  | .of t => t.format
  | .shareLookup => cstr "select * from share_file_list where md5 = '%s' and filename = '%s'"
  | .shareMark =>
    cstr "update user_file_list set shared_status = 1 where user = '%s' and md5 = '%s' and " ++
      cstr "filename = '%s'"
  | .shareInsertRow =>
    cstr "insert into share_file_list (user, md5, createtime, filename, pv) " ++
      cstr "values ('%s', '%s', '%s', '%s', %d)"
  | .shareUserCount => userCountFormat
  | .shareInsertCount => cstr "insert into user_file_count (user, count) values('%s', %d)"
  | .shareUpdateCount => updateCountFormat

/-- The bytes of a format by itself, and the number of its conversions. -/
def measure (s : CString) : ℕ × ℕ := (fixedLength (units s), (kinds (units s)).length)

def templateMeasure : Template → ℕ × ℕ
  | .loginPassword => (39, 1)
  | .registerLookup => (34, 1)
  | .registerInsert => (101, 6)
  | .md5FileCount | .delFileCount => (42, 1)
  | .md5UserFile => (75, 3)
  | .md5RaiseFile => (44, 2)
  | .md5InsertFile | .storeInsertFile => (106, 6)
  | .md5UserCount | .storeUserCount | .delShareCount | .delUserCount => (49, 1)
  | .md5InsertCount | .storeInsertCount => (55, 2)
  | .md5UpdateCount | .storeUpdateCount | .delLowerShare | .delLowerCount => (51, 2)
  | .storeInsertInfo => (90, 6)
  | .delSharedStatus => (87, 3)
  | .delShareRow => (74, 3)
  | .delDropCount => (43, 1)
  | .delUserFile => (73, 3)
  | .delLowerFile => (42, 2)
  | .delFileId => (44, 1)
  | .delFileInfo => (36, 1)

def Format.measure : Format → ℕ × ℕ
  | .of t => templateMeasure t
  | .shareLookup => (62, 2)
  | .shareMark => (90, 3)
  | .shareInsertRow => (91, 5)
  | .shareUserCount => (49, 1)
  | .shareInsertCount => (54, 2)
  | .shareUpdateCount => (51, 2)

set_option maxRecDepth 2000 in
theorem measure_format (t : Template) : measure t.format = templateMeasure t := by
  cases t with
  | registerInsert | md5InsertFile | storeInsertInfo | storeInsertFile | delSharedStatus =>
    exact eval_append measure _ _ rfl
  | _ => exact eval_format measure _ rfl

set_option maxRecDepth 2000 in
theorem measure_text (f : Format) : measure f.text = f.measure := by
  cases f with
  | of t => exact measure_format t
  | shareMark | shareInsertRow => exact eval_append measure _ _ rfl
  | _ => exact eval_format measure _ rfl

/-! ## Statements -/

structure Statement where
  format : Format
  args : List Arg

def Statement.text (s : Statement) : CString := sprintf (units s.format.text) s.args

def Statement.size (s : Statement) : ℕ :=
  s.format.measure.1 + (s.args.map fun a => a.text.length).sum

theorem length_text {s : Statement} (h : s.format.measure.2 = s.args.length) :
    s.text.length = s.size := by
  have hmeasure : measure s.format.text = s.format.measure := measure_text s.format
  have hfixed : fixedLength (units s.format.text) = s.format.measure.1 :=
    congrArg Prod.fst hmeasure
  have hkinds : (kinds (units s.format.text)).length = s.args.length :=
    (congrArg Prod.snd hmeasure).trans h
  rw [Statement.text, length_sprintf hkinds.symm, hfixed, Statement.size]

/-- One call, with the text of the time and with the numbers that reach its formats. -/
inductive Call where
  | dealMd5 (user md5 filename timeStr : CString) (fileCount userCount : ℤ)
  | storeFileinfoToMysql (user filename md5 : CString) (size : ℤ)
    (fileid fdfsFileUrl createTime : CString) (userCount : ℤ)
  | shareFile (user md5 filename createTime : CString) (shareCount : ℤ)
  | delFile (user md5 filename : CString) (shareCount userCount fileCount : ℤ)

/-- Every `sprintf` into `sql_cmd`, in the order of the source. -/
def Call.statements : Call → List Statement
  | .dealMd5 user md5 filename timeStr fileCount userCount =>
    [⟨.of .md5FileCount, [.str md5]⟩,
      ⟨.of .md5UserFile, [.str user, .str md5, .str filename]⟩,
      ⟨.of .md5RaiseFile, [.int fileCount, .str md5]⟩,
      ⟨.of .md5InsertFile, [.str user, .str md5, .str timeStr, .str filename, .int 0, .int 0]⟩,
      ⟨.of .md5UserCount, [.str user]⟩,
      ⟨.of .md5InsertCount, [.str user, .int 1]⟩,
      ⟨.of .md5UpdateCount, [.int userCount, .str user]⟩]
  | .storeFileinfoToMysql user filename md5 size fileid fdfsFileUrl createTime userCount =>
    [⟨.of .storeInsertInfo,
        [.str md5, .str fileid, .str fdfsFileUrl, .int size, .str (getFileSuffix filename),
          .int 1]⟩,
      ⟨.of .storeInsertFile,
        [.str user, .str md5, .str createTime, .str filename, .int 0, .int 0]⟩,
      ⟨.of .storeUserCount, [.str user]⟩,
      ⟨.of .storeInsertCount, [.str user, .int 1]⟩,
      ⟨.of .storeUpdateCount, [.int userCount, .str user]⟩]
  | .shareFile user md5 filename createTime shareCount =>
    [⟨.shareLookup, [.str md5, .str filename]⟩,
      ⟨.shareMark, [.str user, .str md5, .str filename]⟩,
      ⟨.shareInsertRow, [.str user, .str md5, .str createTime, .str filename, .int 0]⟩,
      ⟨.shareUserCount, [.str shareCountKey]⟩,
      ⟨.shareInsertCount, [.str shareCountKey, .int 1]⟩,
      ⟨.shareUpdateCount, [.int shareCount, .str shareCountKey]⟩]
  | .delFile user md5 filename shareCount userCount fileCount =>
    [⟨.of .delSharedStatus, [.str user, .str md5, .str filename]⟩,
      ⟨.of .delShareRow, [.str user, .str md5, .str filename]⟩,
      ⟨.of .delShareCount, [.str shareCountKey]⟩,
      ⟨.of .delLowerShare, [.int shareCount, .str shareCountKey]⟩,
      ⟨.of .delUserCount, [.str user]⟩,
      ⟨.of .delDropCount, [.str user]⟩,
      ⟨.of .delLowerCount, [.int userCount, .str user]⟩,
      ⟨.of .delUserFile, [.str user, .str md5, .str filename]⟩,
      ⟨.of .delFileCount, [.str md5]⟩,
      ⟨.of .delLowerFile, [.int fileCount, .str md5]⟩,
      ⟨.of .delFileId, [.str md5]⟩,
      ⟨.of .delFileInfo, [.str md5]⟩]

/-- `sprintf(fileid, "%s%s", md5, filename)`, into 1024 bytes. -/
def Call.fileids : Call → List CString
  | .shareFile _ md5 filename _ _ | .delFile _ md5 filename _ _ _ =>
    [sprintf (units (cstr "%s%s")) [.str md5, .str filename]]
  | _ => []

/-- Every string has room for its NUL in the buffer that is declared for it. -/
def Call.Fits : Call → Prop
  | .dealMd5 user md5 filename timeStr fileCount userCount =>
    user.length < 128 ∧ md5.length < 256 ∧ filename.length < 128 ∧ timeStr.length < 128 ∧
      IsInt fileCount ∧ IsInt userCount
  | .storeFileinfoToMysql user filename md5 _ fileid fdfsFileUrl createTime userCount =>
    user.length < 128 ∧ filename.length < 256 ∧ md5.length < 256 ∧ fileid.length < 512 ∧
      fdfsFileUrl.length < 512 ∧ createTime.length < 25 ∧ IsInt userCount
  | .shareFile user md5 filename createTime shareCount =>
    user.length < 128 ∧ md5.length < 256 ∧ filename.length < 256 ∧ createTime.length < 25 ∧
      IsInt shareCount
  | .delFile user md5 filename shareCount userCount fileCount =>
    user.length < 128 ∧ md5.length < 256 ∧ filename.length < 256 ∧ IsInt shareCount ∧
      IsInt userCount ∧ IsInt fileCount

/-- The longest statements of the call are short enough. -/
def Call.Short : Call → Prop
  | .dealMd5 user md5 filename timeStr _ _ =>
    108 + user.length + md5.length + timeStr.length + filename.length ≤ 511
  | .storeFileinfoToMysql user filename md5 size fileid fdfsFileUrl createTime _ =>
    91 + md5.length + fileid.length + fdfsFileUrl.length + (intText size).length +
        (getFileSuffix filename).length ≤ 511 ∧
      108 + user.length + md5.length + createTime.length + filename.length ≤ 511
  | .shareFile user md5 filename createTime _ =>
    92 + user.length + md5.length + createTime.length + filename.length ≤ 511
  | .delFile user md5 filename _ _ _ => 87 + user.length + md5.length + filename.length ≤ 511

/-! ## What fits -/

section Sizes
variable {call : Call}

theorem statements_args (call : Call) :
    ∀ s ∈ call.statements, s.format.measure.2 = s.args.length := by
  cases call <;>
    simp [Call.statements, Format.measure, templateMeasure]

theorem lengths_le_iff (n : ℕ) :
    (∀ s ∈ call.statements, s.text.length ≤ n) ↔ ∀ s ∈ call.statements, s.size ≤ n := by
  apply forall₂_congr
  intro s hs
  rw [length_text (statements_args call s hs)]

theorem length_shareCountKey : shareCountKey.length = 41 := by
  rw [shareCountKey, ByteStrings.cstr_ofList]
  rfl

theorem fileids_short (h : call.Fits) : ∀ t ∈ call.fileids, t.length ≤ 1023 := by
  have hunits : units (cstr "%s%s") = [.conv .str, .conv .str] := eval_format units _ rfl
  cases call
  case dealMd5 => simp [Call.fileids]
  case storeFileinfoToMysql => simp [Call.fileids]
  all_goals
    obtain ⟨-, hmd5, hfilename, -⟩ := h
    simp only [Call.fileids, hunits, sprintf, Arg.text, List.mem_singleton, forall_eq,
      List.length_append, List.length_nil]
    omega

theorem length_digit : (intText 0).length = 1 ∧ (intText 1).length = 1 := by
  decide

theorem sizes_le_iff (h : call.Fits) : (∀ s ∈ call.statements, s.size ≤ 511) ↔ call.Short := by
  have hdigit := length_digit
  have hkey := length_shareCountKey
  cases call
  all_goals simp only [Call.statements, Call.Short, List.forall_mem_cons, List.not_mem_nil,
    IsEmpty.forall_iff, implies_true, and_true, Statement.size, Format.measure, templateMeasure,
    List.map_cons, List.map_nil, List.sum_cons, List.sum_nil, Arg.text]
  case dealMd5 user md5 filename timeStr fileCount userCount =>
    obtain ⟨huser, hmd5, hfilename, htime, hfile, hcount⟩ := h
    have hfile' := length_intText_le hfile.1 hfile.2
    have hcount' := length_intText_le hcount.1 hcount.2
    omega
  case storeFileinfoToMysql user filename md5 size fileid fdfsFileUrl createTime userCount =>
    obtain ⟨huser, hfilename, hmd5, hfileid, hurl, htime, hcount⟩ := h
    have hcount' := length_intText_le hcount.1 hcount.2
    omega
  case shareFile user md5 filename createTime shareCount =>
    obtain ⟨huser, hmd5, hfilename, htime, hshare⟩ := h
    have hshare' := length_intText_le hshare.1 hshare.2
    omega
  case delFile user md5 filename shareCount userCount fileCount =>
    obtain ⟨huser, hmd5, hfilename, hshare, hcount, hfile⟩ := h
    have hshare' := length_intText_le hshare.1 hshare.2
    have hcount' := length_intText_le hcount.1 hcount.2
    have hfile' := length_intText_le hfile.1 hfile.2
    omega

theorem exists_long (h : call.Fits) (hlong : ¬ call.Short) :
    ∃ s ∈ call.statements, sqlMaxLen ≤ s.text.length := by
  by_contra hnone
  apply hlong
  rw [← sizes_le_iff h, ← lengths_le_iff]
  intro s hs
  by_contra hs'
  exact hnone ⟨s, hs, by rw [sqlMaxLen]; omega⟩

end Sizes

/-- Everything that a call writes stays inside `sql_cmd` and `fileid` exactly when its longest
statements do. -/
theorem statements_fit_iff (call : Call) (h : call.Fits) :
    ((∀ s ∈ call.statements, s.text.length ≤ sqlMaxLen - 1) ∧
      ∀ t ∈ call.fileids, t.length ≤ 1023) ↔ call.Short := by
  have hlengths : (∀ s ∈ call.statements, s.text.length ≤ sqlMaxLen - 1) ↔ call.Short :=
    (lengths_le_iff 511).trans (sizes_le_iff h)
  rw [hlengths]
  exact and_iff_left (fileids_short h)

/-- The deletion of a file with a short name. -/
theorem statements_fit_short :
    (Call.delFile [98, 111, 98] [97, 98] [97, 46, 99] 1 2 1).Fits ∧
    ∀ s ∈ (Call.delFile [98, 111, 98] [97, 98] [97, 46, 99] 1 2 1).statements,
      s.text.length ≤ sqlMaxLen - 1 := by
  have hfits : (Call.delFile [98, 111, 98] [97, 98] [97, 46, 99] 1 2 1).Fits :=
    ⟨by decide, by decide, by decide, by decide, by decide, by decide⟩
  have hshort : (Call.delFile [98, 111, 98] [97, 98] [97, 46, 99] 1 2 1).Short := by
    simp [Call.Short]
  exact ⟨hfits, ((statements_fit_iff _ hfits).mpr hshort).1⟩

/-- In each of the four functions there are strings that fit their own buffers and make a
statement of more than 511 bytes. -/
theorem statements_overflow :
    (∃ user md5 filename timeStr, (Call.dealMd5 user md5 filename timeStr 1 1).Fits ∧
      ∃ s ∈ (Call.dealMd5 user md5 filename timeStr 1 1).statements,
        sqlMaxLen ≤ s.text.length) ∧
    (∃ user filename md5 fileid url createTime,
      (Call.storeFileinfoToMysql user filename md5 1 fileid url createTime 1).Fits ∧
      ∃ s ∈ (Call.storeFileinfoToMysql user filename md5 1 fileid url createTime 1).statements,
        sqlMaxLen ≤ s.text.length) ∧
    (∃ user md5 filename createTime, (Call.shareFile user md5 filename createTime 1).Fits ∧
      ∃ s ∈ (Call.shareFile user md5 filename createTime 1).statements,
        sqlMaxLen ≤ s.text.length) ∧
    ∃ user md5 filename, (Call.delFile user md5 filename 1 1 1).Fits ∧
      ∃ s ∈ (Call.delFile user md5 filename 1 1 1).statements, sqlMaxLen ≤ s.text.length := by
  have hfits : ∀ {call : Call}, call.Fits ∧ ¬ call.Short →
      call.Fits ∧ ∃ s ∈ call.statements, sqlMaxLen ≤ s.text.length :=
    fun h => ⟨h.1, exists_long h.1 h.2⟩
  refine ⟨⟨List.replicate 127 97, List.replicate 255 97, List.replicate 127 97,
      List.replicate 19 48, hfits ?_⟩,
    ⟨[98, 111, 98], [97, 46, 99], List.replicate 32 97, List.replicate 400 97,
      List.replicate 430 97, List.replicate 19 48, hfits ?_⟩,
    ⟨List.replicate 127 97, List.replicate 32 97, List.replicate 255 97, List.replicate 19 48,
      hfits ?_⟩,
    List.replicate 127 97, List.replicate 255 97, List.replicate 255 97, hfits ?_⟩
  all_goals
    simp only [Call.Fits, Call.Short, IsInt, List.length_replicate, List.length_cons,
      List.length_nil]
    omega

end StatementLengths
