import CloudDisk.HandlerEffects
import CloudDisk.MultipartForms
import CloudDisk.ReferenceCounts
import CloudDisk.SqlReadings
import CloudDisk.SqlTemplates
import CloudDisk.UploadPage

/-! # The rows of an upload

The page joins user, file name, md5 and size with bars, `recv_save_file` takes the line apart
with `strtok`, and `store_fileinfo_to_mysql` writes two rows. The size is read from the line and
dropped: `main` hands on a variable that nothing writes. The server here reads the texts of the
two inserts. It answers one that ends inside a quoted string with an error; what it does with one
that does not read as an insert of its form, or that overran a buffer, is left open. -/
namespace UploadedRows

open ByteStrings CommandPrograms RowTables DiskState DiskHandlers HandlerRules HandlerEffects
  SqlTexts SqlFormats SqlReadings SqlTemplates CheckedCode UploadBodies MultipartForms UploadPage

/-! ## From the page to the handler -/

inductive InsertSql where
  | info (r : FileInfo)
  | file (r : UserFile)

def InsertSql.sql : InsertSql → Sql
  | .info r => insertFileInfo r
  | .file r => .userFileList (.insert r)

def insertOf : Sql → Option InsertSql
  | .fileInfo (.insert r) => some (.info r)
  | .userFileList (.insert r) => some (.file r)
  | _ => none

def template : InsertSql → Template
  | .info _ => .storeInsertInfo
  | .file _ => .storeInsertFile

def arguments : InsertSql → List Arg
  | .info r => [.str r.md5, .str r.fileId, .str r.url, .int r.size, .str r.type, .int r.count]
  | .file r => [.str r.user, .str r.md5, .str r.createtime, .str r.filename, .int r.sharedStatus,
      .int r.pv]

def sqlText (q : InsertSql) : CString := (template q).text (arguments q)

/-- The row with other values; the numbers stay, or the text is not read as this statement. -/
def infoWith (r : FileInfo) : List CString → Option FileInfo
  | [md5, fileId, url, _, type] => some { r with md5, fileId, url, type }
  | _ => none

def fileWith (r : UserFile) : List CString → Option UserFile
  | [user, md5, createtime, filename] => some { r with user, md5, createtime, filename }
  | _ => none

def rebuild : InsertSql → List CString → Option InsertSql
  | .info r, values => (infoWith r values).map .info
  | .file r, values => (fileWith r values).map .file

def suffixFits : InsertSql → Bool
  | .info r => r.type.length < suffixLen
  | .file _ => true

/-- `suffix` and `sql_cmd` hold what is written to them. -/
def fits (q : InsertSql) : Bool := suffixFits q ∧ (sqlText q).length < sqlMaxLen

set_option maxRecDepth 2000 in
theorem template_kinds (q : InsertSql) :
    (arguments q).map Arg.kind = kinds (units (template q).format) := by
  symm
  cases q <;> exact eval_append (fun s => kinds (units s)) _ _ rfl

set_option maxRecDepth 2000 in
theorem template_split (q : InsertSql) : (segments (units (template q).format)).map
    (fun ss => apart ss && ss.all (quotedBy 39)) = some true := by
  cases q <;> exact eval_append (fun s => (segments (units s)).map
    fun ss => apart ss && ss.all (quotedBy 39)) _ _ rfl

set_option maxRecDepth 2000 in
theorem rebuild_own (q : InsertSql) : (segments (units (template q).format)).bind
    (fun ss => rebuild q (quotedTexts ss (arguments q))) = some q := by
  cases q <;> exact eval_append (fun s => (segments (units s)).bind
    fun ss => rebuild _ (quotedTexts ss (arguments _))) _ _ rfl

theorem rebuild_template {q q' : InsertSql} {values : List CString}
    (h : rebuild q values = some q') : template q' = template q := by
  cases q with
  | info r =>
    obtain ⟨r', -, rfl⟩ := Option.map_eq_some_iff.mp h
    rfl
  | file r =>
    obtain ⟨r', -, rfl⟩ := Option.map_eq_some_iff.mp h
    rfl

def wording : Wording InsertSql where
  format q := (template q).format
  arguments := arguments
  quote _ := 39
  rebuild := rebuild
  fits := fits
  kinds_eq := template_kinds
  split := template_split
  rebuild_own := rebuild_own
  rebuild_format _ _ _ h := congrArg Template.format (rebuild_template h)

set_option maxRecDepth 2000 in
theorem sqlText_length (q : InsertSql) :
    (sqlText q).length ≤ 112 + ((arguments q).map fun a => a.text.length).sum := by
  have hunits : decide ((units (template q).format).length ≤ 112) = true := by
    cases q <;> exact eval_append (fun s => decide ((units s).length ≤ 112)) _ _ rfl
  exact (length_sprintf_le _ _).trans (Nat.add_le_add_right (of_decide_eq_true hunits) _)

/-- What the server does with any other text. -/
abbrev Otherwise := InsertSql → ℕ → Disk → Reply × Disk

def textExec (other : Otherwise) : Outcome → Cmd → Disk → Reply × Disk
  | .ok k, .query q, d =>
    match insertOf q with
    | none => Cmd.exec (.ok k) (.query q) d
    | some s =>
      match wording.read s with
      | some s' => Cmd.exec (.ok k) (.query s'.sql) d
      | none => other s k d
  | o, c, d => Cmd.exec o c d

section Exec
variable {other : Otherwise} {α : Type} {adm : Outcome → Prop} {d : Disk} {q q' : InsertSql}
  {Q : α → Disk → Prop}

theorem insertOf_sql (q : InsertSql) : insertOf q.sql = some q := by
  cases q <;> rfl

theorem insert_exec (k : ℕ) (q : InsertSql) (d : Disk) :
    Cmd.exec (.ok k) (.query q.sql) d = (.rows [], q.sql.effect d) := by
  cases q <;> rfl

theorem textExec_read (h : wording.read q = some q') (k : ℕ) (d : Disk) :
    textExec other (.ok k) (.query q.sql) d = (.rows [], q'.sql.effect d) := by
  simp only [textExec, insertOf_sql, h, insert_exec]

/-- The commands whose texts are not looked at. -/
def Unread : Cmd → Prop
  | .query q => insertOf q = none
  | _ => True

end Exec

/-! ## What is stored -/

def SameRows (d d' : Disk) : Prop :=
  d'.fileInfo = d.fileInfo ∧ d'.userFileList = d.userFileList

section Store
variable {other : Otherwise} {now user filename md5 fileid url : CString} {size : ℤ} {d : Disk}
  {e : ℕ → Outcome}

/-- Commands that the server is not asked to read and that leave the rows alone. -/
def Aside (c : Cmd) : Prop := Unread c ∧ ∀ o d, SameRows d (Cmd.exec o c d).2

theorem aside_plumbing : Plumbing Aside where
  mysql := ⟨trivial, fun o _ => by cases o <;> exact ⟨rfl, rfl⟩⟩
  redis := ⟨trivial, fun o _ => by cases o <;> exact ⟨rfl, rfl⟩⟩
  names := ⟨rfl, fun o _ => by cases o <;> exact ⟨rfl, rfl⟩⟩
  counts _ := ⟨rfl, fun o _ => by cases o <;> exact ⟨rfl, rfl⟩⟩
  cache _ _ := ⟨trivial, fun o _ => by cases o <;> exact ⟨rfl, rfl⟩⟩

/-- A server that accepts every text it reads otherwise, unless a quote is open, and does
nothing. -/
def silent : Otherwise := fun q _ d =>
  if wording.fits q ∧ lex .gap (wording.text q) = none then (.failed, d) else (.rows [], d)

end Store

/-! ## The fields that arrive -/

section Received
variable {host : Host} {p : PlainPost} {u : Upload}

end Received

/-! ## The texts of the inserts -/

def timeBytes : List UInt8 := [48, 49, 50, 51, 52, 53, 54, 55, 56, 57, 45, 58, 32]

/-- What `strftime` makes of the time. -/
structure Timestamp where
  text : CString
  chars : ∀ b ∈ text, b ∈ timeBytes

theorem Timestamp.plain (t : Timestamp) : ∀ b ∈ t.text, SqlFormats.Plain b ∧ b ≠ 124 := by
  have hall : ∀ b ∈ timeBytes, (¬ isQuote b ∧ b ≠ backslash) ∧ b ≠ 124 := by
    simp [timeBytes, isQuote, backslash]
  exact fun b hb => hall b (t.chars b hb)

section Texts
variable {now : Timestamp} {user md5 filename : CString} {s : UserFile}

end Texts

/-! ## Uploads whose rows are right -/

section Iff
variable {host : Host} {stored : Upload → Option (CString × CString)} {now : Timestamp} {size : ℤ}
  {fileid url user md5 filename : CString} {p : PlainPost} {u : Upload}

end Iff

end UploadedRows
