import CloudDisk.SqlFormats

/-! # The statements of the handlers as texts

The format strings of `check_user_pwd`, `user_register`, `deal_md5`,
`store_fileinfo_to_mysql` and `del_file`, in the order of the source. Nothing escapes the
arguments on their way into a statement. -/
namespace SqlTemplates

open ByteStrings SqlTexts SqlFormats

def sqlMaxLen : ℕ := 512

inductive Template where
  | loginPassword
  | registerLookup
  | registerInsert
  | md5FileCount
  | md5UserFile
  | md5RaiseFile
  | md5InsertFile
  | md5UserCount
  | md5InsertCount
  | md5UpdateCount
  | storeInsertInfo
  | storeInsertFile
  | storeUserCount
  | storeInsertCount
  | storeUpdateCount
  | delSharedStatus
  | delShareRow
  | delShareCount
  | delLowerShare
  | delUserCount
  | delDropCount
  | delLowerCount
  | delUserFile
  | delFileCount
  | delLowerFile
  | delFileId
  | delFileInfo
  deriving DecidableEq

def insertFileFormat : CString :=
  cstr "insert into user_file_list(user, md5, createtime, filename, shared_status, pv) " ++
    cstr "values ('%s', '%s', '%s', '%s', %d, %d)"

def userCountFormat : CString := cstr "select count from user_file_count where user = '%s'"

def insertCountFormat : CString :=
  cstr " insert into user_file_count (user, count) values('%s', %d)"

def updateCountFormat : CString := cstr "update user_file_count set count = %d where user = '%s'"

def fileCountFormat : CString := cstr "select count from file_info where md5 = '%s'"

def Template.format : Template → CString
  | .loginPassword => cstr "select password from user where name=\"%s\""
  | .registerLookup => cstr "select * from user where name = '%s'"
  | .registerInsert =>
    cstr "insert into user (name, nickname, password, phone, createtime, email) " ++
      cstr "values ('%s', '%s', '%s', '%s', '%s', '%s')"
  | .md5FileCount => fileCountFormat
  | .md5UserFile =>
    cstr "select * from user_file_list where user = '%s' and md5 = '%s' and filename = '%s'"
  | .md5RaiseFile => cstr "update file_info set count = %d where md5 = '%s'"
  | .md5InsertFile => insertFileFormat
  | .md5UserCount => userCountFormat
  | .md5InsertCount => insertCountFormat
  | .md5UpdateCount => updateCountFormat
  | .storeInsertInfo =>
    cstr "insert into file_info (md5, file_id, url, size, type, count) " ++
      cstr "values ('%s', '%s', '%s', '%ld', '%s', %d)"
  | .storeInsertFile => insertFileFormat
  | .storeUserCount => userCountFormat
  | .storeInsertCount => insertCountFormat
  | .storeUpdateCount => updateCountFormat
  | .delSharedStatus =>
    cstr "select shared_status from user_file_list where user = '%s' and md5 = '%s' and " ++
      cstr "filename = '%s'"
  | .delShareRow =>
    cstr "delete from share_file_list where user = '%s' and md5 = '%s' and filename = '%s'"
  | .delShareCount => userCountFormat
  | .delLowerShare => updateCountFormat
  | .delUserCount => userCountFormat
  | .delDropCount => cstr "delete from user_file_count where user = '%s'"
  | .delLowerCount => updateCountFormat
  | .delUserFile =>
    cstr "delete from user_file_list where user = '%s' and md5 = '%s' and filename = '%s'"
  | .delFileCount => fileCountFormat
  | .delLowerFile => cstr "update file_info set count=%d where md5 = '%s'"
  | .delFileId => cstr "select file_id from file_info where md5 = '%s'"
  | .delFileInfo => cstr "delete from file_info where md5 = '%s'"

section Texts
variable (t : Template) (args : List Arg)

def Template.text : CString := sprintf (units t.format) args

def Template.pieces : List Piece :=
  SqlFormats.pieces ((segments (units t.format)).getD []) args

/-- The template's own tokens, with the arguments as its literals. -/
def Template.tokens : List Token := SqlTexts.tokens .gap (t.pieces args)

/-- What a function makes of a format, computed from its characters. -/
theorem eval_format {β : Type} {b : β} (f : CString → β) (l : List Char)
    (h : f (l.map fun c => UInt8.ofNat c.toNat) = b) : f (cstr (String.ofList l)) = b := by
  rw [cstr_ofList]
  exact h

/-- The same of a format that is written in two parts. -/
theorem eval_append {β : Type} {b : β} (f : CString → β) (l l' : List Char)
    (h : f ((l ++ l').map fun c => UInt8.ofNat c.toNat) = b) :
    f (cstr (String.ofList l) ++ cstr (String.ofList l')) = b := by
  rw [cstr_ofList, cstr_ofList, ← List.map_append]
  exact h

set_option maxRecDepth 2000 in
theorem template_segments : (segments (units t.format)).map apart = some true := by
  cases t with
  | registerInsert | md5InsertFile | storeInsertInfo | storeInsertFile | delSharedStatus =>
    exact eval_append (fun s => (segments (units s)).map apart) _ _ rfl
  | _ => exact eval_format (fun s => (segments (units s)).map apart) _ rfl

variable {t args}

theorem template_lex_iff (hk : args.map Arg.kind = kinds (units t.format)) :
    lex .gap (t.text args) = some (t.tokens args) ↔
      ∀ q s, .quoted q s ∈ t.pieces args → clean q s := by
  obtain ⟨ss, hss, ha⟩ := Option.map_eq_some_iff.mp (template_segments t)
  unfold Template.text Template.tokens Template.pieces
  rw [hss]
  exact sprintf_lex_iff hss ha hk

end Texts

theorem loginPassword_kinds : kinds (units Template.loginPassword.format) = [.str] :=
  eval_format (fun s => kinds (units s)) _ rfl

def cleanPiece : Piece → Bool
  | .byte _ => true
  | .quoted q s => clean q s

/-- A name with a percent sign after a backslash is read as it stands. -/
theorem template_lex_bob :
    lex .gap (Template.loginPassword.text [.str [98, 111, 98, 92, 37]]) =
      some (Template.loginPassword.tokens [.str [98, 111, 98, 92, 37]]) := by
  have hkinds : [Arg.str [98, 111, 98, 92, 37]].map Arg.kind =
      kinds (units Template.loginPassword.format) := loginPassword_kinds.symm
  have hpieces : ∀ p ∈ Template.loginPassword.pieces [.str [98, 111, 98, 92, 37]],
      cleanPiece p := by
    decide +kernel
  exact (template_lex_iff hkinds).mpr fun q s hmem => hpieces _ hmem

/-- The name `" or "1"="1` turns the lookup of one user into a lookup of all of them. -/
theorem login_injected :
    lex .gap (Template.loginPassword.text [.str (cstr "\" or \"1\"=\"1")]) =
      some [.word (cstr "select"), .word (cstr "password"), .word (cstr "from"),
        .word (cstr "user"), .word (cstr "where"), .word (cstr "name"), .mark 61, .literal [],
        .word (cstr "or"), .literal [49], .mark 61, .literal [49]] ∧
    lex .gap (Template.loginPassword.text [.str (cstr "\" or \"1\"=\"1")]) ≠
      some (Template.loginPassword.tokens [.str (cstr "\" or \"1\"=\"1")]) := by
  decide +kernel

end SqlTemplates
