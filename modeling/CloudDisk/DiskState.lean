import CloudDisk.ByteStrings
import CloudDisk.CommandPrograms
import CloudDisk.RowTables
import CloudDisk.SortedSets
import Mathlib.Data.Finset.Basic
import Mathlib.Data.Multiset.Bind
import Mathlib.Logic.Function.Basic

/-! # The shared state of the CGI programs and the commands they send

MySQL tables, the file storage and the Redis key space, with the statements that the
handlers format. Statements are kept as parsed requests. A server that is sent their texts does
what `Cmd.exec` says as long as each is read as it was meant: this is `DiskTexts.AsMeant`, the
strings of a call that is `DiskTexts.TameCall` ensure it, and `DiskTexts.run_faithful` carries a
result about `Cmd.exec` over. Numbers travel as text between the servers and the handlers and are
carried here as numbers. -/
namespace DiskState

open ByteStrings CommandPrograms RowTables SortedSets

structure FileInfo where
  md5 : CString
  fileId : CString
  url : CString
  size : ℤ
  type : CString
  count : ℤ
  deriving DecidableEq

structure UserFile where
  user : CString
  md5 : CString
  createtime : CString
  filename : CString
  sharedStatus : ℤ
  pv : ℤ
  deriving DecidableEq

structure ShareFile where
  user : CString
  md5 : CString
  createtime : CString
  filename : CString
  pv : ℤ
  deriving DecidableEq

structure UserCount where
  user : CString
  count : ℤ
  deriving DecidableEq

inductive RedisValue where
  | string (s : CString)
  | zset (z : SortedSet)
  | hash (fields : List (CString × CString))

abbrev Redis := CString → Option RedisValue

structure Disk where
  fileInfo : Multiset FileInfo
  userFileList : Multiset UserFile
  shareFileList : Multiset ShareFile
  userFileCount : Multiset UserCount
  storage : Finset CString
  redis : Redis

/-- The row of `user_file_count` that holds the number of shared files. -/
def shareCountKey : CString := cstr "xxx_share_xxx_file_xxx_list_xxx_count_xxx"

def filePublicZset : CString := cstr "FILE_PUBLIC_ZSET"
def fileNameHash : CString := cstr "FILE_NAME_HASH"

inductive Cell where
  | int (n : ℤ)
  | str (s : CString)
  deriving DecidableEq

def Cell.key : Cell → ℤ ×ₗ CString
  | .int n => toLex (n, [])
  | .str s => toLex (0, 0 :: s)

theorem Cell.key_injective : Function.Injective Cell.key := by
  intro a b h
  cases a <;> cases b <;> simp_all [Cell.key]

/-- Only used to give a result set one fixed order. -/
instance cellOrder : LinearOrder Cell := LinearOrder.lift' Cell.key Cell.key_injective

/-- `atoi` on a fetched column; only numeric columns are converted. -/
def Cell.atoi : Cell → ℤ
  | .int n => n
  | .str _ => 0

/-- The statements of the handlers, one constructor for each table and one for each
query that reads more than a single table or asks for an order. -/
inductive Sql where
  | setNames
  | fileInfo (op : TableOp FileInfo (List Cell))
  | userFileList (op : TableOp UserFile (List Cell))
  | shareFileList (op : TableOp ShareFile (List Cell))
  | userFileCount (op : TableOp UserCount (List Cell))
  | rankShares
  | userFileInfo (user : CString)
  | shareFileInfo (start count : ℤ)

/-! ## Statements

Each definition is one `sprintf` template, in the order of the tables:
`select count`, `select file_id`, `update .. set count = %d`, `delete` and `insert` on
`file_info where md5 = '%s'`; `select *`, `select shared_status`, `select pv`,
`update .. set shared_status = %d`, `update .. set pv = %d`, `delete` and `insert` on
`user_file_list where user = '%s' and md5 = '%s' and filename = '%s'`; `select *`,
`select pv` and `update .. set pv = %d` on `share_file_list where md5 = '%s' and
filename = '%s'`, but `delete` there also by user; and `select count`, `update .. set
count = %d`, `delete` and `insert` on `user_file_count where user = '%s'`. -/

section Statements
variable (user md5 filename : CString)

def FileInfo.hasMd5 (r : FileInfo) : Bool := r.md5 = md5

def UserFile.isRow (r : UserFile) : Bool := r.user = user ∧ r.md5 = md5 ∧ r.filename = filename

def ShareFile.isRow (r : ShareFile) : Bool := r.user = user ∧ r.md5 = md5 ∧ r.filename = filename

def ShareFile.isNamed (r : ShareFile) : Bool := r.md5 = md5 ∧ r.filename = filename

def UserCount.ofUser (r : UserCount) : Bool := r.user = user

def selectFileCount : Sql := .fileInfo (.select (FileInfo.hasMd5 md5) fun r => [.int r.count])

def selectFileId : Sql := .fileInfo (.select (FileInfo.hasMd5 md5) fun r => [.str r.fileId])

def updateFileCount (count : ℤ) : Sql :=
  .fileInfo (.update (FileInfo.hasMd5 md5) fun r => { r with count })

def deleteFileInfo : Sql := .fileInfo (.delete (FileInfo.hasMd5 md5))

def insertFileInfo (r : FileInfo) : Sql := .fileInfo (.insert r)

def selectUserFile : Sql :=
  .userFileList (.select (UserFile.isRow user md5 filename) fun r =>
    [.str r.user, .str r.md5, .str r.createtime, .str r.filename, .int r.sharedStatus, .int r.pv])

def selectSharedStatus : Sql :=
  .userFileList (.select (UserFile.isRow user md5 filename) fun r => [.int r.sharedStatus])

def updateSharedStatus (sharedStatus : ℤ) : Sql :=
  .userFileList (.update (UserFile.isRow user md5 filename) fun r => { r with sharedStatus })

def deleteUserFile : Sql := .userFileList (.delete (UserFile.isRow user md5 filename))

def insertUserFile (createtime : CString) : Sql :=
  .userFileList (.insert ⟨user, md5, createtime, filename, 0, 0⟩)

def selectShareFile : Sql :=
  .shareFileList (.select (ShareFile.isNamed md5 filename) fun r =>
    [.str r.user, .str r.md5, .str r.createtime, .str r.filename, .int r.pv])

def selectSharePv : Sql :=
  .shareFileList (.select (ShareFile.isNamed md5 filename) fun r => [.int r.pv])

def updateSharePv (pv : ℤ) : Sql :=
  .shareFileList (.update (ShareFile.isNamed md5 filename) fun r => { r with pv })

def deleteShareFile : Sql := .shareFileList (.delete (ShareFile.isRow user md5 filename))

def insertShareFile (createtime : CString) : Sql :=
  .shareFileList (.insert ⟨user, md5, createtime, filename, 0⟩)

def selectUserCount : Sql :=
  .userFileCount (.select (UserCount.ofUser user) fun r => [.int r.count])

def updateUserCount (count : ℤ) : Sql :=
  .userFileCount (.update (UserCount.ofUser user) fun r => { r with count })

def deleteUserCount : Sql := .userFileCount (.delete (UserCount.ofUser user))

def insertUserCount : Sql := .userFileCount (.insert ⟨user, 1⟩)

end Statements

section Keys
variable {user md5 filename : CString}

theorem hasMd5_key (r : FileInfo) : r.hasMd5 md5 = true → r.md5 = md5 := of_decide_eq_true

theorem isRow_key (r : UserFile) (h : r.isRow user md5 filename = true) :
    (r.user, r.md5, r.filename) = (user, md5, filename) := by
  simpa [UserFile.isRow] using h

theorem isNamed_key (r : ShareFile) (h : r.isNamed md5 filename = true) :
    (r.md5, r.filename) = (md5, filename) := by
  simpa [ShareFile.isNamed] using h

theorem ofUser_key (r : UserCount) : r.ofUser user = true → r.user = user := of_decide_eq_true

end Keys

/-- Rows of `user_file_list` (or `share_file_list`) joined with `file_info` on `md5`. -/
def joinFileInfo {α : Type} (t : Multiset α) (md5 : α → CString) (columns : α → List Cell)
    (files : Multiset FileInfo) : Multiset (List Cell) :=
  (t ×ˢ files).filter (fun q => q.2.md5 = md5 q.1) |>.map fun q =>
    columns q.1 ++ [.str q.2.url, .int q.2.size, .str q.2.type]

/-- The result set, or nothing when the server rejects the statement: `limit` takes no
negative numbers. The choice `k` is the server's freedom in ordering rows. -/
def Sql.result (k : ℕ) : Sql → Disk → Option (List (List Cell))
  | .setNames, _ => some []
  | .fileInfo op, d => some (listing k (op.answer d.fileInfo))
  | .userFileList op, d => some (listing k (op.answer d.userFileList))
  | .shareFileList op, d => some (listing k (op.answer d.shareFileList))
  | .userFileCount op, d => some (listing k (op.answer d.userFileCount))
  | .rankShares, d => some <| (listing k <| d.shareFileList.map fun r =>
      [Cell.str r.md5, .str r.filename, .int r.pv]).insertionSort fun a b =>
        b[2]?.getD (.int 0) ≤ a[2]?.getD (.int 0)
  | .userFileInfo user, d => some <| listing k <|
      joinFileInfo (rowsWhere (fun r : UserFile => r.user = user) d.userFileList) UserFile.md5
        (fun r => [.str r.user, .str r.md5, .str r.createtime, .str r.filename,
          .int r.sharedStatus, .int r.pv]) d.fileInfo
  | .shareFileInfo start count, d =>
    if start < 0 ∨ count < 0 then none
    else some <| (listing k <| joinFileInfo d.shareFileList ShareFile.md5
      (fun r => [.str r.user, .str r.md5, .str r.createtime, .str r.filename, .int r.pv])
      d.fileInfo).drop start.toNat |>.take count.toNat

def Sql.effect : Sql → Disk → Disk
  | .fileInfo op, d => { d with fileInfo := op.effect d.fileInfo }
  | .userFileList op, d => { d with userFileList := op.effect d.userFileList }
  | .shareFileList op, d => { d with shareFileList := op.effect d.shareFileList }
  | .userFileCount op, d => { d with userFileCount := op.effect d.userFileCount }
  | _, d => d

inductive RedisCmd where
  | zlexcount (key lo hi : CString)
  | zadd (key : CString) (score : ℤ) (member : CString)
  | zincrby (key member : CString)
  | zrem (key member : CString)
  | zcard (key : CString)
  | zrevrange (key : CString) (start stop : ℤ)
  | zscore (key member : CString)
  | hset (key field value : CString)
  | hget (key field : CString)
  | hdel (key field : CString)
  | del (key : CString)
  | get (key : CString)
  | setex (key value : CString)
  deriving DecidableEq

/-- Replies of all three servers. `score` is the bulk string that spells a number. -/
inductive Reply where
  | failed
  | done
  | rows (rs : List (List Cell))
  | integer (n : ℤ)
  | string (s : CString)
  | score (n : ℤ)
  | nil
  | array (l : List CString)

/-- A key whose sorted set or hash becomes empty is removed. -/
def keepZset (z : SortedSet) : Option RedisValue :=
  if z.card = 0 then none else some (.zset z)

def keepHash (fields : List (CString × CString)) : Option RedisValue :=
  if fields = [] then none else some (.hash fields)

def hashSet (field value : CString) (fields : List (CString × CString)) :
    List (CString × CString) :=
  (field, value) :: fields.filter fun q => q.1 ≠ field

/-- Commands answer an error, here `failed`, on a key of another type. -/
def RedisCmd.exec (k : ℕ) : RedisCmd → Redis → Reply × Redis
  | .zlexcount key lo hi, s =>
    match s key with
    | none => (.integer 0, s)
    | some (.zset z) => (.integer (z.lexCount lo hi), s)
    | some _ => (.failed, s)
  | .zadd key score member, s =>
    match s key with
    | none => (.integer 1, Function.update s key
        (some (.zset ((SortedSet.fresh member).add k score member))))
    | some (.zset z) => (.integer (if (z.score? member).isSome then 0 else 1),
        Function.update s key (some (.zset (z.add k score member))))
    | some _ => (.failed, s)
  | .zincrby key member, s =>
    match s key with
    | none => (.score 1, Function.update s key
        (some (.zset ((SortedSet.fresh member).add k 1 member))))
    | some (.zset z) =>
      let score := (z.score? member).getD 0 + 1
      (.score score, Function.update s key (some (.zset (z.add k score member))))
    | some _ => (.failed, s)
  | .zrem key member, s =>
    match s key with
    | none => (.integer 0, s)
    | some (.zset z) => (.integer (if (z.score? member).isSome then 1 else 0),
        Function.update s key (keepZset (z.remove member)))
    | some _ => (.failed, s)
  | .zcard key, s =>
    match s key with
    | none => (.integer 0, s)
    | some (.zset z) => (.integer z.card, s)
    | some _ => (.failed, s)
  | .zrevrange key start stop, s =>
    match s key with
    | none => (.array [], s)
    | some (.zset z) => (.array (z.revrange start stop), s)
    | some _ => (.failed, s)
  | .zscore key member, s =>
    match s key with
    | none => (.nil, s)
    | some (.zset z) => ((z.score? member).elim .nil .score, s)
    | some _ => (.failed, s)
  | .hset key field value, s =>
    match s key with
    | none => (.integer 1, Function.update s key (some (.hash [(field, value)])))
    | some (.hash fields) => (.integer (if (fields.lookup field).isSome then 0 else 1),
        Function.update s key (some (.hash (hashSet field value fields))))
    | some _ => (.failed, s)
  | .hget key field, s =>
    match s key with
    | none => (.nil, s)
    | some (.hash fields) => ((fields.lookup field).elim .nil .string, s)
    | some _ => (.failed, s)
  | .hdel key field, s =>
    match s key with
    | none => (.integer 0, s)
    | some (.hash fields) => (.integer (if (fields.lookup field).isSome then 1 else 0),
        Function.update s key (keepHash (fields.filter fun q => q.1 ≠ field)))
    | some _ => (.failed, s)
  | .del key, s => (.integer (if (s key).isSome then 1 else 0), Function.update s key none)
  | .get key, s =>
    match s key with
    | none => (.nil, s)
    | some (.string v) => (.string v, s)
    | some _ => (.failed, s)
  | .setex key value, s => (.done, Function.update s key (some (.string value)))

inductive Cmd where
  | mysqlConnect
  | query (q : Sql)
  | redisConnect
  | redis (c : RedisCmd)
  | fdfsDelete (fileid : CString)

/-- A command fails without effect, or succeeds with the server's free choice. -/
inductive Outcome where
  | fail
  | ok (pick : ℕ)
  deriving DecidableEq, Repr

def Cmd.exec : Outcome → Cmd → Disk → Reply × Disk
  | .fail, _, d => (.failed, d)
  | .ok _, .mysqlConnect, d => (.done, d)
  | .ok _, .redisConnect, d => (.done, d)
  | .ok k, .query q, d =>
    match q.result k d with
    | none => (.failed, d)
    | some rs => (.rows rs, q.effect d)
  | .ok k, .redis c, d => ((c.exec k d.redis).1, { d with redis := (c.exec k d.redis).2 })
  | .ok _, .fdfsDelete fileid, d =>
    if fileid ∈ d.storage then (.done, { d with storage := d.storage.erase fileid })
    else (.failed, d)

abbrev Handler (α : Type) := Prog Cmd Reply α

end DiskState
