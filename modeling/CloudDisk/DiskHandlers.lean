import CloudDisk.DiskState

/-! # The handlers of the CGI programs

Every handler is the command program of one C function, statement by statement; a
`goto END` is a `return`. Handlers return the C result; the printed status code is a
function of it. The clock is an argument. `set names utf8` is sent and its result
ignored, as in the source.

A call of `LOG` changes nothing here. It returns if its text fits the 4096 bytes of `mesg`, which is
a condition on what a client sends or a user has in two places: the body of a request, see
`RequestLoops.Request.read`, and the lists, see `PrintedReplies.FitsLog`. -/
namespace DiskHandlers

open ByteStrings CommandPrograms DiskState

/-- The codes -1, 1, 2 and 0 of `process_result_one`, the last with what it stored. -/
inductive ResultOne where
  | failed
  | noRecord
  | hasRecord
  | saved (cell : Cell)

def msqlConn : Handler Bool := do
  match ← perform .mysqlConnect with
  | .done => return true
  | _ => return false

def mysqlQuery (q : Sql) : Handler Bool := do
  match ← perform (.query q) with
  | .rows _ => return true
  | _ => return false

def firstRow (buf : Bool) : Reply → ResultOne
  | .rows [] => .noRecord
  | .rows (row :: _) => if buf then .saved (row.head?.getD (.str [])) else .hasRecord
  | _ => .failed

def processResultOne (q : Sql) (buf : Bool) : Handler ResultOne := do
  return firstRow buf (← perform (.query q))

def ropConnectdbNopwd : Handler Bool := do
  match ← perform .redisConnect with
  | .done => return true
  | _ => return false

def ropZsetExit (key member : CString) : Handler ℤ := do
  match ← perform (.redis (.zlexcount key member member)) with
  | .integer n => return n
  | _ => return -1

def onlyOne : Reply → ℤ
  | .integer 1 => 0
  | _ => -1

/-- `rop_zset_add`, `rop_zset_zrem` and `rop_hash_del` want the integer one. -/
def ropWantsOne (c : RedisCmd) : Handler ℤ := do
  return onlyOne (← perform (.redis c))

def ropZsetAdd (key : CString) (score : ℤ) (member : CString) : Handler ℤ :=
  ropWantsOne (.zadd key score member)

def ropZsetZrem (key member : CString) : Handler ℤ := ropWantsOne (.zrem key member)

def ropHashDel (key field : CString) : Handler ℤ := ropWantsOne (.hdel key field)

/-- Any integer reply is taken as success here, unlike in the functions above. -/
def ropHashSet (key field value : CString) : Handler ℤ := do
  match ← perform (.redis (.hset key field value)) with
  | .integer _ => return 0
  | _ => return -1

/-- The reply text is compared with `OK`, but `ZINCRBY` answers the new score. -/
def ropZsetIncrement (key member : CString) : Handler ℤ := do
  match ← perform (.redis (.zincrby key member)) with
  | .done => return 0
  | _ => return -1

def ropZsetZcard (key : CString) : Handler ℤ := do
  match ← perform (.redis (.zcard key)) with
  | .integer n => return n
  | _ => return -1

def ropZsetGetScore (key member : CString) : Handler ℤ := do
  match ← perform (.redis (.zscore key member)) with
  | .score n => return n
  | _ => return -1

def valuesIdSize : ℕ := 1024

def ropHashGet (key field : CString) : Handler (Option CString) := do
  match ← perform (.redis (.hget key field)) with
  | .string s => return some (untilNul (s.take valuesIdSize))
  | _ => return none

/-- The value of a C `int` after an arithmetic operation that may leave its range. -/
def toInt32 (n : ℤ) : ℤ := Int.bmod n (2 ^ 32)

theorem toInt32_spec (n : ℤ) :
    -2 ^ 31 ≤ toInt32 n ∧ toInt32 n < 2 ^ 31 ∧ ∃ k, n = toInt32 n + 2 ^ 32 * k := by
  have hlow : -((2 ^ 32 : ℕ) : ℤ) / 2 ≤ toInt32 n := Int.le_bmod (by decide)
  have hhigh : toInt32 n < (((2 ^ 32 : ℕ) : ℤ) + 1) / 2 := Int.bmod_lt (by decide)
  obtain ⟨k, hk⟩ : ((2 ^ 32 : ℕ) : ℤ) ∣ toInt32 n - n := Int.dvd_bmod_sub_self
  refine ⟨by omega, by omega, -k, by omega⟩

theorem toInt32_eq {n : ℤ} (h0 : 0 ≤ n) (h1 : n < 2 ^ 31) : toInt32 n = n :=
  Int.bmod_eq_of_le (by omega) (by omega)

/-- The number of elements is compared as an unsigned number with the signed count. -/
def ropZsetZrevrange (key : CString) (fromPos endPos : ℤ) : Handler (Option (List CString)) := do
  match ← perform (.redis (.zrevrange key fromPos endPos)) with
  | .array l =>
    let count := toInt32 (endPos - fromPos + 1)
    let kept := if count < 0 then l else l.take count.toNat
    return some (kept.map fun s => untilNul (s.take (valuesIdSize - 1)))
  | _ => return none

def ropDelKey (key : CString) : Handler ℤ := do
  match ← perform (.redis (.del key)) with
  | .integer n => return if 0 < n then 0 else -1
  | _ => return -1

def ropGetString (key : CString) : Handler (Option CString) := do
  match ← perform (.redis (.get key)) with
  | .string s => return some (untilNul s)
  | _ => return none

def verifyToken (user token : CString) : Handler ℤ := do
  if !(← ropConnectdbNopwd) then return -1
  match ← ropGetString user with
  | some tmpToken => return if token = tmpToken then 0 else -1
  | none => return -1

/-! ## Adding a file to a user's list

The counters are variables of type `int`, and `int n` is what such a variable holds of a number:
`toInt32 n` in the program. Where the results are about runs, and a counter is a number of rows, the
same handlers are used with the numbers as they are; on the states with `HandlerEffects.IntColumns`
`int` changes none of the counters that are read. -/

section Counters
variable (int : ℤ → ℤ)

/-- The end of `deal_md5`, `save_file` and `store_fileinfo_to_mysql`, and a part of
`share_file`. After a failed lookup `sql_cmd` still holds the select, which is sent
again in the place of the insert or the update. -/
def raiseUserCountIn (user : CString) : Handler Bool := do
  match ← processResultOne (selectUserCount user) true with
  | .noRecord => mysqlQuery (insertUserCount user)
  | .saved tmp => mysqlQuery (updateUserCount user (int (int tmp.atoi + 1)))
  | _ => mysqlQuery (selectUserCount user)

def dealMd5In (now user md5 filename : CString) : Handler ℤ := do
  if !(← msqlConn) then return -1
  let _ ← mysqlQuery .setNames
  match ← processResultOne (selectFileCount md5) true with
  | .saved tmp =>
    match ← processResultOne (selectUserFile user md5 filename) false with
    | .hasRecord => return -2
    | _ =>
      if !(← mysqlQuery (updateFileCount md5 (int (int tmp.atoi + 1)))) then return -1
      if !(← mysqlQuery (insertUserFile user md5 filename now)) then return -1
      if !(← raiseUserCountIn int user) then return -1
      return 0
  | .noRecord => return -3
  | _ => return 0

end Counters

def raiseUserCount (user : CString) : Handler Bool := raiseUserCountIn id user

def dealMd5 (now user md5 filename : CString) : Handler ℤ := dealMd5In id now user md5 filename

def suffixLen : ℕ := 8

def getFileSuffix (filename : CString) : CString :=
  let suffix := (filename.reverse.takeWhile (· ≠ 46)).reverse
  if 46 ∈ filename ∧ suffix ≠ [] then suffix else cstr "null"

section Counters
variable (int : ℤ → ℤ)

def storeFileinfoToMysqlIn (now user filename md5 : CString) (size : ℤ)
    (fileid fdfsFileUrl : CString) : Handler ℤ := do
  if !(← msqlConn) then return -1
  let _ ← mysqlQuery .setNames
  if !(← mysqlQuery (insertFileInfo
    ⟨md5, fileid, fdfsFileUrl, size, getFileSuffix filename, 1⟩)) then return -1
  if !(← mysqlQuery (insertUserFile user md5 filename now)) then return -1
  if !(← raiseUserCountIn int user) then return -1
  return 0

/-- The part of `save_file` for a user who is not known to have the file. -/
def saveFileReferenceIn (now user md5 filename : CString) : Handler ℤ := do
  match ← processResultOne (selectFileCount md5) true with
  | .saved tmp =>
    if !(← mysqlQuery (updateFileCount md5 (int (int tmp.atoi + 1)))) then return -1
    if !(← mysqlQuery (insertUserFile user md5 filename now)) then return -1
    if !(← raiseUserCountIn int user) then return -1
    return 0
  | _ => return -1

def saveFileIn (now user md5 filename : CString) : Handler ℤ := do
  if !(← msqlConn) then return -1
  let _ ← mysqlQuery .setNames
  match ← processResultOne (selectUserFile user md5 filename) false with
  | .hasRecord => return -2
  | _ => saveFileReferenceIn int now user md5 filename

end Counters

def storeFileinfoToMysql (now user filename md5 : CString) (size : ℤ)
    (fileid fdfsFileUrl : CString) : Handler ℤ :=
  storeFileinfoToMysqlIn id now user filename md5 size fileid fdfsFileUrl

def saveFileReference (now user md5 filename : CString) : Handler ℤ :=
  saveFileReferenceIn id now user md5 filename

def saveFile (now user md5 filename : CString) : Handler ℤ := saveFileIn id now user md5 filename

/-! ## Sharing -/

def shareFile (now user md5 filename : CString) : Handler ℤ := do
  if !(← ropConnectdbNopwd) then return -1
  if !(← msqlConn) then return -1
  let _ ← mysqlQuery .setNames
  let fileid := md5 ++ filename
  let ret2 ← ropZsetExit filePublicZset fileid
  if ret2 = 1 then return -2
  if ret2 ≠ 0 then return -1
  match ← processResultOne (selectShareFile md5 filename) false with
  | .hasRecord =>
    let _ ← ropZsetAdd filePublicZset 0 fileid
    return -2
  | _ =>
    if !(← mysqlQuery (updateSharedStatus user md5 filename 1)) then return -1
    if !(← mysqlQuery (insertShareFile user md5 filename now)) then return -1
    if !(← raiseUserCount shareCountKey) then return -1
    let _ ← ropZsetAdd filePublicZset 0 fileid
    let _ ← ropHashSet fileNameHash fileid filename
    return 0

section Counters
variable (int : ℤ → ℤ)

/-- The middle of `del_file`, and of `cancel_share_file` with the share count. -/
def lowerUserCountIn (user : CString) : Handler Bool := do
  match ← processResultOne (selectUserCount user) true with
  | .saved tmp => mysqlQuery (if int tmp.atoi = 1 then deleteUserCount user
      else updateUserCount user (int (int tmp.atoi - 1)))
  | _ => return false

def cancelShareFileIn (user md5 filename : CString) : Handler ℤ := do
  if !(← ropConnectdbNopwd) then return -1
  if !(← msqlConn) then return -1
  let _ ← mysqlQuery .setNames
  let fileid := md5 ++ filename
  if !(← mysqlQuery (updateSharedStatus user md5 filename 0)) then return -1
  if !(← lowerUserCountIn int shareCountKey) then return -1
  if !(← mysqlQuery (deleteShareFile user md5 filename)) then return -1
  let ret ← ropZsetZrem filePublicZset fileid
  if ret ≠ 0 then return ret
  ropHashDel fileNameHash fileid

/-- `pv_file` of the sharefilesop program. -/
def pvFileIn (md5 filename : CString) : Handler ℤ := do
  if !(← ropConnectdbNopwd) then return -1
  let fileid := md5 ++ filename
  if !(← msqlConn) then return -1
  let _ ← mysqlQuery .setNames
  match ← processResultOne (selectSharePv md5 filename) true with
  | .saved tmp =>
    let pv := int tmp.atoi
    if !(← mysqlQuery (updateSharePv md5 filename (int (pv + 1)))) then return -1
    let ret2 ← ropZsetExit filePublicZset fileid
    if ret2 = 1 then ropZsetIncrement filePublicZset fileid
    else if ret2 = 0 then
      let _ ← ropZsetAdd filePublicZset (int (pv + 1)) fileid
      let _ ← ropHashSet fileNameHash fileid filename
      return 0
    else return -1
  | _ => return -1

end Counters

def lowerUserCount (user : CString) : Handler Bool := lowerUserCountIn id user

def cancelShareFile (user md5 filename : CString) : Handler ℤ :=
  cancelShareFileIn id user md5 filename

def pvFile (md5 filename : CString) : Handler ℤ := pvFileIn id md5 filename

/-! ## Deleting -/

def removeFileFromStorage (fileid : CString) : Handler Bool := do
  match ← perform (.fdfsDelete fileid) with
  | .done => return true
  | _ => return false

/-- The values of `share` and `flag`, or nothing when `del_file` gives up. -/
def delFileShare (user md5 filename : CString) : Handler (Option (ℤ × Bool)) := do
  let ret2 ← ropZsetExit filePublicZset (md5 ++ filename)
  if ret2 = 1 then return some (1, true)
  else if ret2 = 0 then
    match ← processResultOne (selectSharedStatus user md5 filename) true with
    | .saved tmp => return some (tmp.atoi, false)
    | .failed => return none
    | _ => return some (0, false)
  else return none

/-- The branch `share == 1` of `del_file`; unlike `cancel_share_file` it never deletes
the row of the share count. -/
def delFileUnshare (user md5 filename : CString) (flag : Bool) : Handler Bool := do
  if !(← mysqlQuery (deleteShareFile user md5 filename)) then return false
  match ← processResultOne (selectUserCount shareCountKey) true with
  | .saved tmp =>
    if !(← mysqlQuery (updateUserCount shareCountKey (tmp.atoi - 1))) then return false
    if flag then
      let _ ← ropZsetZrem filePublicZset (md5 ++ filename)
      let _ ← ropHashDel fileNameHash (md5 ++ filename)
      return true
    else return true
  | _ => return false

/-- The end of `del_file`: lower the reference count and drop the file at zero. -/
def delFileReference (md5 : CString) : Handler Bool := do
  match ← processResultOne (selectFileCount md5) true with
  | .saved tmp =>
    let count := tmp.atoi - 1
    if !(← mysqlQuery (updateFileCount md5 count)) then return false
    if count = 0 then
      match ← processResultOne (selectFileId md5) true with
      | .saved (.str fileid) =>
        if !(← mysqlQuery (deleteFileInfo md5)) then return false
        removeFileFromStorage fileid
      | _ => return false
    else return true
  | _ => return false

def delFile (user md5 filename : CString) : Handler ℤ := do
  if !(← ropConnectdbNopwd) then return -1
  if !(← msqlConn) then return -1
  let _ ← mysqlQuery .setNames
  match ← delFileShare user md5 filename with
  | none => return -1
  | some (share, flag) =>
    let shared ← if share = 1 then delFileUnshare user md5 filename flag else pure true
    if !shared then return -1
    if !(← lowerUserCount user) then return -1
    if !(← mysqlQuery (deleteUserFile user md5 filename)) then return -1
    if !(← delFileReference md5) then return -1
    return 0

/-! ## The ranking -/

/-- Every row of the ranking query goes into the sorted set and the name hash. -/
def refillRanking : List (List Cell) → Handler Bool
  | [] => return true
  | [.str md5, .str filename, .int pv] :: rest => do
    let _ ← ropZsetAdd filePublicZset pv (md5 ++ filename)
    let _ ← ropHashSet fileNameHash (md5 ++ filename) filename
    refillRanking rest
  | _ => return false

def rebuildRanking : Handler Bool := do
  let _ ← ropDelKey filePublicZset
  let _ ← ropDelKey fileNameHash
  match ← perform (.query .rankShares) with
  | .rows [] => return false
  | .rows rs => refillRanking rs
  | _ => return false

def rankingItems : List CString → Handler (Option (List (CString × ℤ)))
  | [] => return some []
  | fileid :: rest => do
    match ← ropHashGet fileNameHash fileid with
    | none => return none
    | some filename =>
      let score ← ropZsetGetScore filePublicZset fileid
      if score = -1 then return none
      match ← rankingItems rest with
      | none => return none
      | some items => return some ((filename, score) :: items)

/-- The items of the array, or nothing for the status `015`. `calloc` fails for a negative count,
and for any other one where there is no memory. -/
def getRankingFilelistIn (granted : Bool) (start count : ℤ) :
    Handler (Option (List (CString × ℤ))) := do
  if !(← ropConnectdbNopwd) then return none
  if !(← msqlConn) then return none
  let _ ← mysqlQuery .setNames
  match ← processResultOne (selectUserCount shareCountKey) true with
  | .saved tmp =>
    let redisNum ← ropZsetZcard filePublicZset
    if redisNum = -1 then return none
    let ok ← if redisNum ≠ tmp.atoi then rebuildRanking else pure true
    if !ok then return none
    if count < 0 then return none
    if !granted then return none
    match ← ropZsetZrevrange filePublicZset start (toInt32 (start + count - 1)) with
    | none => return none
    | some value => rankingItems value
  | _ => return none

def getRankingFilelist (start count : ℤ) : Handler (Option (List (CString × ℤ))) :=
  getRankingFilelistIn true start count

/-! ## Listings -/

/-- `get_user_files_count` and `get_share_files_count`; a failure counts as zero. -/
def filesCount (user : CString) : Handler ℤ := do
  if !(← msqlConn) then return 0
  let _ ← mysqlQuery .setNames
  match ← processResultOne (selectUserCount user) true with
  | .saved tmp => return tmp.atoi
  | _ => return 0

def getUserFilesCount (user : CString) : Handler ℤ := filesCount user

def getShareFilesCount : Handler ℤ := filesCount shareCountKey

/-- The rows of the array, or nothing for the status `015`; what is printed of them depends on the
log, see `PrintedReplies.printed`. -/
def fileList (q : Sql) : Handler (Option (List (List Cell))) := do
  if !(← msqlConn) then return none
  let _ ← mysqlQuery .setNames
  match ← perform (.query q) with
  | .rows [] => return none
  | .rows rs => return some rs
  | _ => return none

def getUserFilelist (user : CString) : Handler (Option (List (List Cell))) :=
  fileList (.userFileInfo user)

def getShareFilelist (start count : ℤ) : Handler (Option (List (List Cell))) :=
  fileList (.shareFileInfo start count)

/-! ## Replies -/

/-- The status codes, by the number that is printed. -/
inductive Status where
  | c004 | c005 | c006 | c010 | c011 | c012 | c013 | c014 | c015 | c016 | c017 | c018 | c019
  | c020 | c021 | c022 | c111
  deriving DecidableEq, Repr

def dealMd5Status (ret : ℤ) : Status :=
  if ret = 0 then .c005 else if ret = -2 then .c004 else .c006

/-- Nothing is printed for any other result. -/
def saveFileStatus (ret : ℤ) : Option Status :=
  if ret = 0 then some .c020 else if ret = -1 then some .c022
  else if ret = -2 then some .c021 else none

def shareFileStatus (ret : ℤ) : Option Status :=
  if ret = 0 then some .c010 else if ret = -1 then some .c011
  else if ret = -2 then some .c012 else none

def delFileStatus (ret : ℤ) : Status := if ret = 0 then .c013 else .c014

def pvFileStatus (ret : ℤ) : Status := if ret = 0 then .c016 else .c017

def cancelShareFileStatus (ret : ℤ) : Status := if ret = 0 then .c018 else .c019

end DiskHandlers
