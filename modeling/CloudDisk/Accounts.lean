import CloudDisk.RequestLoops

/-! # Accounts

Table `user` and the two functions that use it: `user_register` and `check_user_pwd`. They
send their own statements, which are kept apart from those on the files; the replies and the
outcomes of commands are the same. -/
namespace Accounts

open ByteStrings CommandPrograms RowTables DiskState DiskHandlers JsonBodies RequestLoops

structure User where
  name : CString
  nickname : CString
  password : CString
  phone : CString
  createtime : CString
  email : CString
  deriving DecidableEq

def User.named (name : CString) (u : User) : Bool := u.name = name

/-- `select * from user where name = '%s'`, `select password from user where name="%s"` and
`insert into user (..) values (..)`. -/
inductive AccountSql where
  | selectUser (name : CString)
  | selectPassword (name : CString)
  | insertUser (u : User)
  deriving DecidableEq

inductive AccountCmd where
  | mysqlConnect
  | setNames
  | query (q : AccountSql)
  deriving DecidableEq

def AccountSql.answer : AccountSql → Multiset User → Multiset (List Cell)
  | .selectUser name, t => (rowsWhere (User.named name) t).map fun u =>
      [.str u.name, .str u.nickname, .str u.password, .str u.phone, .str u.createtime, .str u.email]
  | .selectPassword name, t => (rowsWhere (User.named name) t).map fun u => [.str u.password]
  | .insertUser _, _ => 0

def AccountSql.effect : AccountSql → Multiset User → Multiset User
  | .insertUser u, t => u ::ₘ t
  | _, t => t

def AccountCmd.exec : Outcome → AccountCmd → Multiset User → Reply × Multiset User
  | .fail, _, t => (.failed, t)
  | .ok _, .mysqlConnect, t => (.done, t)
  | .ok _, .setNames, t => (.rows [], t)
  | .ok k, .query q, t => (.rows (listing k (q.answer t)), q.effect t)

/-! ## Registration -/

structure Registration where
  user : CString
  nickName : CString
  pwd : CString
  tel : CString
  email : CString
  deriving DecidableEq

def Registration.row (r : Registration) (now : CString) : User :=
  ⟨r.user, r.nickName, r.pwd, r.tel, now, r.email⟩

def regBufLen : ℕ := 128

/-- `get_reg_info`. -/
def regFields : List (BodyField Registration) :=
  [stringField "userName" regBufLen fun s m => { m with user := s },
    stringField "nickName" regBufLen fun s m => { m with nickName := s },
    stringField "firstPwd" regBufLen fun s m => { m with pwd := s },
    stringField "phone" regBufLen fun s m => { m with tel := s },
    stringField "email" regBufLen fun s m => { m with email := s }]

def noRegistration : Registration := ⟨[], [], [], [], []⟩

/-- From the connection on. Only the answer that there is a record stops a registration: a
lookup that failed goes on to the insert. -/
def registerUser (now : CString) (r : Registration) : Prog AccountCmd Reply ℤ := do
  match ← perform .mysqlConnect with
  | .done =>
    let _ ← perform .setNames
    match firstRow false (← perform (.query (.selectUser r.user))) with
    | .hasRecord => return -2
    | _ =>
      match ← perform (.query (.insertUser (r.row now))) with
      | .rows _ => return 0
      | _ => return -1
  | _ => return -1

/-- No result when a field does not fit its buffer or is not a string. -/
def userRegister (now regBuf : CString) : Prog AccountCmd Reply (Option ℤ) :=
  match getInfo regFields regBuf with
  | .crashed => return none
  | .stopped _ => return some (-1)
  | .complete write => do return some (← registerUser now (write noRegistration))

/-! ## Login -/

/-- The result of the lookup is not looked at: without a row the buffer stays empty. -/
def checkUserPwd (user pwd : CString) : Prog AccountCmd Reply ℤ := do
  match ← perform .mysqlConnect with
  | .done =>
    let _ ← perform .setNames
    match firstRow true (← perform (.query (.selectPassword user))) with
    | .saved (.str tmp) => return if tmp = pwd ∧ pwd ≠ [] then 0 else -1
    | _ => return -1
  | _ => return -1

end Accounts
