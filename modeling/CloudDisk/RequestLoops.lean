import CloudDisk.DiskHandlers
import CloudDisk.JsonBodies
import CloudDisk.LogMessages

/-! # The accept loops of the CGI programs

One round of each `main`: what it reads of a request, which buffers it fills, what it runs
and prints. A round takes the memory the previous one left. Buffers that are declared
outside the loop, or inside but without a value, are part of that memory. A string that does
not fit its buffer, that of `LOG` included, a copy from a null pointer and a read past the end of a
string end the process. -/
namespace RequestLoops

open ByteStrings CheckedCode CommandPrograms DiskState DiskHandlers JsonBodies
open LogMessages (Tm formatMessage formatMessage_spec mesgSize)

structure Request where
  query : Option CString
  contentLength : Option CString
  body : List UInt8
  now : CString

def isSpace (b : UInt8) : Bool := b = 32 ∨ (9 ≤ b ∧ b ≤ 13)

/-- `atoi` of a text: the result of `strtol`, which saturates, cut to an `int`. -/
def atoi (s : CString) : ℤ :=
  let l := s.dropWhile isSpace
  let negative := l.head? = some minus
  let signed := negative ∨ l.head? = some plus
  let n : ℤ := decimal ((if signed then l.tail else l).takeWhile isDigit)
  toInt32 (max (-(2 ^ 63)) (min (if negative then -n else n) (2 ^ 63 - 1)))

/-! ## The body -/

def bufSize : ℕ := 4096

inductive Body where
  | noData
  | nothing
  | overflow
  | text (buf : CString)
  deriving DecidableEq

def Request.len (r : Request) : ℤ :=
  match r.contentLength with
  | none => 0
  | some s => atoi s

/-- What `fread` leaves in `buf`, seen as a string. A full buffer has no room for the NUL. The
string is logged before anything else is done with it, with 7 bytes around it. -/
def Request.read (r : Request) : Body :=
  if r.len ≤ 0 then .noData
  else if r.body = [] then .nothing
  else if bufSize ≤ (r.body.take r.len.toNat).length then .overflow
  else if mesgSize ≤ (untilNul (r.body.take r.len.toNat)).length + 7 then .overflow
  else .text (untilNul (r.body.take r.len.toNat))

/-- The call of `LOG` that the condition stands for. -/
theorem returns_log {now : Tm} {filename buf : CString} {line : ℕ} :
    (Returns (formatMessage now filename line (cstr "buf = %s\n") [.str buf]) fun _ => True) ↔
      buf.length + 7 < mesgSize := by
  have hunits : SqlFormats.units (cstr "buf = %s\n") = (cstr "buf = ").map .byte ++
      [.conv .str, .byte 10] := by decide +kernel
  have htext : SqlFormats.sprintf (SqlFormats.units (cstr "buf = %s\n")) [.str buf] =
      cstr "buf = " ++ buf ++ [10] := by
    rw [hunits]
    rfl
  have hlength : (cstr "buf = ").length = 6 := by decide
  rw [formatMessage_spec, htext, List.length_append, List.length_append, hlength]
  simp only [List.length_singleton, and_true]
  omega

/-! ## The fields of a body -/

section Fields
variable {M : Type}

/-- How far a round gets with filling its buffers, and the writes made on the way. -/
inductive Extract (M : Type) where
  | crashed
  | stopped (write : M → M)
  | complete (write : M → M)

def Extract.after (set : M → M) : Extract M → Extract M
  | .crashed => .crashed
  | .stopped write => .stopped (write ∘ set)
  | .complete write => .complete (write ∘ set)

/-- What a loop goes on with that does not look at the result. -/
def Extract.written : Extract M → Option (M → M)
  | .crashed => none
  | .stopped write => some write
  | .complete write => some write

def Extract.isStopped : Extract M → Bool
  | .stopped _ => true
  | _ => false

structure BodyField (M : Type) where
  name : CString
  store : Json → Option (M → M)

/-- `strcpy(buf, child->valuestring)`. -/
def stringField (name : String) (size : ℕ) (set : CString → M → M) : BodyField M where
  name := cstr name
  store
    | .string s => if s.length < size then some (set s) else none
    | _ => none

/-- `*p = child->valueint`. -/
def intField (name : String) (set : ℤ → M → M) : BodyField M where
  name := cstr name
  store item := some (set item.valueint)

/-- Members are looked up and copied in turn, up to the first that is missing. -/
def copyFields : List (BodyField M) → Json → Extract M
  | [], _ => .complete id
  | field :: fields, root =>
    match getObjectItem root field.name with
    | none => .stopped id
    | some item =>
      match field.store item with
      | none => .crashed
      | some set => (copyFields fields root).after set

/-- The functions `get_json_info`, `get_user_json_info`, `get_md5_info` and
`get_fileslist_json_info`, which differ in their fields. -/
def getInfo (fields : List (BodyField M)) (buf : CString) : Extract M :=
  match cJsonParse buf with
  | none => .stopped id
  | some root => copyFields fields root

end Fields

/-! ## Rounds -/

inductive Printed where
  | header
  | noData
  | status (s : Status)
  | number (n : ℤ)
  | userFiles (rows : List (List Cell))
  | shareFiles (rows : List (List Cell))
  | ranking (items : List (CString × ℤ))
  deriving DecidableEq

inductive Served (M : Type) where
  | crashed
  | served (memory : M) (out : List Printed)
  deriving DecidableEq

section Rounds
variable {M : Type}

def reply (memory : M) (out : List Printed) : Handler (Served M) :=
  return .served memory (.header :: out)

def crash : Handler (Served M) := return .crashed

def withBody (r : Request) (memory : M) (next : CString → Handler (Served M)) :
    Handler (Served M) :=
  match r.read with
  | .noData => reply memory [.noData]
  | .nothing => reply memory []
  | .overflow => crash
  | .text buf => next buf

end Rounds

def userNameLen : ℕ := 128
def tokenLen : ℕ := 128
def md5Len : ℕ := 256
def fileNameLen : ℕ := 256

/-! ### filesop -/

structure Filesop where
  user : CString
  token : CString
  md5 : CString
  filename : CString
  deriving DecidableEq

def filesopFields : List (BodyField Filesop) :=
  [stringField "user" userNameLen fun s m => { m with user := s },
    stringField "md5" md5Len fun s m => { m with md5 := s },
    stringField "filename" fileNameLen fun s m => { m with filename := s },
    stringField "token" tokenLen fun s m => { m with token := s }]

def filesopRun (m : Filesop) : Handler (Served Filesop) := do
  let ret ← verifyToken m.user m.token
  if ret ≠ 0 then reply m [.status .c111]
  else
    let ret ← delFile m.user m.md5 m.filename
    reply m [.status (delFileStatus ret)]

/-- The result of `get_json_info` is not looked at. -/
def filesop (r : Request) (m : Filesop) : Handler (Served Filesop) :=
  withBody r m fun buf =>
    match (getInfo filesopFields buf).written with
    | none => crash
    | some write => filesopRun (write m)

/-! ### files -/

structure Files where
  user : CString
  token : CString
  deriving DecidableEq

def filesFields : List (BodyField Files) :=
  [stringField "user" userNameLen fun s m => { m with user := s },
    stringField "token" tokenLen fun s m => { m with token := s }]

/-- The token is verified twice and only the second answer counts. -/
def filesRun (m : Files) : Handler (Served Files) := do
  let _ ← verifyToken m.user m.token
  let _ ← getUserFilesCount m.user
  let ret ← verifyToken m.user m.token
  if ret ≠ 0 then reply m [.status .c111]
  else
    match ← getUserFilelist m.user with
    | none => reply m [.status .c015]
    | some rows => reply m [.userFiles rows]

def files (r : Request) (m : Files) : Handler (Served Files) :=
  withBody r m fun buf =>
    match (getInfo filesFields buf).written with
    | none => crash
    | some write => filesRun (write m)

/-! ### md5 -/

/-- The buffers of the md5 program have other sizes than those of filesop. -/
def md5Fields : List (BodyField Filesop) :=
  [stringField "user" 128 fun s m => { m with user := s },
    stringField "md5" 256 fun s m => { m with md5 := s },
    stringField "fileName" 128 fun s m => { m with filename := s },
    stringField "token" 256 fun s m => { m with token := s }]

def md5Run (now : CString) (m : Filesop) : Handler (Served Unit) := do
  let ret ← verifyToken m.user m.token
  if ret = 0 then
    let ret ← dealMd5 now m.user m.md5 m.filename
    reply () [.status (dealMd5Status ret)]
  else reply () [.status .c111]

/-- The buffers are declared and zeroed inside the loop and the result is looked at. -/
def md5 (r : Request) (m : Unit) : Handler (Served Unit) :=
  withBody r m fun buf =>
    match getInfo md5Fields buf with
    | .crashed => crash
    | .stopped _ => reply m []
    | .complete write => md5Run r.now (write ⟨[], [], [], []⟩)

/-! ### The query string -/

def strstr (key : CString) : CString → Option CString
  | [] => if key = [] then some [] else none
  | b :: s => if (b :: s).take key.length = key then some (b :: s) else strstr key s

inductive KeyValue where
  | outside
  | absent
  | found (value : CString)

/-- The byte after the key is skipped unseen, even if it is the NUL. -/
def queryParseKeyValue (query key : CString) : KeyValue :=
  match strstr key query with
  | none => .absent
  | some temp =>
    match temp.drop key.length with
    | [] => .outside
    | _ :: value => .found (value.takeWhile fun b => b ≠ 35 ∧ b ≠ 38)

def cmdSize : ℕ := 20

/-- What the query says about `cmd`; `outside` also when there is no query at all or the
value does not fit. -/
def Request.cmd (r : Request) : KeyValue :=
  match r.query with
  | none => .outside
  | some query =>
    match queryParseKeyValue query (cstr "cmd") with
    | .found value => if value.length < cmdSize then .found value else .outside
    | .absent => .absent
    | .outside => .outside

/-- The buffer `cmd` after the query has been looked at, if the process lives. -/
def readCmd (r : Request) (cmd : CString) : Option CString :=
  match r.cmd with
  | .outside => none
  | .absent => some cmd
  | .found value => some value

/-! ### sharefilesop -/

structure Sharefilesop where
  cmd : CString
  user : CString
  md5 : CString
  filename : CString
  deriving DecidableEq

def sharefilesopFields : List (BodyField Sharefilesop) :=
  [stringField "user" userNameLen fun s m => { m with user := s },
    stringField "md5" md5Len fun s m => { m with md5 := s },
    stringField "filename" fileNameLen fun s m => { m with filename := s }]

def sharefilesopRun (now : CString) (m : Sharefilesop) : Handler (Served Sharefilesop) := do
  if m.cmd = cstr "pv" then
    let ret ← pvFile m.md5 m.filename
    reply m [.status (pvFileStatus ret)]
  else if m.cmd = cstr "cancel" then
    let ret ← cancelShareFile m.user m.md5 m.filename
    reply m [.status (cancelShareFileStatus ret)]
  else if m.cmd = cstr "save" then
    let ret ← saveFile now m.user m.md5 m.filename
    reply m ((saveFileStatus ret).toList.map .status)
  else reply m []

def sharefilesop (r : Request) (m : Sharefilesop) : Handler (Served Sharefilesop) :=
  match readCmd r m.cmd with
  | none => crash
  | some cmd =>
    withBody r { m with cmd } fun buf =>
      match (getInfo sharefilesopFields buf).written with
      | none => crash
      | some write => sharefilesopRun r.now (write { m with cmd })

/-! ### sharefiles -/

structure Sharefiles where
  cmd : CString
  start : ℤ
  count : ℤ
  deriving DecidableEq

def sharefilesFields : List (BodyField Sharefiles) :=
  [intField "start" fun n m => { m with start := n },
    intField "count" fun n m => { m with count := n }]

def sharefilesRun (m : Sharefiles) : Handler (Served Sharefiles) := do
  if m.cmd = cstr "normal" then
    match ← getShareFilelist m.start m.count with
    | none => reply m [.status .c015]
    | some rows => reply m [.shareFiles rows]
  else if m.cmd = cstr "pvdesc" then
    match ← getRankingFilelist m.start m.count with
    | none => reply m [.status .c015]
    | some items => reply m [.ranking items]
  else reply m []

def sharefiles (r : Request) (m : Sharefiles) : Handler (Served Sharefiles) :=
  match readCmd r m.cmd with
  | none => crash
  | some cmd =>
    if cmd = cstr "count" then do
      let line ← getShareFilesCount
      reply { m with cmd } [.number line]
    else
      withBody r { m with cmd } fun buf =>
        match (getInfo sharefilesFields buf).written with
        | none => crash
        | some write => sharefilesRun (write { m with cmd })

/-! ## Processes -/

inductive Program where
  | md5
  | files
  | filesop
  | sharefilesop
  | sharefiles

/-- What stays in a process from one request to the next. -/
def Program.Memory : Program → Type
  | .md5 => Unit
  | .files => Files
  | .filesop => Filesop
  | .sharefilesop => Sharefilesop
  | .sharefiles => Sharefiles

def Program.round : (p : Program) → Request → p.Memory → Handler (Served p.Memory)
  | .md5 => RequestLoops.md5
  | .files => RequestLoops.files
  | .filesop => RequestLoops.filesop
  | .sharefilesop => RequestLoops.sharefilesop
  | .sharefiles => RequestLoops.sharefiles

/-- One request of a history: the state it found and the outcomes of its commands. -/
structure Arrival where
  request : Request
  disk : Disk
  outcomes : ℕ → Outcome

/-- The memory of a process that has served a history of requests and lives. -/
def Program.after (p : Program) (memory : p.Memory) : List Arrival → Option p.Memory
  | [] => some memory
  | a :: history =>
    match ((p.round a.request memory).run Cmd.exec a.outcomes a.disk).1 with
    | .crashed => none
    | .served memory _ => p.after memory history

end RequestLoops
