import CloudDisk.DiskRefinement
import CloudDisk.JsonRoundTrips
import CloudDisk.PrintedReplies

/-! # The texts of the replies and the page that reads them

The page of one's own files takes the reply for JSON and shows the entries of `files`. -/
namespace ReplyTexts

open ByteStrings CheckedCode CommandPrograms RowTables DiskState DiskHandlers HandlerRules
  JsonBodies JsonTexts JsonGrammar JsonDocuments JsonPrinting JsonRoundTrips RequestLoops
  TokenChecks MyFilesPage LogMessages PrintedReplies SqlFormats ReferenceCounts DiskRefinement
  DiskCalls DiskTexts
open AbstractDisk (File)
open HmsetCommands (Allocations)

/-! ## The page -/

/-- What `JSON.parse` makes of a text. -/
inductive Js where
  | null
  | bool (b : Bool)
  | number (q : ℚ)
  | string (s : CString)
  | array (values : List Js)
  | object (members : List (CString × Js))

def js : Reading Js := ⟨.null, .bool, .number, .string, .array, .object⟩

/-- Of several members with one name the last counts. -/
def Js.get (name : String) : Js → Option Js
  | .object members => (members.reverse.find? fun m => m.1 = cstr name).map Prod.snd
  | _ => none

/-- A member that is not there shows as nothing. -/
def Js.shown (name : String) (v : Js) : CString :=
  match v.get name with
  | some (.string s) => s
  | _ => []

def Js.row (v : Js) : Row := ⟨v.shown "time", v.shown "filename", v.shown "md5", v.shown "url"⟩

/-- `this.tableData = res.data.files`; a table without data has no rows. -/
def tableData (data : Js) : List Row :=
  match data.get "files" with
  | some (.array rows) => rows.map Js.row
  | _ => []

/-- The data of the request that `refresh` posts to `/files`. -/
def refresh (s : Session) : List UInt8 := stringify [(cstr "user", s.user), (cstr "token", s.token)]

/-- Name and token fit the buffers of the files program. -/
structure Fits (s : Session) : Prop where
  user : FitsBuffer userNameLen s.user
  token : FitsBuffer tokenLen s.token

/-! ## Entries -/

section Entry
variable {r : UserFile} {f : FileInfo} {status pv size : Whole}

theorem row_joined : (value js (joinedItem r f status pv size)).row =
    ⟨untilNul r.createtime, untilNul r.filename, untilNul r.md5, untilNul f.url⟩ := by
  simp only [joinedItem, addStringToObject, value, valueMembers]
  rfl

theorem levels_joined : levels (joinedItem r f status pv size) = 1 := by
  simp [joinedItem, addStringToObject, levels, levelsMembers]

end Entry

section Lists
variable {items : List Item}

theorem levels_filesItem (h : ∀ i ∈ items, levels i = 1) :
    levels (filesItem items) ≤ nestingLimit := by
  have hitems : levelsItems items ≤ 1 := by
    induction items with
    | nil => simp [levelsItems]
    | cons i next ih =>
      obtain ⟨hi, hnext⟩ := List.forall_mem_cons.mp h
      rw [levelsItems, hi]
      exact Nat.max_le.mpr ⟨Nat.le_refl 1, ih hnext⟩
  simp only [filesItem, levels, levelsMembers, nestingLimit]
  omega

theorem valueItems_eq {V : Type} (R : Reading V) (items : List Item) :
    valueItems R items = items.map (value R) := by
  induction items with
  | nil => rw [valueItems, List.map_nil]
  | cons i next ih => rw [valueItems, ih, List.map_cons]

theorem tableData_filesItem (items : List Item) :
    tableData (value js (filesItem items)) = items.map fun i => (value js i).row := by
  have hget : (value js (filesItem items)).get "files" = some (.array (items.map (value js))) := by
    simp only [filesItem, value, valueMembers, valueItems_eq]
    rfl
  rw [tableData, hget]
  exact List.map_map

end Lists

/-! ## The request -/

section Round
variable {s : Session} {d : Disk} {time : CString} {r : Request}

theorem escape_length_le (s : CString) : (escape s).length ≤ 6 * s.length := by
  have hsum : (s.map escapeCharacters).sum ≤ (s.map escapeCharacters).length • 5 := by
    apply List.sum_le_card_nsmul _ 5
    intro n hn
    obtain ⟨b, -, rfl⟩ := List.mem_map.mp hn
    rw [escapeCharacters]
    split <;> [decide; split <;> decide]
  rw [List.length_map, nsmul_eq_mul, Nat.cast_id] at hsum
  rw [escape_length]
  omega

theorem pair_length (name name' text text' : CString) :
    (stringify [(name, text), (name', text')]).length ≤
      (escape name).length + (escape name').length + 6 * (text.length + text'.length) + 13 := by
  have htext := escape_length_le text
  have htext' := escape_length_le text'
  simp only [stringify, membersText, memberText, List.length_cons, List.length_append,
    stringText_length, List.length_nil]
  omega

theorem getInfo_pair {M : Type} {name name' : String} {n n' : ℕ} {set set' : CString → M → M}
    {text text' : CString} (h : FitsBuffer n text) (h' : FitsBuffer n' text')
    (hget : ∀ v v', getObjectItem (.object [(untilNul (cstr name), v),
        (untilNul (cstr name'), v')]) (cstr name) = some v ∧
      getObjectItem (.object [(untilNul (cstr name), v), (untilNul (cstr name'), v')])
        (cstr name') = some v') :
    (getInfo [stringField name n set, stringField name' n' set']
      (stringify [(cstr name, text), (cstr name', text')])).written =
      some fun m => set' text' (set text m) := by
  obtain ⟨hfirst, hsecond⟩ := hget (.string text) (.string text')
  simp only [getInfo, cJsonParse_stringify, List.map_cons, List.map_nil, readMember,
    untilNul_of_notMem h.2, untilNul_of_notMem h'.2, copyFields, stringField, hfirst, hsecond, h.1,
    h'.1, if_true]
  rfl

theorem refresh_length (hs : Fits s) : (refresh s).length + 7 < mesgSize := by
  have hlength := pair_length (cstr "user") (cstr "token") s.user s.token
  have huser := hs.user.1
  have htoken := hs.token.1
  have hnames : (escape (cstr "user")).length = 4 ∧ (escape (cstr "token")).length = 5 := by decide
  rw [hnames.1, hnames.2] at hlength
  rw [userNameLen] at huser
  rw [tokenLen] at htoken
  rw [refresh, mesgSize]
  omega

theorem getInfo_refresh (hs : Fits s) : (getInfo filesFields (refresh s)).written =
    some fun _ => ⟨s.user, s.token⟩ :=
  getInfo_pair hs.user hs.token fun _ _ => ⟨rfl, rfl⟩

theorem read_refresh (hs : Fits s) (hr : passedOn time (refresh s) = some r) :
    r.read = .text (refresh s) := by
  have hlength := refresh_length hs
  rw [read_passedOn hr (by simp [refresh, stringify]) (stringify_visible _), if_neg]
  exact not_le.mpr hlength

theorem all_files (hs : Fits s) (ht : Tame [s.user]) (hr : passedOn time (refresh s) = some r)
    (m : Files) : (files r m).All AsMeant := by
  have hverify : (verifyToken s.user s.token).All AsMeant := all_verifyToken meant_wiring trivial
  rw [files, withBody, read_refresh hs hr]
  dsimp only
  rw [getInfo_refresh hs]
  refine all_bind hverify fun _ => all_bind (all_getUserFilesCount ht) fun _ => ?_
  refine all_bind hverify fun _ => all_ite trivial ?_
  apply all_bind (all_getUserFilelist ht)
  intro o
  cases o <;> trivial

theorem files_refresh (hs : Fits s) (hv : Verified d s.user s.token)
    (hr : passedOn time (refresh s) = some r) (m : Files) :
    Spec Cmd.exec NoFail (files r m) d fun served _ => ∃ rows : List (List Cell),
      (rows : Multiset (List Cell)) = joinFileInfo
        (rowsWhere (fun r : UserFile => r.user = s.user) d.userFileList) UserFile.md5
        (fun r => [.str r.user, .str r.md5, .str r.createtime, .str r.filename,
          .int r.sharedStatus, .int r.pv]) d.fileInfo ∧
      served = .served ⟨s.user, s.token⟩
        [.header, if rows = [] then .status .c015 else .userFiles rows] := by
  have hread := read_refresh hs hr
  have hno : ∀ {P : Prop}, NoFail .fail ∨ ¬ Verified d s.user s.token → P := fun h =>
    h.elim (fun hf => hf.elim) fun hn => absurd hv hn
  rw [files, withBody, hread]
  dsimp only
  rw [getInfo_refresh hs]
  refine spec_verifyToken (fun _ => ?_) hno
  apply spec_filesCount
  intro _
  refine spec_verifyToken (fun _ => ?_) hno
  apply spec_getUserFilelist
  intro rows hrows
  by_cases hnil : rows = []
  · rw [if_pos hnil]
    exact spec_ret ⟨rows, hrows, by rw [if_pos hnil]⟩
  · rw [if_neg hnil]
    exact spec_ret ⟨rows, hrows, by rw [if_neg hnil]⟩

end Round

/-! ## What the page shows -/

/-- The texts of a user's rows are C strings, and their numbers are printed in full. -/
structure Presentable (user : CString) (d : Disk) : Prop where
  md5 : ∀ r ∈ d.userFileList, r.user = user → 0 ∉ r.md5
  filename : ∀ r ∈ d.userFileList, r.user = user → 0 ∉ r.filename
  status : ∀ r ∈ d.userFileList, r.user = user → r.sharedStatus.natAbs < 10 ^ 15
  pv : ∀ r ∈ d.userFileList, r.user = user → r.pv.natAbs < 10 ^ 15
  size : ∀ f ∈ d.fileInfo, f.size.natAbs < 10 ^ 15

/-- The page that reads this text shows these files, each in one row. -/
structure Shows (files : Finset File) (text : CString) : Prop where
  document : ∃ data, Document js numberBytes nestingLimit data text ∧
    (((tableData data).map fun row => (row.md5, row.filename) : List (CString × CString)) :
      Multiset (CString × CString)) = files.val.map fun e => (e.md5, e.filename)
  long : 178 * files.card + 14 ≤ text.length

section Page
variable {base : Finset CString} {d : Disk} {a : AbstractDisk.Disk} {user : CString}

theorem shows_nothing : Shows ∅ ((statusItem .c015).text true 0) := by
  exact ⟨⟨_, document_text js true (by decide), rfl⟩, by decide⟩

structure Entry (r : UserFile) (i : Item) : Prop where
  flat : levels i = 1
  shown : ((value js i).row.md5, (value js i).row.filename) = (r.md5, r.filename)
  long : 176 ≤ (i.text true 2).length

theorem entry_joined (h : Represents base d a) (hd : Presentable user d) {r : UserFile}
    (hr : r ∈ rowsWhere (ownedBy user) d.userFileList) {f : FileInfo} (hf : f ∈ d.fileInfo) :
    ∃ i, userFileItem (joinedRow r f) = some i ∧ Entry r i := by
  obtain ⟨hmem, huser⟩ := mem_rowsWhere.mp hr
  have huser : r.user = user := by simpa [ownedBy] using huser
  have hmd5 := untilNul_of_notMem (hd.md5 r hmem huser)
  have hname := untilNul_of_notMem (hd.filename r hmem huser)
  have hsum : r.md5.length = 32 :=
    h.sums (userEntry r) ((mem_files h.files).mpr ⟨r, hmem, by simp [UserFile.isRow]⟩)
  refine ⟨joinedItem r f ⟨_, hd.status r hmem huser⟩ ⟨_, hd.pv r hmem huser⟩ ⟨_, hd.size f hf⟩,
    userFileItem_joined rfl rfl rfl, levels_joined, ?_, ?_⟩
  · rw [row_joined, hmd5, hname]
  · refine Nat.le_trans ?_ (length_joined _ _ _ _ _)
    rw [hmd5, hsum]

theorem shows_rows (h : Represents base d a) (hd : Presentable user d)
    {rows : List (List Cell)}
    (hrows : (rows : Multiset (List Cell)) = joinFileInfo
      (rowsWhere (fun r : UserFile => r.user = user) d.userFileList) UserFile.md5
      (fun r => [.str r.user, .str r.md5, .str r.createtime, .str r.filename,
        .int r.sharedStatus, .int r.pv]) d.fileInfo) :
    ∃ items, rows.mapM userFileItem = some items ∧
      Shows (a.ownedBy user) ((filesItem items).text true 0) := by
  obtain ⟨f, hf, hjoin⟩ := h.joined user
  have hlength := h.length_rows hrows
  rw [hjoin] at hrows
  have hentry : ∀ row ∈ rows, ∃ r i, userFileItem row = some i ∧ Entry r i := by
    intro row hrow
    have hmem : row ∈ (rows : Multiset (List Cell)) := hrow
    rw [hrows] at hmem
    obtain ⟨r, hr, rfl⟩ := Multiset.mem_map.mp hmem
    exact ⟨r, entry_joined h hd hr (hf r hr)⟩
  have hitem : ∀ i ∈ rows.map fun row => (userFileItem row).getD Item.null, ∃ r, Entry r i := by
    intro i hi
    obtain ⟨row, hrow, rfl⟩ := List.mem_map.mp hi
    obtain ⟨r, i, hsome, hr⟩ := hentry row hrow
    exact ⟨r, by rwa [hsome]⟩
  refine ⟨rows.map fun row => (userFileItem row).getD Item.null,
    mapM_getD Item.null fun row hrow => ?_,
    ⟨⟨_, document_text js true (levels_filesItem ?_), ?_⟩, ?_⟩⟩
  · obtain ⟨r, i, hsome, -⟩ := hentry row hrow
    simp [hsome]
  · intro i hi
    obtain ⟨r, hr⟩ := hitem i hi
    exact hr.flat
  · rw [tableData_filesItem, List.map_map, List.map_map, ← Multiset.map_coe, hrows,
      Multiset.map_map, ← h.owned_files, Multiset.map_map]
    apply Multiset.map_congr rfl
    intro r hr
    obtain ⟨i, hsome, hr'⟩ := entry_joined h hd hr (hf r hr)
    simp only [Function.comp_apply, hsome, Option.getD_some]
    exact hr'.shown
  · have hlong := le_filesText_length fun i hi => (hitem i hi).elim fun _ hr => hr.long
    rwa [List.length_map, hlength] at hlong

variable {s : Session} {time : CString} {r : Request} {memory : Allocations} {now : Tm}
  {e : ℕ → Outcome}

theorem files_replies (h : Represents base d a) (hs : Fits s) (hd : Presentable s.user d)
    (hv : Verified d s.user s.token) (hr : passedOn time (refresh s) = some r) (m : Files)
    (he : ∀ i, NoFail (e i)) (hmem : ∀ i, memory i ≠ none) :
    ∃ out send text, ((files r m).run Cmd.exec e d).1 =
        .served ⟨s.user, s.token⟩ [.header, out] ∧
      printed memory now out = some send ∧ Shows (a.ownedBy s.user) text ∧
      ∀ Q, Returns send Q ↔ (a.ownedBy s.user ≠ ∅ → text.length + 1 < mesgSize) ∧ Q text := by
  obtain ⟨rows, hrows, hserved⟩ := files_refresh hs hv hr m e he
  obtain ⟨items, hitems, hshows⟩ := shows_rows h hd hrows
  have hempty : rows = [] ↔ a.ownedBy s.user = ∅ := by
    rw [← List.length_eq_zero_iff, h.length_rows hrows, Finset.card_eq_zero]
  by_cases hnil : rows = []
  · rw [if_pos hnil] at hserved
    refine ⟨_, _, (statusItem .c015).text true 0, hserved, rfl, ?_, fun Q => ?_⟩
    · rw [hempty.mp hnil]
      exact shows_nothing
    · rw [returns_returnStatus hmem]
      exact ⟨fun hQ => ⟨fun hne => absurd (hempty.mp hnil) hne, hQ⟩, And.right⟩
  · rw [if_neg hnil] at hserved
    refine ⟨_, _, (filesItem items).text true 0, hserved, by rw [printed, hitems]; rfl, hshows,
      fun Q => ?_⟩
    rw [returns_sendFiles hmem]
    exact and_congr_left fun _ => ⟨fun hlt _ => hlt,
      fun hlt => hlt fun hno => hnil (hempty.mpr hno)⟩

/-- Opening the page of one's own files shows exactly the files that the user has, unless the text
of the list is too long for the log; then the program fails. -/
theorem refresh_shows {server : Server} (hserver : Faithful server) (h : Represents base d a)
    (hs : Fits s) (ht : Tame [s.user]) (hd : Presentable s.user d)
    (hv : Verified d s.user s.token) (hr : passedOn time (refresh s) = some r) (m : Files)
    (he : ∀ i, NoFail (e i)) (hmem : ∀ i, memory i ≠ none) :
    ∃ out send, ((files r m).run server e d).1 = .served ⟨s.user, s.token⟩ [.header, out] ∧
      printed memory now out = some send ∧
      (Returns send (Shows (a.ownedBy s.user)) ∨ ∃ text, Shows (a.ownedBy s.user) text ∧
        mesgSize ≤ text.length + 1 ∧ ¬ Returns send fun _ => True) := by
  obtain ⟨out, send, text, hserved, hprinted, hshows, hsent⟩ :=
    @files_replies _ _ _ _ _ _ _ now _ h hs hd hv hr m he hmem
  rw [run_faithful hserver (all_files hs ht hr m)]
  refine ⟨out, send, hserved, hprinted, ?_⟩
  by_cases hroom : a.ownedBy s.user ≠ ∅ → text.length + 1 < mesgSize
  · exact .inl ((hsent _).mpr ⟨hroom, hshows⟩)
  · obtain ⟨-, hlong⟩ := Classical.not_imp.mp hroom
    exact .inr ⟨text, hshows, Nat.le_of_not_lt hlong, fun hreturns =>
      hroom ((hsent _).mp hreturns).1⟩

/-- Whoever has 23 files or more can never be shown them. -/
theorem long_lists_fail (h : Represents base d a) (hs : Fits s) (hd : Presentable s.user d)
    (hv : Verified d s.user s.token) (hr : passedOn time (refresh s) = some r) (m : Files)
    (he : ∀ i, NoFail (e i)) (hmem : ∀ i, memory i ≠ none)
    (hmany : 23 ≤ (a.ownedBy s.user).card) :
    ∃ out send, ((files r m).run Cmd.exec e d).1 = .served ⟨s.user, s.token⟩ [.header, out] ∧
      printed memory now out = some send ∧ ¬ Returns send fun _ => True := by
  obtain ⟨out, send, text, hserved, hprinted, hshows, hsent⟩ :=
    @files_replies _ _ _ _ _ _ _ now _ h hs hd hv hr m he hmem
  refine ⟨out, send, hserved, hprinted, fun hreturns => ?_⟩
  have hlong := hshows.long
  have hroom : text.length + 1 < mesgSize := ((hsent _).mp hreturns).1 fun hempty => by
    rw [hempty] at hmany
    exact absurd hmany (by decide)
  rw [mesgSize] at hroom
  omega

/-- A user who is logged in and puts one content under so many names. -/
def loggedIn : Disk :=
  { emptyDisk with redis := Function.update emptyDisk.redis [97] (some (.string [116])) }

def names (n : ℕ) : List (Call × (ℕ → Outcome)) :=
  (Call.upload [] [97] someMd5 [102] 1 [111] [] :: (List.range n).map fun k =>
    .dealMd5 [] [97] someMd5 [UInt8.ofNat (k + 1)]).map fun c => (c, fun _ => .ok 0)

def shelf (n : ℕ) : Disk := (CallSequences.runCalls Cmd.exec service (names n) loggedIn).2

def shelfFiles (n : ℕ) : AbstractDisk.Disk :=
  (CallSequences.runAbstract DiskRefinement.step ((names n).map Prod.fst) AbstractDisk.Disk.empty).2

theorem adds_allowed (calls : List (Call × (ℕ → Outcome)))
    (h : ∀ c ∈ calls, ∃ name, c.1 = .dealMd5 [] [97] someMd5 name) :
    ∀ {d : Disk} {a : AbstractDisk.Disk},
      CallSequences.Admitted Cmd.exec service DiskRefinement.step Allowed calls d a := by
  induction calls with
  | nil => exact trivial
  | cons c calls ih =>
    intro d a
    obtain ⟨⟨name, hname⟩, hcalls⟩ := List.forall_mem_cons.mp h
    obtain ⟨call, e⟩ := c
    obtain rfl : call = .dealMd5 [] [97] someMd5 name := hname
    exact ⟨⟨by decide, by decide⟩, ih hcalls⟩

theorem represents_shelf (n : ℕ) : Represents ∅ (shelf n) (shelfFiles n) := by
  refine (calls_refine (d := loggedIn) ⟨rfl, rfl, rfl, rfl⟩ rfl rfl (names n) ?_ ?_).2
  · intro c hc i
    obtain ⟨k, -, rfl⟩ := List.mem_map.mp hc
    exact Outcome.noConfusion
  · refine ⟨⟨by decide, by decide, by decide, by decide⟩, adds_allowed _ fun c hc => ?_⟩
    obtain ⟨call, hcall, rfl⟩ := List.mem_map.mp hc
    obtain ⟨k, -, rfl⟩ := List.mem_map.mp hcall
    exact ⟨_, rfl⟩

theorem ownSession_fits : Fits ownSession := ⟨⟨by decide, by decide⟩, by decide, by decide⟩

theorem okAlways : NoFail (.ok 0) := Outcome.noConfusion

theorem ownSession_passed : ∃ r, passedOn [] (refresh ownSession) = some r := by
  refine ⟨_, if_pos ?_⟩
  have hlength := refresh_length ownSession_fits
  rw [mesgSize] at hlength
  omega

/-- One file is shown. -/
theorem refresh_shows_shelf : ∃ r out send, passedOn [] (refresh ownSession) = some r ∧
    ((files r ⟨[], []⟩).run Cmd.exec (fun _ => .ok 0) (shelf 0)).1 =
      .served ⟨[97], [116]⟩ [.header, out] ∧
    printed (fun _ => some fun _ => 0) ⟨2026, 2, 28, 23, 59, 59⟩ out = some send ∧
    (Returns send (Shows ((shelfFiles 0).ownedBy [97])) ∨
      ∃ text, Shows ((shelfFiles 0).ownedBy [97]) text ∧ mesgSize ≤ text.length + 1 ∧
        ¬ Returns send fun _ => True) := by
  have hpresentable : Presentable [97] (shelf 0) := by
    constructor <;> decide +kernel
  have hverified : Verified (shelf 0) ownSession.user ownSession.token := ⟨[116], rfl, rfl⟩
  obtain ⟨r, hr⟩ := ownSession_passed
  obtain ⟨out, send, hserved, hprinted, hshown⟩ := refresh_shows faithful_exec (represents_shelf 0)
    ownSession_fits (by decide) hpresentable hverified hr ⟨[], []⟩ (fun _ => okAlways)
    (fun _ => Option.some_ne_none _)
  exact ⟨r, out, send, hr, hserved, hprinted, hshown⟩

set_option maxRecDepth 4000 in
/-- With 23 files the program fails. -/
theorem long_lists_fail_shelf : ∃ r out send, passedOn [] (refresh ownSession) = some r ∧
    ((files r ⟨[], []⟩).run Cmd.exec (fun _ => .ok 0) (shelf 22)).1 =
      .served ⟨[97], [116]⟩ [.header, out] ∧
    printed (fun _ => some fun _ => 0) ⟨2026, 2, 28, 23, 59, 59⟩ out = some send ∧
    ¬ Returns send fun _ => True := by
  have hpresentable : Presentable [97] (shelf 22) := by
    constructor <;> decide +kernel
  have hverified : Verified (shelf 22) ownSession.user ownSession.token := ⟨[116], rfl, rfl⟩
  have hmany : 23 ≤ ((shelfFiles 22).ownedBy [97]).card := by decide +kernel
  obtain ⟨r, hr⟩ := ownSession_passed
  obtain ⟨out, send, hserved, hprinted, hfails⟩ := long_lists_fail (represents_shelf 22)
    ownSession_fits hpresentable hverified hr ⟨[], []⟩ (fun _ => okAlways)
    (fun _ => Option.some_ne_none _) hmany
  exact ⟨r, out, send, hr, hserved, hprinted, hfails⟩

end Page

end ReplyTexts
