import CloudDisk.JsonPrinting
import CloudDisk.LogMessages
import CloudDisk.RequestLoops
import CloudDisk.SqlTemplates
import Mathlib.Algebra.Order.BigOperators.Group.List

/-! # The replies as they are printed

The programs build their replies as items and print them with `cJSON_Print`. The text of a list is
logged before it is sent, through the buffer of `dumpmsg_to_file`, which bounds the lists that can
be sent at all. -/
namespace PrintedReplies

open ByteStrings CheckedCode DiskState DiskHandlers JsonBodies JsonTexts JsonPrinting RequestLoops
  LogMessages SqlFormats
open HmsetCommands (Allocations)

/-! ## Items -/

def cText (s : CString) : JsonPrinting.Text := ⟨untilNul s, untilNul_notMem s⟩

def columnText : Cell → CString
  | .int n => intText n
  | .str s => s

def addStringToObject (name : String) (value : CString) : JsonPrinting.Text × Item :=
  (cText (cstr name), .string (cText value))

/-- Nothing for a number that is not printed in full. -/
def addNumberToObject (name : String) (n : ℤ) : Option (JsonPrinting.Text × Item) :=
  if h : n.natAbs < 10 ^ 15 then some (cText (cstr name), .number ⟨n, h⟩) else none

def userFileItem : List Cell → Option Item
  | [user, md5, time, filename, status, pv, url, size, type] => do
    let status ← addNumberToObject "share_status" status.atoi
    let pv ← addNumberToObject "pv" pv.atoi
    let size ← addNumberToObject "size" size.atoi
    return .object [addStringToObject "user" (columnText user),
      addStringToObject "md5" (columnText md5), addStringToObject "time" (columnText time),
      addStringToObject "filename" (columnText filename), status, pv,
      addStringToObject "url" (columnText url), size, addStringToObject "type" (columnText type)]
  | _ => none

def shareFileItem : List Cell → Option Item
  | [user, md5, time, filename, pv, url, size, type] => do
    let status ← addNumberToObject "share_status" 1
    let pv ← addNumberToObject "pv" pv.atoi
    let size ← addNumberToObject "size" size.atoi
    return .object [addStringToObject "user" (columnText user),
      addStringToObject "md5" (columnText md5), addStringToObject "time" (columnText time),
      addStringToObject "filename" (columnText filename), status, pv,
      addStringToObject "url" (columnText url), size, addStringToObject "type" (columnText type)]
  | _ => none

def rankingItem (entry : CString × ℤ) : Option Item := do
  let pv ← addNumberToObject "pv" entry.2
  return .object [addStringToObject "filename" entry.1, pv]

def filesItem (items : List Item) : Item := .object [(cText (cstr "files"), .array items)]

def statusCode : Status → CString
  | .c004 => cstr "004"
  | .c005 => cstr "005"
  | .c006 => cstr "006"
  | .c010 => cstr "010"
  | .c011 => cstr "011"
  | .c012 => cstr "012"
  | .c013 => cstr "013"
  | .c014 => cstr "014"
  | .c015 => cstr "015"
  | .c016 => cstr "016"
  | .c017 => cstr "017"
  | .c018 => cstr "018"
  | .c019 => cstr "019"
  | .c020 => cstr "020"
  | .c021 => cstr "021"
  | .c022 => cstr "022"
  | .c111 => cstr "111"

def statusItem (s : Status) : Item := .object [addStringToObject "code" (statusCode s)]

/-! ## Texts -/

/-- `cJSON_Print` and `printf(out)`: the text is the format. Without memory nothing is printed. -/
def printItem (memory : Allocations) (item : Item) : Checked CString := do
  match ← (cJsonPrint memory item).run with
  | none => return []
  | some out =>
    let out ← out.2.text
    return sprintf (units out) []

def returnStatus (memory : Allocations) (s : Status) : Checked CString :=
  printItem memory (statusItem s)

/-- The end of `get_user_filelist`, `get_share_filelist` and `get_ranking_filelist`: the list is
printed, logged with `LOG(.., "%s\n", out)` and sent with `printf("%s", out)`. -/
def sendFiles (memory : Allocations) (now : Tm) (filename : CString) (line : ℕ)
    (items : List Item) : Checked CString := do
  match ← (cJsonPrint memory (filesItem items)).run with
  | none => throw .nullPointer
  | some out =>
    let out ← out.2.text
    let _ ← formatMessage now filename line (cstr "%s\n") [.str out]
    return out

/-- What the programs write to the client; nothing where a number is not printed in full. -/
def printed (memory : Allocations) (now : Tm) : Printed → Option (Checked CString)
  | .header => some (pure (cstr "Content-type: text/html\r\n\r\n"))
  | .noData => some (pure (cstr "No data from standard input.<p>\n"))
  | .status s => some (returnStatus memory s)
  | .number n => some (pure (intText n))
  | .userFiles rows =>
    (rows.mapM userFileItem).map (sendFiles memory now (cstr "src/cgi/cgi_files.c") 349)
  | .shareFiles rows =>
    (rows.mapM shareFileItem).map (sendFiles memory now (cstr "src/cgi/cgi_sharefiles.c") 237)
  | .ranking items =>
    (items.mapM rankingItem).map (sendFiles memory now (cstr "src/cgi/cgi_sharefiles.c") 434)

section Texts
variable {memory : Allocations} {now : Tm}

theorem print_granted (hmem : ∀ i, memory i ≠ none) (item : Item) :
    (∃ b, (cJsonPrint memory item).run = .ok (some b) ∧ b.2.text = .ok (item.text true 0)) ∨
      ((cJsonPrint memory item).run = .ok none ∧ intMax < (item.text true 0).length + 2) := by
  obtain ⟨o, hrun, hgives⟩ := print_spec memory item true
  cases o with
  | none =>
    rcases hgives with ⟨i, hi⟩ | hlong
    · exact absurd hi (hmem i)
    · exact .inr ⟨hrun, hlong⟩
  | some b =>
    refine .inl ⟨b, hrun, ?_⟩
    rw [ByteBuffers.Buffer.text_eq hgives, untilNul_of_notMem (text_plain true 0 item)]
    rfl

/-- A list is sent exactly when the log has room for its text, the end of the line and the NUL. -/
theorem returns_sendFiles (hmem : ∀ i, memory i ≠ none) {filename : CString} {line : ℕ}
    {items : List Item} {Q : CString → Prop} :
    Returns (sendFiles memory now filename line items) Q ↔
      ((filesItem items).text true 0).length + 1 < mesgSize ∧
        Q ((filesItem items).text true 0) := by
  rw [sendFiles, returns_bind]
  rcases print_granted hmem (filesItem items) with ⟨b, hrun, htext⟩ | ⟨hrun, hlong⟩
  · have hfmt : sprintf (units (cstr "%s\n")) [.str ((filesItem items).text true 0)] =
        (filesItem items).text true 0 ++ [10] := by
      have hunits : units (cstr "%s\n") = [.conv .str, .byte 10] :=
        SqlTemplates.eval_format units _ rfl
      rw [hunits]
      rfl
    rw [hrun, returns_ok, returns_bind, htext, returns_ok, returns_bind, formatMessage_spec, hfmt,
      returns_pure, List.length_append, List.length_singleton]
  · have hmesg : mesgSize < intMax := by decide
    rw [hrun, returns_ok]
    exact ⟨fun h => absurd h returns_throw, fun h => by omega⟩

theorem sprintf_plain {text : CString} (h : 37 ∉ text) : sprintf (units text) [] = text := by
  induction text with
  | nil => rfl
  | cons b text ih =>
    rw [List.mem_cons, not_or] at h
    obtain ⟨hb, htext⟩ := h
    have hunits : units (b :: text) = .byte b :: units text := by
      rw [units] <;> exact fun _ h37 _ => hb h37.symm
    rw [hunits, sprintf, ih htext]

theorem returns_printItem (hmem : ∀ i, memory i ≠ none) {item : Item} {Q : CString → Prop}
    (hplain : 37 ∉ item.text true 0) (hshort : (item.text true 0).length + 2 ≤ intMax) :
    Returns (printItem memory item) Q ↔ Q (item.text true 0) := by
  rw [printItem, returns_bind]
  rcases print_granted hmem item with ⟨b, hrun, htext⟩ | ⟨-, hlong⟩
  · rw [hrun, returns_ok, returns_bind, htext, returns_ok, returns_pure, sprintf_plain hplain]
  · omega

theorem returns_returnStatus (hmem : ∀ i, memory i ≠ none) {status : Status} {Q : CString → Prop} :
    Returns (returnStatus memory status) Q ↔ Q ((statusItem status).text true 0) :=
  returns_printItem hmem (by cases status <;> decide) (by cases status <;> decide)

end Texts

/-! ## Lists that are sent -/

def filesText (items : List Item) : CString := (filesItem items).text true 0

/-- The text of a reply, where its numbers are printed in full. -/
def replyText : Printed → Option CString
  | .header => some (cstr "Content-type: text/html\r\n\r\n")
  | .noData => some (cstr "No data from standard input.<p>\n")
  | .status s => some ((statusItem s).text true 0)
  | .number n => some (intText n)
  | .userFiles rows => (rows.mapM userFileItem).map filesText
  | .shareFiles rows => (rows.mapM shareFileItem).map filesText
  | .ranking items => (items.mapM rankingItem).map filesText

/-- The client gets the text of this reply. -/
def Sent (memory : Allocations) (now : Tm) (out : Printed) : Prop :=
  ∃ send text, printed memory now out = some send ∧ replyText out = some text ∧
    Returns send (· = text)

/-- The log has room for the text, the end of the line and the NUL. -/
def FitsLog (out : Printed) : Prop := ∀ text, replyText out = some text → text.length + 1 < mesgSize

theorem fitsLog_of_text {out : Printed} {text : CString} (htext : replyText out = some text)
    (h : text.length + 1 < mesgSize) : FitsLog out := by
  intro text' htext'
  obtain rfl : text = text' := Option.some.inj (htext.symm.trans htext')
  exact h

def filesReply {α : Type} (files : α → Printed) : Option α → Printed
  | none => .status .c015
  | some list => files list

section Sending
variable {memory : Allocations} {now : Tm}

theorem sent_status (hmem : ∀ i, memory i ≠ none) (s : Status) : Sent memory now (.status s) :=
  ⟨_, _, rfl, rfl, (returns_returnStatus hmem).mpr rfl⟩

theorem sent_files_iff (hmem : ∀ i, memory i ≠ none) {out : Printed} {filename : CString} {line : ℕ}
    {items : List Item} (hprinted : printed memory now out =
      some (sendFiles memory now filename line items))
    (htext : replyText out = some (filesText items)) :
    Sent memory now out ↔ FitsLog out := by
  constructor
  · rintro ⟨send, text, hsend, -, hreturns⟩ text' htext'
    obtain rfl : filesText items = text' := Option.some.inj (htext.symm.trans htext')
    obtain rfl := Option.some.inj (hprinted.symm.trans hsend)
    exact ((returns_sendFiles hmem).mp hreturns).1
  · intro hfits
    exact ⟨_, _, hprinted, htext, (returns_sendFiles hmem).mpr ⟨hfits _ htext, rfl⟩⟩

theorem mapM_getD {α β : Type} {f : α → Option β} {l : List α} (b : β)
    (h : ∀ a ∈ l, (f a).isSome) : l.mapM f = some (l.map fun a => (f a).getD b) := by
  induction l with
  | nil => rfl
  | cons a l ih =>
    obtain ⟨ha, hl⟩ := List.forall_mem_cons.mp h
    obtain ⟨x, hx⟩ := Option.isSome_iff_exists.mp ha
    simp [List.mapM_cons, ih hl, hx]

theorem addNumber_isSome (name : String) {n : ℤ} (h : n.natAbs < 10 ^ 15) :
    (addNumberToObject name n).isSome := by
  rw [addNumberToObject, dif_pos h]
  rfl

theorem sent_ranking_iff (hmem : ∀ i, memory i ≠ none) {items : List (CString × ℤ)}
    (hpv : ∀ i ∈ items, i.2.natAbs < 10 ^ 15) :
    Sent memory now (.ranking items) ↔ FitsLog (.ranking items) := by
  have hitems : items.mapM rankingItem = some (items.map fun i => (rankingItem i).getD .null) := by
    apply mapM_getD Item.null
    intro i hi
    obtain ⟨pv, hsome⟩ := Option.isSome_iff_exists.mp (addNumber_isSome "pv" (hpv i hi))
    simp [rankingItem, hsome]
  have hprinted : printed memory now (.ranking items) =
      some (sendFiles memory now (cstr "src/cgi/cgi_sharefiles.c") 434
        (items.map fun i => (rankingItem i).getD .null)) := by
    rw [printed, hitems]
    rfl
  apply sent_files_iff hmem hprinted
  rw [replyText, hitems]
  rfl

theorem sent_userFiles_iff (hmem : ∀ i, memory i ≠ none) {rows : List (List Cell)}
    (hrows : ∀ row ∈ rows, (userFileItem row).isSome) :
    Sent memory now (.userFiles rows) ↔ FitsLog (.userFiles rows) := by
  have hitems := mapM_getD Item.null hrows
  have hprinted : printed memory now (.userFiles rows) =
      some (sendFiles memory now (cstr "src/cgi/cgi_files.c") 349
        (rows.map fun row => (userFileItem row).getD .null)) := by
    rw [printed, hitems]
    rfl
  apply sent_files_iff hmem hprinted
  rw [replyText, hitems]
  rfl

end Sending

/-! ## The length of a list -/

section Lengths
variable {items : List Item}

/-- The length of the text of a list that is not empty; the order of the entries is immaterial. -/
def listLength (items : List Item) : ℕ :=
  (items.map fun i => (i.text true 2).length + 2).sum + 14

theorem length_elements (h : items ≠ []) : (elementsText true 2 items).length + 2 =
    (items.map fun i => (i.text true 2).length + 2).sum := by
  induction items with
  | nil => exact absurd rfl h
  | cons i next ih =>
    rw [elementsText, List.map_cons, List.sum_cons]
    cases next with
    | nil => simp
    | cons j next =>
      rw [← ih (List.cons_ne_nil j next)]
      simp only [List.isEmpty_cons, Bool.false_eq_true, if_false, List.length_cons,
        List.length_append, whenFormat, if_true, List.length_nil]
      omega

theorem length_filesText (items : List Item) :
    (filesText items).length = (elementsText true 2 items).length + 16 := by
  have hname : (escape (untilNul (cstr "files"))).length = 5 := by decide
  simp only [filesText, filesItem, Item.text, objectText, whenFormat, if_true, cText,
    List.length_cons, List.length_append, List.length_replicate, stringText_length, hname,
    List.isEmpty_nil, List.length_nil, Nat.zero_add, Nat.reduceAdd]
  omega

theorem filesText_length (h : items ≠ []) : (filesText items).length = listLength items := by
  have helements := length_elements h
  rw [length_filesText, listLength]
  omega

theorem le_listLength {n : ℕ} (h : ∀ i ∈ items, n ≤ (i.text true 2).length) :
    (n + 2) * items.length + 14 ≤ listLength items := by
  have hsum := List.card_nsmul_le_sum (items.map fun i => (i.text true 2).length + 2) (n + 2) <| by
    intro m hm
    obtain ⟨i, hi, rfl⟩ := List.mem_map.mp hm
    exact Nat.add_le_add_right (h i hi) 2
  rw [List.length_map, nsmul_eq_mul, Nat.cast_id, Nat.mul_comm] at hsum
  exact Nat.add_le_add_right hsum 14

theorem le_filesText_length {n : ℕ} (h : ∀ i ∈ items, n ≤ (i.text true 2).length) :
    (n + 2) * items.length + 14 ≤ (filesText items).length := by
  cases items with
  | nil =>
    rw [length_filesText]
    simp
  | cons i next =>
    rw [filesText_length (List.cons_ne_nil i next)]
    exact le_listLength h

end Lengths

/-! ## Entries of the list of a user's files -/

/-- The rows of the join, from a row of `user_file_list` and one of `file_info`. -/
def joinedRow (r : UserFile) (f : FileInfo) : List Cell :=
  [.str r.user, .str r.md5, .str r.createtime, .str r.filename, .int r.sharedStatus, .int r.pv,
    .str f.url, .int f.size, .str f.type]

def joinedItem (r : UserFile) (f : FileInfo) (status pv size : Whole) : Item :=
  .object [addStringToObject "user" r.user, addStringToObject "md5" r.md5,
    addStringToObject "time" r.createtime, addStringToObject "filename" r.filename,
    (cText (cstr "share_status"), .number status), (cText (cstr "pv"), .number pv),
    addStringToObject "url" f.url, (cText (cstr "size"), .number size),
    addStringToObject "type" f.type]

section Entry
variable {r : UserFile} {f : FileInfo} {status pv size : Whole}

theorem addNumber_whole (name : String) (n : Whole) :
    addNumberToObject name n.value = some (cText (cstr name), .number n) := dif_pos n.below

theorem userFileItem_joined (hstatus : r.sharedStatus = status.value) (hpv : r.pv = pv.value)
    (hsize : f.size = size.value) :
    userFileItem (joinedRow r f) = some (joinedItem r f status pv size) := by
  simp only [joinedRow, userFileItem, Cell.atoi, hstatus, hpv, hsize, addNumber_whole]
  rfl

theorem intText_length_pos (n : ℤ) : 1 ≤ (intText n).length := by
  have hne := natText_ne_nil n.natAbs
  rw [intText]
  split
  · simp
  · exact List.length_pos_iff.mpr hne

theorem length_joined (r : UserFile) (f : FileInfo) (status pv size : Whole) :
    144 + (untilNul r.md5).length ≤ ((joinedItem r f status pv size).text true 2).length := by
  have hnames : (escape (untilNul (cstr "user"))).length = 4 ∧
      (escape (untilNul (cstr "md5"))).length = 3 ∧ (escape (untilNul (cstr "time"))).length = 4 ∧
      (escape (untilNul (cstr "filename"))).length = 8 ∧
      (escape (untilNul (cstr "share_status"))).length = 12 ∧
      (escape (untilNul (cstr "pv"))).length = 2 ∧ (escape (untilNul (cstr "url"))).length = 3 ∧
      (escape (untilNul (cstr "size"))).length = 4 ∧
      (escape (untilNul (cstr "type"))).length = 4 := by decide
  obtain ⟨huser, hmd5, htime, hfilename, hshare, hpv, hurl, hsize, htype⟩ := hnames
  have hsum := escape_length (untilNul r.md5)
  have hstatus₁ := intText_length_pos status.value
  have hpv₁ := intText_length_pos pv.value
  have hsize₁ := intText_length_pos size.value
  simp only [joinedItem, addStringToObject, Item.text, objectText, cText, whenFormat, if_true,
    List.length_cons, List.length_append, List.length_replicate, stringText_length, List.isEmpty,
    huser, hmd5, htime, hfilename, hshare, hpv, hurl, hsize, htype, hsum, List.length_nil]
  simp only [Bool.false_eq_true, if_false, List.length_cons, List.length_nil]
  omega

end Entry

end PrintedReplies
