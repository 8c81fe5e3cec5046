import CloudDisk.ForeignDelete
import CloudDisk.JsonTexts
import CloudDisk.SqlFormats

/-! # Deleting from the page of one's own files

The button of `MyFiles.vue` calls `deleterow(scope.$index, tableData)`, where its neighbours
hand over `scope.row`. So `row` is the whole array, whose `md5` and `filename` are undefined, and
a request without these two members goes to filesop. There `get_json_info` stops at the first of
them, and `main` goes on with what its buffers hold. -/
namespace MyFilesPage

open ByteStrings CommandPrograms DiskState DiskHandlers JsonBodies JsonTexts SqlFormats
  RequestLoops TokenChecks ForeignDelete
open LogMessages (mesgSize)

/-! ## The page -/

structure Row where
  time : CString
  filename : CString
  md5 : CString
  url : CString
  deriving DecidableEq

/-- What a button hands over: the row of the table or the array with all rows. -/
inductive Given where
  | row (r : Row)
  | table (rows : List Row)
  deriving DecidableEq

/-- A member that is not there is `undefined`, and an array has none of these names. -/
def Given.member : Given → CString → Option CString
  | .row r, name =>
    if name = cstr "time" then some r.time
    else if name = cstr "filename" then some r.filename
    else if name = cstr "md5" then some r.md5
    else if name = cstr "url" then some r.url
    else none
  | .table _, _ => none

/-- `splice(index, 1)`. -/
def Given.splice (index : ℕ) : Given → Given
  | .row r => .row r
  | .table rows => .table (rows.eraseIdx index)

/-- What the login has stored in `window.sessionStorage`. -/
structure Session where
  user : CString
  token : CString

structure Answer where
  status : ℕ
  code : CString

/-- The data of the request, without the members that are undefined. -/
def deleterow (s : Session) (row : Given) : List UInt8 :=
  stringify ([(cstr "user", some s.user), (cstr "token", some s.token),
    (cstr "md5", row.member (cstr "md5")),
    (cstr "filename", row.member (cstr "filename"))].filterMap
      fun p => p.2.map (p.1, ·))

def deleterowThen (index : ℕ) (row : Given) (res : Answer) : Given :=
  if res.status = 200 then
    if res.code = cstr "013" then row.splice index else row
  else row

/-- The delete button of any row: `deleterow(scope.$index, tableData)`. -/
def clickDelete (s : Session) (tableData : List Row) : List UInt8 := deleterow s (.table tableData)

def repliedDelete (index : ℕ) (tableData : List Row) (res : Answer) : Given :=
  deleterowThen index (.table tableData) res

/-- `nginx.conf` sets no `client_max_body_size`, so a body of up to 1 MiB is passed on. -/
def passedOn (now : CString) (body : List UInt8) : Option Request :=
  if body.length ≤ 2 ^ 20 then some ⟨some [], some (natText body.length), body, now⟩ else none

/-- The server runs `del_file` for this user and the md5 and name of this row and for nothing
else, and the reply 013 removes the row and no other. -/
structure Deletes (s : Session) (rows : List Row) (i : Fin rows.length) (now : CString)
    (m : Filesop) (d : Disk) : Prop where
  server : ∃ r, passedOn now (clickDelete s rows) = some r ∧ ∀ user md5 filename,
    Accepted r m d user md5 filename ↔
      user = s.user ∧ md5 = (rows.get i).md5 ∧ filename = (rows.get i).filename
  page : ∀ res : Answer, res.status = 200 → res.code = cstr "013" →
    repliedDelete i rows res = .table (rows.eraseIdx i)

/-- The buffers of the process still hold the token and the row, and user and body fit theirs. -/
structure LeftBehind (s : Session) (row : Row) (m : Filesop) : Prop where
  short : s.user.length < userNameLen
  text : (0 : UInt8) ∉ s.user
  fits : (stringify [(cstr "user", s.user), (cstr "token", s.token)]).length + 7 < mesgSize
  token : m.token = s.token
  md5 : m.md5 = row.md5
  filename : m.filename = row.filename

/-! ## The length of a body -/

section Length

theorem digit_toNat {k : ℕ} (h : k < 10) : (UInt8.ofNat (48 + k)).toNat = 48 + k := by
  rw [UInt8.toNat_ofNat']
  omega

theorem decimal_natText (n : ℕ) : decimal (natText n) = n := by
  by_cases h0 : n = 0
  · subst h0
    decide
  · have hfold : ∀ l : List ℕ, (∀ k ∈ l, k < 10) →
        (l.reverse.map fun k => UInt8.ofNat (48 + k)).foldl
          (fun n b => 10 * n + (b.toNat - 48)) 0 = Nat.ofDigits 10 l := by
      intro l hl
      induction l with
      | nil => rfl
      | cons k l ih =>
        have hk := digit_toNat (hl k List.mem_cons_self)
        rw [List.reverse_cons, List.map_append, List.foldl_append,
          ih fun q hq => hl q (List.mem_cons_of_mem k hq), Nat.ofDigits_cons]
        simp only [List.map_cons, List.map_nil, List.foldl_cons, List.foldl_nil, hk]
        omega
    rw [natText, if_neg h0, decimal, hfold _ fun k hk => Nat.digits_lt_base (by decide) hk,
      Nat.ofDigits_digits]

theorem natText_bytes {n : ℕ} {b : UInt8} (hb : b ∈ natText n) :
    isDigit b = true ∧ isSpace b = false ∧ b ≠ minus ∧ b ≠ plus := by
  obtain ⟨k, hk, rfl⟩ := mem_natText hb
  interval_cases k <;> decide

theorem natText_head {n : ℕ} (h : (natText n).head? = some 48) : natText n = [48] := by
  by_cases h0 : n = 0
  · rw [natText, if_pos h0]
  · rw [natText, if_neg h0, List.head?_map, List.head?_reverse] at h
    have hne : Nat.digits 10 n ≠ [] := Nat.digits_ne_nil_iff_ne_zero.mpr h0
    rw [List.getLast?_eq_some_getLast hne, Option.map_some, Option.some.injEq] at h
    have hlast := Nat.getLast_digit_ne_zero 10 h0
    have hlt : (Nat.digits 10 n).getLast hne < 10 :=
      Nat.digits_lt_base (by decide) (List.getLast_mem hne)
    have hcode := congrArg UInt8.toNat h
    rw [digit_toNat hlt] at hcode
    exact absurd (show (Nat.digits 10 n).getLast hne = 0 by simpa using hcode) hlast

theorem atoi_natText {n : ℕ} (h : n < 2 ^ 31) : atoi (natText n) = n := by
  have hdecimal := decimal_natText n
  have hall : (natText n).takeWhile isDigit = natText n :=
    List.takeWhile_eq_self_iff.mpr fun b hb => (natText_bytes hb).1
  obtain ⟨b, rest, hl⟩ := List.exists_cons_of_ne_nil (natText_ne_nil n)
  obtain ⟨-, hspace, hminus, hplus⟩ := natText_bytes (n := n) (b := b) (by rw [hl]; simp)
  rw [hl] at hall hdecimal ⊢
  simp only [atoi, List.dropWhile_cons, hspace, Bool.false_eq_true, if_false, List.head?_cons,
    Option.some.injEq, hminus, hplus, or_self, hall, hdecimal]
  rw [min_eq_left (by omega), max_eq_right (by omega)]
  exact toInt32_eq (by omega) (by omega)

end Length

/-! ## The request -/

section Request
variable {s : Session} {rows : List Row} {row : Row} {now : CString} {m : Filesop} {d : Disk}

/-- The members that the array does not have are dropped. -/
theorem clickDelete_eq (s : Session) (rows : List Row) :
    clickDelete s rows = stringify [(cstr "user", s.user), (cstr "token", s.token)] := rfl

theorem read_passedOn {body : List UInt8} {r : Request} (hr : passedOn now body = some r)
    (hne : body ≠ []) (hnul : (0 : UInt8) ∉ body) :
    r.read = if mesgSize ≤ body.length + 7 then .overflow else .text body := by
  unfold passedOn at hr
  split at hr
  · rename_i hlen
    obtain rfl := Option.some.inj hr
    have hread : (⟨some [], some (natText body.length), body, now⟩ : Request).len = body.length :=
      atoi_natText (by omega)
    have hpos : 0 < body.length := List.length_pos_iff.mpr hne
    have htake : body.take (body.length : ℤ).toNat = body := by
      rw [Int.toNat_natCast, List.take_length]
    simp only [Request.read, hread, htake, hne, if_false, untilNul_of_notMem hnul]
    rw [if_neg (by omega)]
    by_cases hroom : bufSize ≤ body.length
    · have hlog : mesgSize ≤ body.length + 7 := by
        simp only [bufSize, mesgSize] at *
        omega
      rw [if_pos hroom, if_pos hlog]
    · rw [if_neg hroom]
  · cases hr

/-- `get_json_info` copies the user and stops at the md5. -/
theorem getInfo_clickDelete (s : Session) :
    (getInfo filesopFields (stringify [(cstr "user", s.user), (cstr "token", s.token)])).written =
      if (untilNul s.user).length < userNameLen then
        some fun m => { m with user := untilNul s.user } else none := by
  have huser : getObjectItem (.object ([(cstr "user", s.user), (cstr "token", s.token)].map
      readMember)) (cstr "user") = some (.string (untilNul s.user)) := rfl
  have hmd5 : getObjectItem (.object ([(cstr "user", s.user), (cstr "token", s.token)].map
      readMember)) (cstr "md5") = none := rfl
  simp only [getInfo, cJsonParse_stringify, filesopFields, copyFields, stringField, huser, hmd5]
  by_cases hlen : (untilNul s.user).length < userNameLen
  · simp only [hlen, if_true]
    rfl
  · simp only [hlen, if_false]
    rfl

theorem verified_unique {user t t' : CString} (h : Verified d user t) :
    Verified d user t' ↔ t' = t := by
  constructor
  · rintro ⟨v', hv', rfl⟩
    obtain ⟨v, hv, rfl⟩ := h
    rw [hv] at hv'
    obtain rfl := RedisValue.string.inj (Option.some.inj hv')
    rfl
  · rintro rfl
    exact h

theorem accepted_click {r : Request} (hr : passedOn now (clickDelete s rows) = some r)
    {user md5 filename : CString} :
    Accepted r m d user md5 filename ↔
      (stringify [(cstr "user", s.user), (cstr "token", s.token)]).length + 7 < mesgSize ∧
        user = untilNul s.user ∧ user.length < userNameLen ∧ md5 = m.md5 ∧
        filename = m.filename ∧ Verified d user m.token := by
  have hread := read_passedOn hr (by simp [clickDelete_eq, stringify])
    (stringify_visible [(cstr "user", s.user), (cstr "token", s.token)])
  have hinfo := getInfo_clickDelete s
  rw [clickDelete_eq] at hread
  constructor
  · rintro ⟨buf, write, token, hbuf, hwritten, hwrite, hverified⟩
    rw [hread] at hbuf
    split at hbuf
    · cases hbuf
    · rename_i hfits
      obtain rfl := Body.text.inj hbuf
      rw [hinfo] at hwritten
      split at hwritten
      · rename_i hshort
        obtain rfl := Option.some.inj hwritten
        obtain ⟨rfl, rfl, rfl, rfl⟩ := Filesop.mk.inj hwrite
        exact ⟨not_le.mp hfits, rfl, hshort, rfl, rfl, hverified⟩
      · cases hwritten
  · rintro ⟨hfits, rfl, hshort, rfl, rfl, hverified⟩
    rw [if_neg (not_le.mpr hfits)] at hread
    rw [if_pos hshort] at hinfo
    exact ⟨_, _, m.token, hread, hinfo, rfl, hverified⟩

theorem accepted_iff (hv : Verified d s.user s.token) {r : Request}
    (hr : passedOn now (clickDelete s rows) = some r) :
    Accepted r m d s.user row.md5 row.filename ↔ LeftBehind s row m := by
  rw [accepted_click hr]
  constructor
  · rintro ⟨hfits, huser, hshort, hmd5, hfilename, hverified⟩
    have hnul : (0 : UInt8) ∉ s.user := by
      rw [huser]
      exact untilNul_notMem s.user
    exact ⟨hshort, hnul, hfits, (verified_unique hv).mp hverified, hmd5.symm, hfilename.symm⟩
  · intro h
    refine ⟨h.fits, (untilNul_of_notMem h.text).symm, h.short, h.md5.symm, h.filename.symm, ?_⟩
    rw [h.token]
    exact hv

end Request

/-- A click deletes the row it stands in exactly when an earlier request has left the row and
the token in the buffers of the process. -/
theorem delete_row_iff {s : Session} {rows : List Row} {i : Fin rows.length} {now : CString}
    {m : Filesop} {d : Disk} (hv : Verified d s.user s.token) :
    Deletes s rows i now m d ↔ LeftBehind s (rows.get i) m := by
  constructor
  · rintro ⟨⟨r, hr, haccepted⟩, -⟩
    exact (accepted_iff hv hr).mp ((haccepted _ _ _).mpr ⟨rfl, rfl, rfl⟩)
  · intro h
    have hlen : (clickDelete s rows).length ≤ 2 ^ 20 := by
      have := h.fits
      rw [← clickDelete_eq s rows, mesgSize] at this
      omega
    have hpassed : passedOn now (clickDelete s rows) = some _ := if_pos hlen
    have haccepted := (accepted_iff hv hpassed).mpr h
    refine ⟨⟨_, hpassed, fun user md5 filename => ⟨?_, ?_⟩⟩, ?_⟩
    · intro hother
      obtain ⟨-, huser, -, hmd5, hfilename, -⟩ := (accepted_click hpassed).mp hother
      exact ⟨huser.trans (untilNul_of_notMem h.text), hmd5.trans h.md5,
        hfilename.trans h.filename⟩
    · rintro ⟨rfl, rfl, rfl⟩
      exact haccepted
    · intro res hstatus hcode
      rw [repliedDelete, deleterowThen, if_pos hstatus, if_pos hcode]
      rfl

def ownSession : Session := ⟨[97], [116]⟩

def ownRows : List Row := [⟨[], [102], [49], []⟩, ⟨[], [103], [50], []⟩]

theorem ownSession_verified : Verified ownedFile ownSession.user ownSession.token :=
  ⟨[116], rfl, by decide⟩

theorem delete_row_left_behind :
    Verified ownedFile ownSession.user ownSession.token ∧
      Deletes ownSession ownRows ⟨0, by decide⟩ [] ⟨[97], [116], [49], [102]⟩ ownedFile := by
  refine ⟨ownSession_verified, (delete_row_iff ownSession_verified).mpr ?_⟩
  constructor
  all_goals decide

/-- A click on the first row. A process that has not yet served anybody refuses it, and one
that has deleted the second row before is asked to delete that row again. -/
theorem click_deletes_other_row :
    ∃ r, passedOn [] (clickDelete ownSession ownRows) = some r ∧
      (∀ user md5 filename, ¬ Accepted r noRequest ownedFile user md5 filename) ∧
      Accepted r ⟨[97], [116], [50], [103]⟩ ownedFile [97] [50] [103] := by
  have hlen : (clickDelete ownSession ownRows).length ≤ 2 ^ 20 := by decide
  refine ⟨_, if_pos hlen, ?_, ?_⟩
  · intro user md5 filename h
    obtain ⟨-, rfl, -, -, -, hverified⟩ := (accepted_click (if_pos hlen)).mp h
    have htoken := (verified_unique ownSession_verified).mp hverified
    exact absurd htoken (by decide)
  · refine (accepted_click (if_pos hlen)).mpr ⟨?_, ?_, ?_, rfl, rfl, ownSession_verified⟩
    all_goals decide

end MyFilesPage
