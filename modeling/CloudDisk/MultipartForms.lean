import CloudDisk.UploadBodies
import Mathlib.Data.List.Infix

/-! # Bodies of the documented shape

A body with one part for the fields and one for the data is received exactly unless the search
for the closing boundary goes wrong: the boundary may also end in the CR that closes the data,
and the number of positions to try is an `int`. -/
namespace MultipartForms

open ByteStrings CheckedCode DiskHandlers UploadBodies

structure FormText where
  boundary : CString
  header : CString
  user : CString
  filename : CString
  md5 : CString
  size : CString
  disposition : CString
  contentType : CString
  data : List UInt8

namespace FormText
variable (f : FormText)

def marker : CString := 45 :: 45 :: f.boundary

def fields : List CString := [f.user, f.filename, f.md5, f.size]

def info : CString := List.intercalate [124] f.fields

/-- The data, the line end that closes it and the last line. -/
def tail : List UInt8 := f.data ++ 13 :: 10 :: (f.marker ++ [45, 45])

def parts : List UInt8 :=
  f.info ++ 13 :: 10 :: (f.marker ++ 13 :: 10 :: (f.disposition ++ 13 :: 10 ::
    (f.contentType ++ 13 :: 10 :: 13 :: 10 :: f.tail)))

def body : List UInt8 :=
  f.marker ++ 13 :: 10 :: (f.header ++ 13 :: 10 :: 13 :: 10 :: f.parts)

def start : ℕ := f.body.length - f.tail.length

def received : Upload := ⟨⟨f.user, f.filename, f.md5⟩, f.data.length, f.data⟩

end FormText

/-- The lines are plain and fit, the fields can be told apart and fit, and the data does not
contain the boundary. -/
structure Form extends FormText where
  lines : ∀ l ∈ [toFormText.marker, header, toFormText.info, disposition, contentType],
    Plain l ∧ l.length < tempBufMaxLen
  separate : ∀ s ∈ toFormText.fields, s ≠ [] ∧ 124 ∉ s
  user_lt : user.length < userNameLen
  filename_lt : filename.length < fileNameLen
  md5_lt : md5.length < md5Len
  size_lt : size.length < szLen
  data_free : ¬ toFormText.marker <:+: data

/-! ## The lines are found -/

theorem tokensOf_join {fields : List CString} (hne : fields ≠ [])
    (h : ∀ s ∈ fields, s ≠ [] ∧ 124 ∉ s) : tokensOf (List.intercalate [124] fields) = fields := by
  unfold tokensOf
  rw [List.splitOn_intercalate 124 (fun s hs => (h s hs).2) hne, List.filter_eq_self]
  intro s hs
  simpa using (h s hs).1

section Layout
variable {host : Host}

theorem Form.layout (f : Form) :
    Layout host f.body f.marker ⟨f.user, f.filename, f.md5⟩ (13 :: 10 :: f.tail) := by
  have hline : ∀ l ∈ [f.marker, f.header, f.info, f.disposition, f.contentType],
      ∀ rest, Line (l ++ 13 :: 10 :: rest) l rest := fun l hl rest => ⟨rfl, (f.lines l hl).1⟩
  have hfits : ∀ l ∈ [f.marker, f.header, f.info, f.disposition, f.contentType],
      l.length < tempBufMaxLen := fun l hl => (f.lines l hl).2
  have hheader : HeaderFits host f.header :=
    ⟨(hfits f.header (by simp)).le, fun _ => hfits f.header (by simp)⟩
  have htokens : tokensOf f.info = [f.user, f.filename, f.md5, f.size] :=
    tokensOf_join (by simp [FormText.fields]) f.separate
  have hd : Headed host f.body f.marker f.parts :=
    .intro (hline f.marker (by simp) _) (hfits f.marker (by simp))
      (hline f.header (by simp) (13 :: 10 :: f.parts)) hheader
  exact .intro hd (hline f.info (by simp) _) (hfits f.info (by simp))
    (.intro htokens f.user_lt f.filename_lt f.md5_lt f.size_lt) (hline f.marker (by simp) _)
    (hline f.disposition (by simp) _) (hline f.contentType (by simp) _)

end Layout

/-! ## The closing boundary -/

section Closing
variable (f : Form)

theorem Form.marker_plain : Plain f.marker := (f.lines f.marker (by simp)).1

/-- A hit before the closing boundary lies in the data and the CR after it: a line has no CRLF
inside and the boundary starts with a dash. -/
theorem Form.early_hit {i : ℕ} (hi : i < f.data.length + 2) (h : f.marker <+: f.tail.drop i) :
    f.marker <:+: f.data ++ [13] := by
  have htail : f.tail = (f.data ++ [13]) ++ 10 :: (f.marker ++ [45, 45]) := by
    simp [FormText.tail]
  have hlen : (f.data ++ [13]).length = f.data.length + 1 := by simp
  rw [htail] at h
  rcases Nat.lt_succ_iff_lt_or_eq.mp hi with hlt | rfl
  · rw [List.drop_append_of_le_length (by omega)] at h
    by_cases hle : f.marker.length ≤ ((f.data ++ [13]).drop i).length
    · have hin := List.prefix_of_prefix_length_le h (List.prefix_append _ _) hle
      exact hin.isInfix.trans (List.drop_suffix _ _).isInfix
    · -- the hit would reach over the line end
      have hover : (f.data ++ [13]).drop i ++ [10] <+: f.marker := by
        apply List.prefix_of_prefix_length_le _ h
        · rw [List.length_append, List.length_singleton]
          omega
        · exact List.prefix_append_right_inj _ |>.mpr ⟨_, rfl⟩
      have hcrlf : [13, 10] <:+: (f.data ++ [13]).drop i ++ [10] := by
        rw [List.drop_append_of_le_length (by omega), List.append_assoc]
        exact (List.suffix_append _ _).isInfix
      exact absurd (hcrlf.trans hover.isInfix) f.marker_plain.2
  · rw [← hlen, List.drop_left] at h
    exact absurd (List.cons_prefix_cons.mp h).1 (by decide)

theorem Form.late_miss (h : f.marker <:+: f.data ++ [13]) :
    ¬ FirstAt f.marker f.tail (f.data.length + 2) := by
  intro hfirst
  obtain ⟨s, t, hst⟩ := h
  have hlen := congrArg List.length hst
  simp only [List.length_append, List.length_singleton] at hlen
  apply hfirst.2 s.length (by omega)
  have htail : f.tail = s ++ (f.marker ++ (t ++ 10 :: (f.marker ++ [45, 45]))) := by
    rw [← List.append_assoc, ← List.append_assoc, hst]
    simp [FormText.tail]
  rw [htail, List.drop_left]
  exact List.prefix_append _ _

theorem Form.drop_tail : f.tail.drop (f.data.length + 2) = f.marker ++ [45, 45] := by
  simp [FormText.tail, ← List.drop_drop]

theorem Form.firstAt_iff :
    FirstAt f.marker f.tail (f.data.length + 2) ↔ ¬ f.marker <:+: f.data ++ [13] := by
  constructor
  · intro hfirst h
    exact f.late_miss h hfirst
  · intro h
    constructor
    · rw [f.drop_tail]
      exact List.prefix_append _ _
    · intro i hi hhit
      exact h (f.early_hit hi hhit)

end Closing

/-! ## What arrives -/

section Received
variable {host : Host} (f : Form)

theorem Form.searchLength_eq :
    searchLength f.body (13 :: 10 :: f.tail) = toInt32 (f.body.length + f.start) := by
  have hle : f.tail.length + 2 ≤ f.body.length := by
    simp only [FormText.body, FormText.parts, List.length_append, List.length_cons]
    omega
  unfold searchLength FormText.start
  rw [show f.body.length - (13 :: 10 :: f.tail).length + 2 = f.body.length - f.tail.length by
    simp only [List.length_cons]; omega]

theorem writeFile_received_iff {m : ℕ} :
    writeFile host ⟨f.user, f.filename, f.md5⟩ f.tail (m - 2) = some f.received ↔
      host.opens f.filename = true ∧ m = f.data.length + 2 ∧
        f.data.length ≤ host.writes f.data := by
  have htake : f.tail.take f.data.length = f.data := List.take_left
  unfold writeFile
  constructor
  · intro h
    split at h
    · rename_i hopens
      have hlen : (m : ℤ) - 2 = f.data.length := congrArg Upload.length (Option.some.inj h)
      have hdata := congrArg Upload.data (Option.some.inj h)
      rw [hlen] at hdata
      simp only [Int.toNat_natCast, htake] at hdata
      exact ⟨hopens, by omega, List.take_eq_self_iff f.data |>.mp hdata⟩
    · cases h
  · rintro ⟨hopens, rfl, hwrites⟩
    have hlen : ((f.data.length + 2 : ℕ) : ℤ) - 2 = f.data.length := by omega
    rw [if_pos hopens, hlen]
    simp [FormText.received, htake, List.take_of_length_le hwrites]

theorem Form.logSafe_iff :
    LogSafe host f.tail (some (f.data.length + 2)) ↔ host.logs = false := by
  constructor
  · intro h
    by_contra hlogs
    have hnul := (h (by simpa using hlogs) _ rfl).1
    rw [f.drop_tail] at hnul
    simp [f.marker_plain.1] at hnul
  · intro h hlogs
    simp [h] at hlogs

end Received

theorem form_received_iff (host : Host) (f : Form) :
    recvSaveFile host f.body = .ok (some f.received) ↔
      (host.malloc f.body.length = true ∧ toInt32 f.body.length ≠ 0) ∧ host.logs = false ∧
        host.opens f.filename = true ∧ f.data.length ≤ host.writes f.data ∧
        (f.data.length + 2 + f.marker.length : ℤ) ≤ toInt32 (f.body.length + f.start) ∧
        ¬ f.marker <:+: f.data ++ [13] := by
  rw [eq_ok_iff, returns_recvSaveFile]
  constructor
  · rintro ⟨r, hr, heq⟩
    cases hr with
    | refused => cases heq
    | unmarked => cases heq
    | uninformed => cases heq
    | @searched b s info o ha hl ho hlog =>
      obtain ⟨rfl, rfl, rfl⟩ := hl.unique f.layout
      obtain ⟨m, rfl, hm⟩ := Option.bind_eq_some_iff.mp heq
      obtain ⟨hopens, rfl, hwrites⟩ := (writeFile_received_iff f).mp hm
      rw [f.searchLength_eq] at ho
      cases ho with
      | found hpos hne _ hlen hfirst =>
        push_cast at hlen
        exact ⟨ha, f.logSafe_iff.mp hlog, hopens, hwrites, hlen, f.firstAt_iff.mp hfirst⟩
  · rintro ⟨ha, hlogs, hopens, hwrites, hlen, hfree⟩
    have hsearched : Searched f.tail (searchLength f.body (13 :: 10 :: f.tail)) f.marker
        (some (f.data.length + 2)) := by
      rw [f.searchLength_eq]
      apply Searched.found
      · omega
      · simp [FormText.marker]
      · push_cast
        exact hlen
      · exact f.firstAt_iff.mpr hfree
    refine ⟨_, .searched ha f.layout hsearched (f.logSafe_iff.mpr hlogs), ?_⟩
    exact (writeFile_received_iff f).mpr ⟨hopens, rfl, hwrites⟩

def carriage : Form where
  boundary := [120, 13]
  header := [104]
  user := [117]
  filename := [102]
  md5 := [109]
  size := [51]
  disposition := [104]
  contentType := [104]
  data := [45, 45, 120]
  lines := by unfold Plain; decide
  separate := by decide
  user_lt := by decide
  filename_lt := by decide
  md5_lt := by decide
  size_lt := by decide
  data_free := by decide

/-- The data and the CR after it are taken for the closing boundary; and the body is read past
its end as soon as `LOG` is compiled in. -/
theorem form_not_received :
    recvSaveFile quiet carriage.body =
        .ok (some ⟨⟨carriage.user, carriage.filename, carriage.md5⟩, -2, []⟩) ∧
      recvSaveFile { quiet with logs := true } carriage.body = .error .outOfBounds := by
  decide +kernel

end MultipartForms
