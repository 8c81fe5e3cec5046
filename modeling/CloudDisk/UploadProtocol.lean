import CloudDisk.ReferenceCounts
import Mathlib.Logic.Function.Basic

/-! # The two requests of an upload

`Upload.vue` asks `/md5` first and uploads unless the reply is 004 or 005. Each request is
handled as a whole and without failures here; what is left are the orders in which the
requests of different clients arrive. -/
namespace UploadProtocol

open ByteStrings CommandPrograms RowTables DiskState DiskHandlers HandlerRules HandlerEffects
  DiskCalls ReferenceCounts

structure Client where
  now : CString
  user : CString
  md5 : CString
  filename : CString
  size : ℤ
  fileid : CString
  url : CString

inductive Phase where
  | asking | uploading | done
  deriving DecidableEq, Repr

structure System (ι : Type) where
  disk : Disk
  phase : ι → Phase

inductive Request (ι : Type) where
  | md5 (i : ι)
  | upload (i : ι)

variable {ι : Type} (clients : ι → Client)

def Request.call : Request ι → Call
  | .md5 i => .dealMd5 (clients i).now (clients i).user (clients i).md5 (clients i).filename
  | .upload i => .upload (clients i).now (clients i).user (clients i).md5 (clients i).filename
      (clients i).size (clients i).fileid (clients i).url

def Enabled (s : System ι) : Request ι → Prop
  | .md5 i => s.phase i = .asking
  | .upload i => s.phase i = .uploading

/-- The client's decision on the reply to `/md5`. -/
def afterMd5 (code : Status) : Phase :=
  if code = .c004 ∨ code = .c005 then .done else .uploading

section Next
variable [DecidableEq ι]

def next (s : System ι) (r : Request ι) (e : ℕ → Outcome) : System ι :=
  let out := (r.call clients).handler.run Cmd.exec e ((r.call clients).arrive s.disk)
  match r with
  | .md5 i => ⟨out.2, Function.update s.phase i (afterMd5 (dealMd5Status out.1))⟩
  | .upload i => ⟨out.2, Function.update s.phase i .done⟩

/-- A run with the states and requests it went through. -/
inductive Execution (start : System ι) : List (System ι × Request ι) → System ι → Prop where
  | refl : Execution start [] start
  | step {history : List (System ι × Request ι)} {s : System ι} (r : Request ι) (e : ℕ → Outcome)
      (h : Execution start history s) (hr : Enabled s r) (he : ∀ i, NoFail (e i)) :
      Execution start ((s, r) :: history) (next clients s r e)

end Next

def Clash (q : System ι × Request ι) : Prop :=
  match q.2 with
  | .md5 _ => False
  | .upload i => ∃ r ∈ q.1.disk.fileInfo, r.hasMd5 (clients i).md5

instance (q : System ι × Request ι) : Decidable (Clash clients q) :=
  match q with
  | (_, .md5 _) => inferInstanceAs (Decidable False)
  | (_, .upload _) => Multiset.decidableExistsMultiset

def FilesTallied (d : Disk) : Prop :=
  ∀ md5, Tallied (FileInfo.hasMd5 md5) FileInfo.count d.fileInfo (references d md5)

structure FileCountsRight (d : Disk) : Prop where
  unique : ∀ md5, countWhere (FileInfo.hasMd5 md5) d.fileInfo ≤ 1
  count : ∀ r ∈ d.fileInfo, r.count = references d r.md5

theorem FilesTallied.right {d : Disk} (h : FilesTallied d) : FileCountsRight d := by
  constructor
  · intro md5
    exact (h md5).count_le_one
  · intro r hr
    exact ((h r.md5).of_mem hr (by simp [FileInfo.hasMd5])).2.1

section Effects
variable {now user md5 filename : CString} {d d' : Disk} {n : ℤ}

theorem filesTallied_dealMd5 (h : FilesTallied d) (he : DealMd5 now user md5 filename d n d') :
    FilesTallied d' := by
  cases he with
  | unknown _ => exact h
  | owned _ _ _ => exact h
  | added r hr hm hn t ht =>
    intro other
    obtain ⟨-, hc, hpos⟩ := (h md5).of_mem hr hm
    rw [references_addReference]
    by_cases hne : other = md5
    · rw [if_pos hne, hne]
      exact (h md5).update hpos (Nat.succ_pos _) (fun _ => rfl) fun _ => by simp [hc]
    · rw [if_neg hne]
      exact (h other).frame (setFileCount_frame hne)

theorem count_dealMd5 (he : DealMd5 now user md5 filename d n d') (other : CString) :
    countWhere (FileInfo.hasMd5 other) d'.fileInfo =
      countWhere (FileInfo.hasMd5 other) d.fileInfo := by
  cases he with
  | unknown _ => rfl
  | owned _ _ _ => rfl
  | added r hr hm hn t ht => exact countWhere_update fun _ _ => rfl

variable {size : ℤ} {fileid url : CString}

theorem filesTallied_storeFile (h : FilesTallied d)
    (hno : ∀ r ∈ d.fileInfo, r.hasMd5 md5 = false)
    (he : StoreFile now user md5 filename size fileid url d n d') : FilesTallied d' := by
  cases he with
  | stored t ht =>
    intro other
    rw [references_addReference]
    by_cases hne : other = md5
    · rw [if_pos hne, hne, (h md5).of_none hno]
      exact tallied_insert hno (by simp [FileInfo.hasMd5]) rfl
    · rw [if_neg hne]
      apply (h other).frame
      exact (rowsWhere_cons.trans (if_neg (by simpa [FileInfo.hasMd5] using Ne.symm hne)))

theorem count_storeFile (he : StoreFile now user md5 filename size fileid url d n d')
    (other : CString) :
    countWhere (FileInfo.hasMd5 other) d'.fileInfo =
      countWhere (FileInfo.hasMd5 other) d.fileInfo + if md5 = other then 1 else 0 := by
  cases he with
  | stored t ht =>
    change countWhere _ (_ ::ₘ _) = _
    rw [countWhere_cons]
    simp [FileInfo.hasMd5]

end Effects

section Runs
variable [DecidableEq ι] {clients : ι → Client} {s start : System ι} {r : Request ι}
  {e : ℕ → Outcome} {history : List (System ι × Request ι)}

theorem filesTallied_next (h : FilesTallied s.disk) (he : ∀ i, NoFail (e i))
    (hc : ¬ Clash clients (s, r)) : FilesTallied (next clients s r e).disk := by
  cases r with
  | md5 i => exact filesTallied_dealMd5 h (dealMd5_effect _ _ _ _ _ e he)
  | upload i =>
    have hno : ∀ r ∈ s.disk.fileInfo, r.hasMd5 (clients i).md5 = false := by
      intro r hr
      by_contra hm
      exact hc ⟨r, hr, by simpa using hm⟩
    have hput : FilesTallied { s.disk with storage := insert (clients i).fileid s.disk.storage } :=
      h
    exact filesTallied_storeFile hput hno (storeFileinfoToMysql_effect _ _ _ _ _ _ _ _ e he)

/-- The protocol deletes no row, so a second row for the same content stays. -/
theorem doubled_next (he : ∀ i, NoFail (e i)) {md5 : CString}
    (h : 2 ≤ countWhere (FileInfo.hasMd5 md5) s.disk.fileInfo) :
    2 ≤ countWhere (FileInfo.hasMd5 md5) (next clients s r e).disk.fileInfo := by
  cases r with
  | md5 i =>
    have hcount := count_dealMd5 (dealMd5_effect (clients i).now (clients i).user (clients i).md5
      (clients i).filename s.disk e he) md5
    exact hcount ▸ h
  | upload i =>
    have hcount := count_storeFile (storeFileinfoToMysql_effect (clients i).now (clients i).user
      (clients i).md5 (clients i).filename (clients i).size (clients i).fileid (clients i).url
      { s.disk with storage := insert (clients i).fileid s.disk.storage } e he) md5
    exact h.trans (hcount ▸ Nat.le_add_right _ _)

theorem doubled_clash (he : ∀ i, NoFail (e i)) (hc : Clash clients (s, r)) :
    ∃ md5, 2 ≤ countWhere (FileInfo.hasMd5 md5) (next clients s r e).disk.fileInfo := by
  cases r with
  | md5 i => exact absurd hc id
  | upload i =>
    have hpos : 0 < countWhere (FileInfo.hasMd5 (clients i).md5) s.disk.fileInfo :=
      countWhere_pos.mpr hc
    have hcount := count_storeFile (storeFileinfoToMysql_effect (clients i).now (clients i).user
      (clients i).md5 (clients i).filename (clients i).size (clients i).fileid (clients i).url
      { s.disk with storage := insert (clients i).fileid s.disk.storage } e he) (clients i).md5
    rw [if_pos rfl] at hcount
    exact ⟨(clients i).md5, (Nat.succ_le_succ hpos).trans hcount.ge⟩

theorem filesTallied_execution (h : Execution clients start history s)
    (h0 : FilesTallied start.disk) (hc : ∀ q ∈ history, ¬ Clash clients q) :
    FilesTallied s.disk := by
  induction h with
  | refl => exact h0
  | step r e h hr he ih =>
    exact filesTallied_next (ih fun q hq => hc q (List.mem_cons_of_mem _ hq)) he
      (hc _ List.mem_cons_self)

theorem doubled_execution (h : Execution clients start history s)
    (hc : ∃ q ∈ history, Clash clients q) :
    ∃ md5, 2 ≤ countWhere (FileInfo.hasMd5 md5) s.disk.fileInfo := by
  induction h with
  | refl => simp at hc
  | step r e h hr he ih =>
    obtain ⟨q, hq, hclash⟩ := hc
    rcases List.mem_cons.mp hq with rfl | hq
    · exact doubled_clash he hclash
    · obtain ⟨md5, htwo⟩ := ih ⟨q, hq, hclash⟩
      exact ⟨md5, doubled_next he htwo⟩

/-- The counts come out right exactly when no upload found its content already there. -/
theorem counts_right_iff_no_clash (h : Execution clients start history s)
    (h0 : FilesTallied start.disk) :
    FileCountsRight s.disk ↔ ∀ q ∈ history, ¬ Clash clients q := by
  constructor
  · intro hright q hq hclash
    obtain ⟨md5, htwo⟩ := doubled_execution h ⟨q, hq, hclash⟩
    have := hright.unique md5
    omega
  · intro hc
    exact (filesTallied_execution h h0 hc).right

end Runs

/-! ## Two clients with the same new content -/

def twins (i : Bool) : Client :=
  { now := [], user := if i then [98] else [97], md5 := [1], filename := [102], size := 9
    fileid := if i then [8] else [7], url := [] }

def twinsStart : System Bool := ⟨emptyDisk, fun _ => .asking⟩

theorem twinsStart_tallied : FilesTallied twinsStart.disk := (exact_empty emptyDisk_tables).files

theorem counts_right_in_turn : ∃ history s, Execution twins twinsStart history s ∧
    (∀ i, s.phase i = .done) ∧ (∀ q ∈ history, ¬ Clash twins q) ∧ FileCountsRight s.disk := by
  have hok : ∀ _ : ℕ, NoFail (.ok 0) := fun _ => by simp [NoFail]
  have h0 : Execution twins twinsStart [] twinsStart := .refl
  have h1 := h0.step (.md5 false) (fun _ => .ok 0) rfl hok
  have h2 := h1.step (.upload false) (fun _ => .ok 0) rfl hok
  have h3 := h2.step (.md5 true) (fun _ => .ok 0) rfl hok
  exact ⟨_, _, h3, by decide, by decide,
    (counts_right_iff_no_clash h3 twinsStart_tallied).mpr (by decide)⟩

/-- Both ask before either uploads. -/
theorem counts_wrong_when_raced : ∃ history s, Execution twins twinsStart history s ∧
    (∀ i, s.phase i = .done) ∧ ¬ FileCountsRight s.disk := by
  have hok : ∀ _ : ℕ, NoFail (.ok 0) := fun _ => by simp [NoFail]
  have h0 : Execution twins twinsStart [] twinsStart := .refl
  have h1 := h0.step (.md5 false) (fun _ => .ok 0) rfl hok
  have h2 := h1.step (.md5 true) (fun _ => .ok 0) rfl hok
  have h3 := h2.step (.upload false) (fun _ => .ok 0) rfl hok
  have h4 := h3.step (.upload true) (fun _ => .ok 0) rfl hok
  refine ⟨_, _, h4, by decide, fun hright => ?_⟩
  have hone := hright.unique [1]
  revert hone
  decide

end UploadProtocol
