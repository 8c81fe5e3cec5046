import CloudDisk.SqlFormats
import Mathlib.Logic.Function.Basic
import Mathlib.Logic.Relation

/-! # The upload page

`Upload.vue` hashes each selected file by a reader of its own, asks `/md5` about it and, unless
the server knows the content, submits the upload component. The page has one `info` object for
all files, written when a reader is done, and a submit posts every file that is still ready with
what the object holds at that moment.

Of the component only this is assumed, and that it calls `md5File` once for each file when the
files are selected. -/
namespace UploadPage

open ByteStrings SqlFormats

/-- A selected file; `md5` is what `SparkMD5` computes of its content. -/
structure LocalFile where
  name : CString
  size : ℕ
  md5 : CString

/-- The reply to `/md5`. -/
structure Answer where
  status : ℕ
  code : CString

/-- Where `md5File` is with a file; one that is too big is not read at all. -/
inductive Phase where
  | skipped
  | reading
  | asking
  | answered
  deriving DecidableEq

/-- `posted` is the value of `fileInfo` that went with the file, `known` the files for which the
reply was 004 or 005. -/
structure Page (ι : Type) where
  fileInfo : CString
  phase : ι → Phase
  posted : ι → Option CString
  known : ι → Bool

inductive Event (ι : Type) where
  | onload (f : ι)
  | reply (f : ι)

def sizeOk (f : LocalFile) : Bool := f.size < 128 * 1024 * 1024

/-- `[user, filename, md5, size].join("|")`. -/
def fileInfoOf (user : CString) (f : LocalFile) : CString :=
  List.intercalate [124] [user, f.name, f.md5, natText f.size]

/-- `user && md5 && size && filename`. -/
def complete (user : CString) (f : LocalFile) : Bool :=
  user ≠ [] ∧ f.md5 ≠ [] ∧ f.size ≠ 0 ∧ f.name ≠ []

def knownCode (code : CString) : Bool := code = cstr "004" ∨ code = cstr "005"

variable {ι : Type}

/-- A file is ready as long as it has not been posted. -/
def Page.submit (p : Page ι) : Page ι :=
  { p with posted := fun f => some ((p.posted f).getD p.fileInfo) }

section Page
variable [DecidableEq ι] (user : CString) (file : ι → LocalFile) (answer : ι → Answer)

def start : Page ι where
  fileInfo := []
  phase f := if sizeOk (file f) then .reading else .skipped
  posted _ := none
  known _ := false

/-- The reader of a file is done: the object gets its description, and `/md5` is asked. -/
def Page.loaded (p : Page ι) (f : ι) : Page ι :=
  { p with
    phase := Function.update p.phase f .asking
    fileInfo := if complete user (file f) then fileInfoOf user (file f) else p.fileInfo }

def Page.replied (p : Page ι) (f : ι) : Page ι :=
  { p with phase := Function.update p.phase f .answered }

def Page.marked (p : Page ι) (f : ι) : Page ι := { p with known := Function.update p.known f true }

/-- Nothing when the event cannot happen in this state. `md5File` is taken to run once for a file,
when it is selected; Element calls `on-change` again when its upload has succeeded or failed. -/
def step (p : Page ι) : Event ι → Option (Page ι)
  | .onload f => if p.phase f = .reading then some (p.loaded user file f) else none
  | .reply f =>
    if p.phase f = .asking then
      if (answer f).status = 200 then
        if knownCode (answer f).code then some ((p.replied f).marked f)
        else some (p.replied f).submit
      else some (p.replied f)
    else none

def Step (p p' : Page ι) : Prop := ∃ ev, step user file answer p ev = some p'

/-- Every posted file went with its own description, and was not known to the server. -/
def Good (p : Page ι) : Prop :=
  ∀ f x, p.posted f = some x → x = fileInfoOf user (file f) ∧ p.known f = false

/-- The file is hashed, and the reply makes the page submit. -/
def Submits (f : ι) : Prop :=
  sizeOk (file f) ∧ (answer f).status = 200 ∧ knownCode (answer f).code = false

/-- The file is hashed, and the reply says that it need not be uploaded. -/
def Known (f : ι) : Prop :=
  sizeOk (file f) ∧ (answer f).status = 200 ∧ knownCode (answer f).code = true

/-- All selected files have the same description: one file, or copies of it. -/
structure OneFile (x : CString) : Prop where
  same : ∀ f, fileInfoOf user (file f) = x
  described : ∀ f, Submits file answer f → complete user (file f)
  unknown : ∀ f, ¬ Known file answer f

end Page

/-! ## What a step does -/

/-- Only files that are small enough are read and asked about. -/
def Hashed (file : ι → LocalFile) (p : Page ι) : Prop :=
  ∀ f, p.phase f = .reading ∨ p.phase f = .asking → sizeOk (file f)

theorem hashed_start (file : ι → LocalFile) : Hashed file (start file) := by
  intro f hf
  by_contra hsize
  simp [start, hsize] at hf

section Steps
variable [DecidableEq ι] {user : CString} {file : ι → LocalFile} {answer : ι → Answer}
  {p p' : Page ι}

inductive StepCases (user : CString) (file : ι → LocalFile) (answer : ι → Answer) (p : Page ι) :
    Page ι → Prop where
  | loaded (f : ι) (hf : p.phase f = .reading) : StepCases user file answer p (p.loaded user file f)
  | known (f : ι) (hf : p.phase f = .asking) (hs : (answer f).status = 200)
      (hk : knownCode (answer f).code) : StepCases user file answer p ((p.replied f).marked f)
  | submitted (f : ι) (hf : p.phase f = .asking) (hs : (answer f).status = 200)
      (hk : knownCode (answer f).code = false) : StepCases user file answer p (p.replied f).submit
  | refused (f : ι) (hf : p.phase f = .asking) : StepCases user file answer p (p.replied f)

theorem step_cases (h : Step user file answer p p') : StepCases user file answer p p' := by
  obtain ⟨ev, hev⟩ := h
  cases ev with
  | onload f =>
    simp only [step] at hev
    split at hev
    · next hf =>
      obtain rfl := Option.some.inj hev
      exact .loaded f hf
    · simp at hev
  | reply f =>
    simp only [step] at hev
    split at hev
    · next hf =>
      split at hev
      · next hs =>
        split at hev
        · next hk =>
          obtain rfl := Option.some.inj hev
          exact .known f hf hs hk
        · next hk =>
          obtain rfl := Option.some.inj hev
          exact .submitted f hf hs (by simpa using hk)
      · obtain rfl := Option.some.inj hev
        exact .refused f hf
    · simp at hev

theorem hashed_update {f : ι} {phase : Phase} (h : Hashed file p)
    (hf : p.phase f = .reading ∨ p.phase f = .asking) (g : ι)
    (hg : Function.update p.phase f phase g = .reading ∨
      Function.update p.phase f phase g = .asking) : sizeOk (file g) := by
  by_cases hgf : g = f
  · rw [hgf]
    exact h f hf
  · rw [Function.update_of_ne hgf] at hg
    exact h g hg

theorem hashed_step (h : Hashed file p) (hs : Step user file answer p p') : Hashed file p' := by
  cases step_cases hs with
  | loaded f hf => exact hashed_update h (Or.inl hf)
  | known f hf _ _ => exact hashed_update h (Or.inr hf)
  | submitted f hf _ _ => exact hashed_update h (Or.inr hf)
  | refused f hf => exact hashed_update h (Or.inr hf)

/-! ## Runs without a wrong post -/

theorem quiet_step (hno : ∀ f, ¬ Submits file answer f) (h : Hashed file p)
    (hp : ∀ f, p.posted f = none) (hs : Step user file answer p p') (f : ι) :
    p'.posted f = none := by
  cases step_cases hs with
  | loaded _ _ => exact hp f
  | known _ _ _ _ => exact hp f
  | submitted g hg hstatus hcode => exact absurd ⟨h g (Or.inr hg), hstatus, hcode⟩ (hno g)
  | refused _ _ => exact hp f

/-- With one description for all files the object holds it whenever a submit may come. -/
structure Described (file : ι → LocalFile) (answer : ι → Answer) (x : CString) (p : Page ι) :
    Prop where
  unknown : ∀ f, p.known f = false
  posted : ∀ f y, p.posted f = some y → y = x
  object : ∀ f, p.phase f = .asking → Submits file answer f → p.fileInfo = x

theorem described_answered {f : ι} {x : CString} (h : Described file answer x p) (g : ι)
    (hg : Function.update p.phase f .answered g = .asking) (hsub : Submits file answer g) :
    p.fileInfo = x := by
  by_cases hgf : g = f
  · rw [hgf, Function.update_self] at hg
    exact absurd hg (by decide)
  · rw [Function.update_of_ne hgf] at hg
    exact h.object g hg hsub

theorem described_step {x : CString} (hone : OneFile user file answer x) (hh : Hashed file p)
    (h : Described file answer x p) (hs : Step user file answer p p') :
    Described file answer x p' := by
  cases step_cases hs with
  | loaded f hf =>
    refine ⟨h.unknown, h.posted, fun g hg hsub => ?_⟩
    simp only [Page.loaded, hone.same f] at hg ⊢
    by_cases hgf : g = f
    · rw [if_pos (hone.described f (hgf ▸ hsub))]
    · simp only [Function.update_of_ne hgf] at hg
      rw [h.object g hg hsub, ite_self]
  | known f hf hstatus hcode => exact absurd ⟨hh f (Or.inr hf), hstatus, hcode⟩ (hone.unknown f)
  | submitted f hf hstatus hcode =>
    have hx := h.object f hf ⟨hh f (Or.inr hf), hstatus, hcode⟩
    refine ⟨h.unknown, fun g y hy => ?_, described_answered h⟩
    obtain rfl : (p.posted g).getD p.fileInfo = y := Option.some.inj hy
    cases hg : p.posted g with
    | none => exact hx
    | some z => exact h.posted g z hg
  | refused f hf => exact ⟨h.unknown, h.posted, described_answered h⟩

theorem good_of_no_submit (hno : ∀ f, ¬ Submits file answer f)
    (h : Relation.ReflTransGen (Step user file answer) (start file) p) : Good user file p := by
  have hquiet : Hashed file p ∧ ∀ f, p.posted f = none := by
    induction h with
    | refl => exact ⟨hashed_start file, fun _ => rfl⟩
    | tail _ hs ih => exact ⟨hashed_step ih.1 hs, quiet_step hno ih.1 ih.2 hs⟩
  intro f x hx
  rw [hquiet.2 f] at hx
  exact absurd hx (by simp)

theorem good_of_oneFile {x : CString} (hone : OneFile user file answer x)
    (h : Relation.ReflTransGen (Step user file answer) (start file) p) : Good user file p := by
  have hinv : Hashed file p ∧ Described file answer x p := by
    induction h with
    | refl =>
      refine ⟨hashed_start file, fun _ => rfl, fun _ _ h => by simp [start] at h, fun f hf => ?_⟩
      simp only [start] at hf
      split at hf <;> exact absurd hf (by decide)
    | tail _ hs ih => exact ⟨hashed_step ih.1 hs, described_step hone ih.1 ih.2 hs⟩
  intro f y hy
  exact ⟨(hinv.2.posted f y hy).trans (hone.same f).symm, hinv.2.unknown f⟩

/-! ## The first submit posts all files -/

theorem onload_step (answer : ι → Answer) {f : ι} (hf : p.phase f = .reading) :
    Step user file answer p (p.loaded user file f) :=
  ⟨.onload f, if_pos hf⟩

theorem submit_step (user : CString) {f : ι} (hf : p.phase f = .asking)
    (hsub : Submits file answer f) : Step user file answer p (p.replied f).submit := by
  refine ⟨.reply f, ?_⟩
  simp [step, hf, hsub.2.1, hsub.2.2]

theorem known_step (user : CString) {f : ι} (hf : p.phase f = .asking)
    (hk : Known file answer f) : Step user file answer p ((p.replied f).marked f) := by
  refine ⟨.reply f, ?_⟩
  simp [step, hf, hk.2.1, hk.2.2]

theorem loaded_asking (user : CString) (file : ι → LocalFile) (p : Page ι) (f : ι) :
    (p.loaded user file f).phase f = .asking :=
  Function.update_self f _ _

theorem first_submit (user : CString) {f : ι} (hsub : Submits file answer f) :
    ∃ p, Relation.ReflTransGen (Step user file answer) (start file) p ∧
      (∀ g, g ≠ f → p.phase g = (start file).phase g) ∧
      ∀ g, p.posted g = some (if complete user (file f) then fileInfoOf user (file f) else []) := by
  have hload : Step user file answer (start file) ((start file).loaded user file f) :=
    onload_step answer (if_pos hsub.1)
  have hsubmit := submit_step user (loaded_asking user file (start file) f) hsub
  refine ⟨_, (Relation.ReflTransGen.single hload).tail hsubmit, fun g hg => ?_, fun g => rfl⟩
  simp [Page.submit, Page.replied, Page.loaded, Function.update_of_ne hg]

theorem fileInfoOf_ne_nil (user : CString) (f : LocalFile) : fileInfoOf user f ≠ [] := by
  simp [fileInfoOf, List.intercalate]

theorem oneFile_of_good {f : ι} (hsub : Submits file answer f)
    (hgood : ∀ p, Relation.ReflTransGen (Step user file answer) (start file) p → Good user file p) :
    OneFile user file answer (fileInfoOf user (file f)) := by
  have hposted : ∀ f, Submits file answer f →
      ∀ g, (if complete user (file f) then fileInfoOf user (file f) else []) =
        fileInfoOf user (file g) := by
    intro f hf g
    obtain ⟨p, hp, -, hall⟩ := first_submit user hf
    exact (hgood p hp g _ (hall g)).1
  have hcomplete : ∀ f, Submits file answer f → complete user (file f) := by
    intro f hf
    by_contra hno
    have hnil := hposted f hf f
    rw [if_neg hno] at hnil
    exact fileInfoOf_ne_nil user (file f) hnil.symm
  refine ⟨fun g => ?_, hcomplete, fun g hg => ?_⟩
  · have hsame := hposted f hsub g
    rw [if_pos (hcomplete f hsub)] at hsame
    exact hsame.symm
  · -- the file is posted by the submit, and its own reply comes after that
    obtain ⟨p, hp, hphase, hall⟩ := first_submit user hsub
    have hgf : g ≠ f := by
      rintro rfl
      exact absurd (hg.2.2.symm.trans hsub.2.2) (by decide)
    have hreading : p.phase g = .reading := (hphase g hgf).trans (if_pos hg.1)
    have hlater := (hp.tail (onload_step answer hreading)).tail
      (known_step user (loaded_asking user file p g) hg)
    have hknown := (hgood _ hlater g _ (hall g)).2
    simp [Page.marked] at hknown

end Steps

theorem posts_right_iff [DecidableEq ι] (user : CString) (file : ι → LocalFile)
    (answer : ι → Answer) :
    (∀ p, Relation.ReflTransGen (Step user file answer) (start file) p → Good user file p) ↔
      (∀ f, ¬ Submits file answer f) ∨ ∃ x, OneFile user file answer x := by
  constructor
  · intro hgood
    by_cases hsub : ∃ f, Submits file answer f
    · obtain ⟨f, hf⟩ := hsub
      exact Or.inr ⟨_, oneFile_of_good hf hgood⟩
    · exact Or.inl (not_exists.mp hsub)
  · rintro (hno | ⟨x, hone⟩) p hp
    · exact good_of_no_submit hno hp
    · exact good_of_oneFile hone hp

def twoFiles : Bool → LocalFile
  | false => ⟨cstr "a", 1, cstr "11"⟩
  | true => ⟨cstr "b", 2, cstr "22"⟩

def runEvents (answer : Bool → Answer) (evs : List (Event Bool)) : Option (Page Bool) :=
  evs.foldlM (step (cstr "u") twoFiles answer) (start twoFiles)

/-- Both files are loaded before the reply for the first one: it is posted with the description
of the second. And a file that the server knows is posted with the other one. -/
theorem posts_wrong :
    ((runEvents (fun _ => ⟨200, cstr "006"⟩) [.onload false, .onload true, .reply false]).bind
      (·.posted false)) = some (fileInfoOf (cstr "u") (twoFiles true)) ∧
    fileInfoOf (cstr "u") (twoFiles true) ≠ fileInfoOf (cstr "u") (twoFiles false) ∧
    ((runEvents (fun f => ⟨200, if f then cstr "006" else cstr "005"⟩)
      [.onload false, .reply false, .onload true, .reply true]).map
        fun p => ((p.posted false).isSome, p.known false)) = some (true, true) := by
  decide +kernel

end UploadPage
