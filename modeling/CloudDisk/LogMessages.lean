import CloudDisk.ByteBuffers
import CloudDisk.Interleavings
import CloudDisk.SqlFormats
import Mathlib.Data.Fintype.Basic

/-! # The log files of `make_log.c`

Every program logs through `dumpmsg_to_file`: the message is formatted into a buffer, the
directories of the month are made where they are missing, and the line is appended to the file of
the day. All programs do so at the same time and nothing keeps them apart but the file system. -/
namespace LogMessages

open ByteStrings CheckedCode ByteBuffers SqlFormats CommandPrograms Interleavings

structure Tm where
  year : ℕ
  mon : ℕ
  mday : ℕ
  hour : ℕ
  min : ℕ
  sec : ℕ

/-- `%0wd` of a number that is not negative. -/
def padded (w n : ℕ) : CString := List.replicate (w - (natText n).length) 48 ++ natText n

/-! ## The line -/

/-- The size of `mesg` and of `buf`. -/
def mesgSize : ℕ := 4096

def stamp (now : Tm) (filename : CString) (line : ℕ) : CString :=
  cstr "[" ++ padded 4 now.year ++ cstr "-" ++ padded 2 now.mon ++ cstr "-" ++ padded 2 now.mday ++
    cstr " " ++ padded 2 now.hour ++ cstr ":" ++ padded 2 now.min ++ cstr ":" ++ padded 2 now.sec ++
    cstr "]--[" ++ filename ++ cstr ":" ++ natText line ++ cstr "]--"

/-- The first part of `dumpmsg_to_file`: `vsprintf` into `mesg` and `snprintf` into `buf`. -/
def formatMessage (now : Tm) (filename : CString) (line : ℕ) (fmt : CString) (args : List Arg) :
    Checked CString := do
  let mesg ← (Buffer.zeroed mesgSize).strcpy (sprintf (units fmt) args)
  let mesg ← mesg.text
  return (stamp now filename line ++ mesg).take (mesgSize - 1)

/-- `vsprintf` knows nothing of the size of `mesg`. -/
theorem formatMessage_spec {now : Tm} {filename fmt : CString} {line : ℕ} {args : List Arg}
    {Q : CString → Prop} :
    Returns (formatMessage now filename line fmt args) Q ↔
      (sprintf (units fmt) args).length < mesgSize ∧
        Q ((stamp now filename line ++ untilNul (sprintf (units fmt) args)).take
          (mesgSize - 1)) := by
  rw [formatMessage, returns_bind, Buffer.returns_strcpy]
  apply and_congr_right
  intro hfits
  rw [Buffer.text_strcpy hfits, returns_bind, returns_pure, returns_pure]

/-! ## The file system -/

abbrev Path := List CString

/-- The directories, and the lines of the files. -/
structure Fs where
  dirs : Finset Path
  lines : Path → List CString

inductive FsCmd where
  | access (dir : Path)
  | mkdir (dir : Path)
  | openAppend (path : Path)
  | write (path : Path) (buf : CString)

inductive FsReply where
  | ok
  | err

/-- A system call can fail for other reasons than those below. -/
inductive Fate where
  | works
  | fails
  deriving DecidableEq

/-- A `write` to a file that was opened with `O_APPEND` goes to its end as a whole. -/
def FsCmd.exec : Fate → FsCmd → Fs → FsReply × Fs
  | .fails, _, fs => (.err, fs)
  | .works, .access dir, fs => (if dir ∈ fs.dirs then .ok else .err, fs)
  | .works, .mkdir dir, fs =>
    if dir ∉ fs.dirs ∧ dir.dropLast ∈ fs.dirs then (.ok, { fs with dirs := insert dir fs.dirs })
    else (.err, fs)
  | .works, .openAppend path, fs => (if path.dropLast ∈ fs.dirs then .ok else .err, fs)
  | .works, .write path buf, fs =>
    (.ok, { fs with lines := Function.update fs.lines path (fs.lines path ++ [buf]) })

abbrev FsProg := Prog FsCmd FsReply Unit

/-- A message on its way to the file; `now` is the time that `make_path` finds. -/
structure Message where
  moduleName : CString
  procName : CString
  now : Tm
  buf : CString

/-- The arguments of `dumpmsg_to_file`, and the times that it and `make_path` find. -/
structure LogCall where
  moduleName : CString
  procName : CString
  filename : CString
  line : ℕ
  fmt : CString
  args : List Arg
  stamped : Tm
  filed : Tm

/-- `dumpmsg_to_file` up to `make_path`. -/
def LogCall.message (c : LogCall) : Checked Message := do
  let buf ← formatMessage c.stamped c.filename c.line c.fmt c.args
  return ⟨c.moduleName, c.procName, c.filed, buf⟩

/-- The line that a call is to write, of which `buf` holds 4095 bytes. -/
def LogCall.text (c : LogCall) : CString :=
  (stamp c.stamped c.filename c.line ++ untilNul (sprintf (units c.fmt) c.args)).take (mesgSize - 1)

theorem returns_message {c : LogCall} {Q : Message → Prop} :
    Returns c.message Q ↔ (sprintf (units c.fmt) c.args).length < mesgSize ∧
      Q ⟨c.moduleName, c.procName, c.filed, c.text⟩ := by
  rw [LogCall.message, returns_bind, formatMessage_spec, returns_pure, LogCall.text]

theorem buf_of_message {c : LogCall} {m : Message} (h : Returns c.message (· = m)) :
    m.buf = c.text := by
  obtain ⟨-, hmessage⟩ := returns_message.mp h
  rw [← hmessage]

def Message.mDir (m : Message) : Path :=
  [cstr "logs", m.moduleName, padded 4 m.now.year, padded 2 m.now.mon]

def Message.path (m : Message) : Path :=
  m.mDir ++ [m.procName ++ cstr "-" ++ padded 2 m.now.mday ++ cstr ".log"]

/-- `top_dir`, `second_dir`, `third_dir`, `y_dir` and `m_dir`. -/
def Message.dirs (m : Message) : List Path :=
  [[], [cstr "logs"], [cstr "logs", m.moduleName],
    [cstr "logs", m.moduleName, padded 4 m.now.year], m.mDir]

/-- Each branch of `make_path` makes the directories in turn, up to the first that it cannot
make. -/
def mkdirs : List Path → FsProg
  | [] => return ()
  | dir :: dirs => do
    match ← perform (.mkdir dir) with
    | .ok => mkdirs dirs
    | .err => return ()

/-- The branches of `make_path`: the first directory that is not there and those below it. -/
def climb : List Path → FsProg
  | [] => return ()
  | dir :: dirs => do
    match ← perform (.access dir) with
    | .ok => climb dirs
    | .err => mkdirs (dir :: dirs)

def makePath (m : Message) : FsProg := climb m.dirs

/-- `write` to a file that could not be opened fails. -/
def outPutFile (path : Path) (buf : CString) : FsProg := do
  match ← perform (.openAppend path) with
  | .ok =>
    let _ ← perform (.write path buf)
    return ()
  | .err => return ()

/-- The second part of `dumpmsg_to_file`. -/
def dumpmsgToFile (m : Message) : FsProg := do
  makePath m
  outPutFile m.path m.buf

/-! ## How far a call has got -/

inductive Phase where
  | climbing (dirs : List Path)
  | making (dirs : List Path)
  | opening
  | writing
  | done
  deriving DecidableEq

def Phase.prog (m : Message) : Phase → FsProg
  | .climbing dirs => climb dirs >>= fun _ => outPutFile m.path m.buf
  | .making dirs => mkdirs dirs >>= fun _ => outPutFile m.path m.buf
  | .opening => outPutFile m.path m.buf
  | .writing => .call (.write m.path m.buf) fun _ => .ret ()
  | .done => .ret ()

/-- Where the next system call takes it, when the call works. -/
def Phase.next (m : Message) (fs : Fs) : Phase → Phase
  | .climbing (dir :: dirs) => if dir ∈ fs.dirs then .climbing dirs else .making (dir :: dirs)
  | .making (dir :: dirs) =>
    if dir ∉ fs.dirs ∧ dir.dropLast ∈ fs.dirs then .making dirs else .opening
  | .climbing [] | .making [] | .opening => if m.mDir ∈ fs.dirs then .writing else .done
  | .writing | .done => .done

def Phase.effect (m : Message) (fs : Fs) : Phase → Fs
  | .making (dir :: _) =>
    if dir ∉ fs.dirs ∧ dir.dropLast ∈ fs.dirs then { fs with dirs := insert dir fs.dirs } else fs
  | .writing => { fs with lines := Function.update fs.lines m.path (fs.lines m.path ++ [m.buf]) }
  | _ => fs

theorem path_dropLast (m : Message) : m.path.dropLast = m.mDir := List.dropLast_concat

section Step
variable {ι : Type} [DecidableEq ι] {calls : ι → Message}
  {s : System ι FsCmd FsReply Fate Fs Unit} {φ : ι → Phase}

/-- The calls are in these phases, and no system call fails without a reason. -/
def InPhases (calls : ι → Message) (φ : ι → Phase) (s : System ι FsCmd FsReply Fate Fs Unit) :
    Prop :=
  ∀ i, s.pool i = ⟨(φ i).prog (calls i), fun _ => .works⟩

theorem step_thread {i : ι} {c : FsCmd} {next : FsReply → FsProg}
    (hpool : s.pool i = ⟨.call c next, fun _ => .works⟩) :
    s.step FsCmd.exec i =
      ⟨Function.update s.pool i ⟨next (c.exec .works s.world).1, fun _ => .works⟩,
        (c.exec .works s.world).2⟩ := by
  have hprog : (s.pool i).prog = .call c next := by rw [hpool]
  rw [step_call hprog, hpool]

theorem step_opening {i : ι} (hpool : s.pool i = ⟨Phase.prog (calls i) .opening, fun _ => .works⟩) :
    s.step FsCmd.exec i = ⟨Function.update s.pool i
      ⟨(if (calls i).mDir ∈ s.world.dirs then Phase.writing else .done).prog (calls i),
        fun _ => .works⟩, s.world⟩ := by
  rw [step_thread hpool]
  simp only [FsCmd.exec, path_dropLast]
  split <;> rfl

theorem step_phase (h : InPhases calls φ s) (i : ι) :
    InPhases calls (Function.update φ i ((φ i).next (calls i) s.world)) (s.step FsCmd.exec i) ∧
      (s.step FsCmd.exec i).world = (φ i).effect (calls i) s.world := by
  have hupdate : ∀ {ψ : Phase} {w : Fs}, s.step FsCmd.exec i =
      ⟨Function.update s.pool i ⟨ψ.prog (calls i), fun _ => .works⟩, w⟩ →
      InPhases calls (Function.update φ i ψ) (s.step FsCmd.exec i) ∧
        (s.step FsCmd.exec i).world = w := by
    intro ψ w hstep
    rw [hstep]
    refine ⟨fun j => ?_, rfl⟩
    by_cases hj : j = i
    · subst hj
      simp only [Function.update_self]
    · simp only [Function.update_of_ne hj]
      exact h j
  have hpool := h i
  cases hφ : φ i with
  | climbing dirs =>
    rw [hφ] at hpool
    cases dirs with
    | nil => exact hupdate (step_opening hpool)
    | cons dir dirs =>
      apply hupdate
      rw [step_thread hpool]
      simp only [FsCmd.exec, Phase.next, Phase.effect]
      split <;> rfl
  | making dirs =>
    rw [hφ] at hpool
    cases dirs with
    | nil => exact hupdate (step_opening hpool)
    | cons dir dirs =>
      apply hupdate
      rw [step_thread hpool]
      simp only [FsCmd.exec, Phase.next, Phase.effect]
      split <;> rfl
  | opening =>
    rw [hφ] at hpool
    exact hupdate (step_opening hpool)
  | writing =>
    rw [hφ] at hpool
    exact hupdate (step_thread hpool)
  | done =>
    rw [hφ] at hpool
    apply hupdate
    rw [step_stopped (a := ()) (by rw [hpool]; rfl)]
    simp only [Phase.next, Phase.effect, ← hpool, Function.update_eq_self]

theorem run_phases {J : (ι → Phase) → Fs → Prop}
    (hstep : ∀ φ fs i, J φ fs → J (Function.update φ i ((φ i).next (calls i) fs))
      ((φ i).effect (calls i) fs))
    (schedule : List ι) (h : InPhases calls φ s) (hJ : J φ s.world) :
    ∃ ψ, InPhases calls ψ (s.run FsCmd.exec schedule) ∧ J ψ (s.run FsCmd.exec schedule).world := by
  refine run_induction (I := fun s => ∃ ψ, InPhases calls ψ s ∧ J ψ s.world) ?_ schedule ⟨φ, h, hJ⟩
  rintro t i ⟨ψ, hψ, hJψ⟩
  obtain ⟨hphases, hworld⟩ := step_phase hψ i
  exact ⟨_, hphases, hworld ▸ hstep ψ t.world i hJψ⟩

omit [DecidableEq ι] in
theorem phase_done {i : ι} (h : InPhases calls φ s) (hdone : (s.pool i).result.isSome) :
    φ i = .done := by
  rw [h i] at hdone
  cases hφ : φ i with
  | done => rfl
  | climbing dirs =>
    rw [hφ] at hdone
    cases dirs <;> simp [Thread.result, Phase.prog, climb, outPutFile] at hdone
  | making dirs =>
    rw [hφ] at hdone
    cases dirs <;> simp [Thread.result, Phase.prog, mkdirs, outPutFile] at hdone
  | opening => simp [hφ, Thread.result, Phase.prog, outPutFile] at hdone
  | writing => simp [hφ, Thread.result, Phase.prog] at hdone

def Phase.left : Phase → ℕ
  | .climbing dirs => dirs.length + 4
  | .making dirs => dirs.length + 3
  | .opening => 2
  | .writing => 1
  | .done => 0

theorem left_next (m : Message) (fs : Fs) (ψ : Phase) : (ψ.next m fs).left ≤ ψ.left - 1 := by
  rcases ψ with (_ | ⟨dir, dirs⟩) | (_ | ⟨dir, dirs⟩) | _ | _ | _ <;> simp only [Phase.next] <;>
    try split
  all_goals simp [Phase.left]

theorem run_left (schedule : List ι) : ∀ {φ : ι → Phase}
    {s : System ι FsCmd FsReply Fate Fs Unit}, InPhases calls φ s →
      ∃ ψ, InPhases calls ψ (s.run FsCmd.exec schedule) ∧
        ∀ i, (ψ i).left ≤ (φ i).left - schedule.count i := by
  induction schedule with
  | nil => exact fun {φ s} h => ⟨φ, h, fun i => Nat.le_refl _⟩
  | cons j schedule ih =>
    intro φ s h
    obtain ⟨ψ, hψ, hleft⟩ := ih (step_phase h j).1
    refine ⟨ψ, hψ, fun i => (hleft i).trans ?_⟩
    by_cases hi : i = j
    · subst hi
      have hnext := left_next (calls i) s.world (φ i)
      rw [Function.update_self, List.count_cons_self]
      omega
    · rw [Function.update_of_ne hi, List.count_cons_of_ne (Ne.symm hi)]

end Step

def start {ι : Type} (calls : ι → Message) (fs : Fs) : System ι FsCmd FsReply Fate Fs Unit :=
  ⟨fun i => ⟨dumpmsgToFile (calls i), fun _ => .works⟩, fs⟩

theorem start_phases {ι : Type} (calls : ι → Message) (fs : Fs) :
    InPhases calls (fun i => .climbing (calls i).dirs) (start calls fs) :=
  fun _ => rfl

/-- Nine system calls are enough for every call. -/
theorem run_finishes {ι : Type} [DecidableEq ι] (calls : ι → Message) (fs : Fs) {schedule : List ι}
    (h : ∀ i, 9 ≤ schedule.count i) (i : ι) :
    (((start calls fs).run FsCmd.exec schedule).pool i).result.isSome := by
  obtain ⟨ψ, hψ, hleft⟩ := run_left schedule (start_phases calls fs)
  have hnone : (ψ i).left = 0 := by
    have := hleft i
    have := h i
    simp only [Phase.left, Message.dirs, List.length_cons, List.length_nil] at *
    omega
  have hdone : ψ i = .done := by
    cases hi : ψ i <;> simp_all [Phase.left]
  rw [hψ i, hdone]
  rfl

/-! ## Nothing is lost once the directories are there -/

section Kept
variable {ι : Type} [Fintype ι] [DecidableEq ι] {calls : ι → Message} {fs₀ fs : Fs} {φ : ι → Phase}

def finished (calls : ι → Message) (φ : ι → Phase) (path : Path) : Finset ι :=
  Finset.univ.filter fun i => φ i = .done ∧ (calls i).path = path

def Phase.Finds (dirs : Finset Path) : Phase → Prop
  | .climbing ds => ∀ dir ∈ ds, dir ∈ dirs
  | .making _ => False
  | .opening | .writing | .done => True

/-- All directories were there from the start, and the lines of the finished calls are in the
files. -/
structure Gathering (calls : ι → Message) (fs₀ : Fs) (φ : ι → Phase) (fs : Fs) : Prop where
  dirs : fs.dirs = fs₀.dirs
  finds : ∀ i, (φ i).Finds fs₀.dirs
  lines : ∀ path, ∃ l, fs.lines path = fs₀.lines path ++ l ∧
    (l : Multiset CString) = (finished calls φ path).val.map fun i => (calls i).buf

theorem finished_same {i : ι} {ψ : Phase} (h : ψ = .done ↔ φ i = .done) (path : Path) :
    finished calls (Function.update φ i ψ) path = finished calls φ path := by
  refine Finset.filter_congr fun j _ => and_congr_left fun _ => ?_
  by_cases hj : j = i
  · subst hj
    rw [Function.update_self, h]
  · rw [Function.update_of_ne hj]

theorem finished_done {i : ι} (path : Path) :
    finished calls (Function.update φ i .done) path =
      if (calls i).path = path then insert i (finished calls φ path)
      else finished calls φ path := by
  ext j
  by_cases hj : j = i
  · subst hj
    by_cases hpath : (calls j).path = path <;> simp [finished, hpath]
  · by_cases hpath : (calls i).path = path <;>
      simp [finished, hpath, hj]

omit [Fintype ι] in
theorem finds_update {dirs : Finset Path} {i : ι} {ψ : Phase} (h : ∀ j, (φ j).Finds dirs)
    (hψ : ψ.Finds dirs) : ∀ j, (Function.update φ i ψ j).Finds dirs :=
  (Function.forall_update_iff φ fun _ χ => χ.Finds dirs).mpr ⟨hψ, fun j _ => h j⟩

theorem Gathering.moved (h : Gathering calls fs₀ φ fs) {i : ι} {ψ : Phase}
    (hψ : ψ.Finds fs₀.dirs) (hdone : ψ = .done ↔ φ i = .done) :
    Gathering calls fs₀ (Function.update φ i ψ) fs :=
  ⟨h.dirs, finds_update h.finds hψ, fun path => by rw [finished_same hdone]; exact h.lines path⟩

theorem Gathering.wrote (h : Gathering calls fs₀ φ fs) {i : ι} (hi : φ i = .writing) :
    Gathering calls fs₀ (Function.update φ i .done) (Phase.effect (calls i) fs .writing) := by
  have hnew : ∀ path, i ∉ finished calls φ path := fun path hmem => by
    simp [finished, hi] at hmem
  refine ⟨h.dirs, finds_update h.finds trivial, fun path => ?_⟩
  obtain ⟨l, hl, hmul⟩ := h.lines path
  rw [finished_done]
  by_cases hpath : (calls i).path = path
  · subst hpath
    refine ⟨l ++ [(calls i).buf], ?_, ?_⟩
    · simp only [Phase.effect, Function.update_self, hl, List.append_assoc]
    · rw [if_pos rfl, Finset.insert_val_of_notMem (hnew _), Multiset.map_cons, ← hmul,
        ← Multiset.coe_add, add_comm]
      rfl
  · rw [if_neg hpath]
    refine ⟨l, ?_, hmul⟩
    simp only [Phase.effect, Function.update_of_ne (Ne.symm hpath), hl]

theorem Gathering.step (hmonth : ∀ i, (calls i).mDir ∈ fs₀.dirs) (h : Gathering calls fs₀ φ fs)
    (i : ι) : Gathering calls fs₀ (Function.update φ i ((φ i).next (calls i) fs))
      ((φ i).effect (calls i) fs) := by
  have hm : (calls i).mDir ∈ fs.dirs := h.dirs ▸ hmonth i
  have hfinds := h.finds i
  cases hφ : φ i with
  | climbing ds =>
    rw [hφ] at hfinds
    cases ds with
    | nil =>
      simp only [Phase.next, Phase.effect, hm, if_true]
      exact h.moved trivial (by simp [hφ])
    | cons dir ds =>
      obtain ⟨hdir, hds⟩ := List.forall_mem_cons.mp hfinds
      rw [← h.dirs] at hdir
      simp only [Phase.next, Phase.effect, hdir, if_true]
      exact h.moved hds (by simp [hφ])
  | making ds =>
    rw [hφ] at hfinds
    exact hfinds.elim
  | opening =>
    simp only [Phase.next, Phase.effect, hm, if_true]
    exact h.moved trivial (by simp [hφ])
  | writing => exact h.wrote hφ
  | done => exact h.moved trivial (by simp [hφ, Phase.next])

/-- When the directories of the month are there, every message that is logged ends up in its file
once and as a whole, behind what was there, whatever the interleaving. The messages are those that
the calls have formatted. -/
theorem messages_kept (hdirs : ∀ i, ∀ dir ∈ (calls i).dirs, dir ∈ fs.dirs) (schedule : List ι)
    (hdone : ∀ i, (((start calls fs).run FsCmd.exec schedule).pool i).result.isSome) (path : Path) :
    ∃ l, ((start calls fs).run FsCmd.exec schedule).world.lines path = fs.lines path ++ l ∧
      (l : Multiset CString) = ((Finset.univ : Finset ι).filter fun i =>
        (calls i).path = path).val.map (fun i => (calls i).buf) ∧
      ∀ logs : ι → LogCall, (∀ i, Returns (logs i).message (· = calls i)) →
        (l : Multiset CString) = ((Finset.univ : Finset ι).filter fun i =>
          (calls i).path = path).val.map fun i => (logs i).text := by
  have hmonth : ∀ i, (calls i).mDir ∈ fs.dirs := fun i => hdirs i _ (by simp [Message.dirs])
  have hstart : Gathering calls fs (fun i => .climbing (calls i).dirs) (start calls fs).world := by
    exact ⟨rfl, hdirs, fun path => ⟨[], by simp [start], by simp [finished]⟩⟩
  obtain ⟨ψ, hphases, hend⟩ := run_phases (fun φ fs' i hJ => hJ.step hmonth i) schedule
    (start_phases calls fs) hstart
  obtain ⟨l, hl, hmul⟩ := hend.lines path
  have hall : finished calls ψ path = (Finset.univ : Finset ι).filter fun i =>
      (calls i).path = path :=
    Finset.filter_congr fun i _ => by simp [phase_done hphases (hdone i)]
  rw [hall] at hmul
  refine ⟨l, hl, hmul, fun logs hlogs => hmul.trans ?_⟩
  apply Multiset.map_congr rfl
  intro i _
  exact buf_of_message (hlogs i)

/-- Two programs that log at the same time on the same day. -/
def twoLogs (i : Bool) : LogCall where
  moduleName := cstr "cgi"
  procName := cstr "login"
  filename := cstr "src/cgi/cgi_login.c"
  line := 222
  fmt := cstr "buf = %s\n"
  args := [.str (if i then cstr "first" else cstr "second")]
  stamped := ⟨2026, 2, 28, 23, 59, 59⟩
  filed := ⟨2026, 2, 28, 23, 59, 59⟩

def twoCalls (i : Bool) : Message :=
  ⟨(twoLogs i).moduleName, (twoLogs i).procName, (twoLogs i).filed, (twoLogs i).text⟩

theorem twoLogs_message (i : Bool) : Returns (twoLogs i).message (· = twoCalls i) := by
  refine returns_message.mpr ⟨?_, rfl⟩
  cases i <;> decide +kernel

def inTurns : List Bool := (List.replicate 9 [true, false]).flatten

theorem inTurns_count (i : Bool) : 9 ≤ inTurns.count i := by
  cases i <;> decide

def monthFs : Fs := ⟨(twoCalls true).dirs.toFinset, fun _ => []⟩

theorem dirs_monthFs (i : Bool) : ∀ dir ∈ (twoCalls i).dirs, dir ∈ monthFs.dirs := by
  simp only [monthFs, List.mem_toFinset, Message.dirs, Message.mDir, twoCalls]
  exact fun _ hdir => hdir

theorem messages_kept_twoCalls :
    ∃ l : List CString, ((start twoCalls monthFs).run FsCmd.exec inTurns).world.lines
        (twoCalls true).path = monthFs.lines (twoCalls true).path ++ l ∧
      (l : Multiset CString) = ((Finset.univ : Finset Bool).filter fun i =>
        (twoCalls i).path = (twoCalls true).path).val.map fun i => (twoLogs i).text := by
  obtain ⟨l, hl, -, htexts⟩ :=
    messages_kept dirs_monthFs inTurns (run_finishes twoCalls monthFs inTurns_count) _
  exact ⟨l, hl, htexts twoLogs twoLogs_message⟩

end Kept

/-! ## The directories of a new month -/

section Made
variable {ι : Type} [DecidableEq ι] {calls : ι → Message} {fs₀ fs : Fs} {φ : ι → Phase} {dir : Path}

structure Closed (fs : Fs) : Prop where
  top : [] ∈ fs.dirs
  parents : ∀ dir ∈ fs.dirs, dir.dropLast ∈ fs.dirs

/-- What is left of the way to the month, below a directory that is there. -/
def Phase.Ahead (m : Message) (fs : Fs) : Phase → Prop
  | .climbing ds | .making ds => ds <:+ m.dirs ∧ ∀ dir ∈ ds.head?, dir.dropLast ∈ fs.dirs
  | .opening | .writing | .done => True

theorem dirs_chain (m : Message) : m.dirs.IsChain fun p q => q.dropLast = p ∧ q ≠ p := by
  simp [Message.dirs, Message.mDir]

theorem last_dir {m : Message} (h : [dir] <:+ m.dirs) : dir = m.mDir := by
  obtain ⟨t, ht⟩ := h
  have hlast := congrArg List.getLast? ht
  simpa [Message.dirs] using hlast

theorem below_month {m : Message} {ds : List Path} (h : m.mDir :: ds <:+ m.dirs) : ds = [] := by
  simpa [Message.dirs, Message.mDir, List.suffix_cons_iff] using h

theorem next_dir {m : Message} {dir' : Path} {ds : List Path} (h : dir :: dir' :: ds <:+ m.dirs) :
    dir'.dropLast = dir ∧ dir' ≠ dir :=
  (List.isChain_cons_cons.mp ((dirs_chain m).suffix h)).1

theorem tail_dirs {m : Message} {ds : List Path} (h : dir :: ds <:+ m.dirs) : ds <:+ m.dirs :=
  (List.suffix_cons dir ds).trans h

section Phase
variable {m : Message} {ψ : Phase}

theorem dirs_effect (m : Message) (fs : Fs) (ψ : Phase) : fs.dirs ⊆ (ψ.effect m fs).dirs := by
  rcases ψ with ds | (_ | ⟨dir, ds⟩) | _ | _ | _ <;> try exact Finset.Subset.refl _
  simp only [Phase.effect]
  split
  · exact Finset.subset_insert _ _
  · exact Finset.Subset.refl _

theorem lines_effect (m : Message) (fs : Fs) (ψ : Phase) (path : Path) :
    fs.lines path <+: (ψ.effect m fs).lines path := by
  rcases ψ with ds | (_ | ⟨dir, ds⟩) | _ | _ | _ <;> try exact List.prefix_refl _
  · simp only [Phase.effect]
    split <;> exact List.prefix_refl _
  · by_cases hpath : path = m.path
    · subst hpath
      simp only [Phase.effect, Function.update_self]
      exact List.prefix_append _ _
    · simp only [Phase.effect, Function.update_of_ne hpath]
      exact List.prefix_refl _

theorem Closed.effect (h : Closed fs) (m : Message) (ψ : Phase) : Closed (ψ.effect m fs) := by
  rcases ψ with ds | (_ | ⟨dir, ds⟩) | _ | _ | _ <;> try exact ⟨h.top, h.parents⟩
  simp only [Phase.effect]
  split
  next hmade =>
    refine ⟨Finset.mem_insert_of_mem h.top, fun d hd => ?_⟩
    rcases Finset.mem_insert.mp hd with rfl | hd
    · exact Finset.mem_insert_of_mem hmade.2
    · exact Finset.mem_insert_of_mem (h.parents d hd)
  next => exact h

theorem Phase.Ahead.mono {fs' : Fs} (h : ψ.Ahead m fs) (hsub : fs.dirs ⊆ fs'.dirs) :
    ψ.Ahead m fs' := by
  cases ψ with
  | climbing ds => exact ⟨h.1, fun dir hdir => hsub (h.2 dir hdir)⟩
  | making ds => exact ⟨h.1, fun dir hdir => hsub (h.2 dir hdir)⟩
  | opening => trivial
  | writing => trivial
  | done => trivial

theorem ahead_tail {ds : List Path} (h : dir :: ds <:+ m.dirs) (hdir : dir ∈ fs.dirs) :
    ds <:+ m.dirs ∧ ∀ dir' ∈ ds.head?, dir'.dropLast ∈ fs.dirs := by
  refine ⟨tail_dirs h, fun dir' hdir' => ?_⟩
  cases ds with
  | nil => simp at hdir'
  | cons d ds =>
    obtain rfl : d = dir' := by simpa using hdir'
    rwa [(next_dir h).1]

theorem Phase.Ahead.next (h : ψ.Ahead m fs) : (ψ.next m fs).Ahead m (ψ.effect m fs) := by
  rcases ψ with (_ | ⟨dir, ds⟩) | (_ | ⟨dir, ds⟩) | _ | _ | _
  · simp only [Phase.next]
    split <;> trivial
  · simp only [Phase.next, Phase.effect]
    split
    next hdir => exact ahead_tail h.1 hdir
    next => exact h
  · simp only [Phase.next]
    split <;> trivial
  · simp only [Phase.next, Phase.effect]
    split
    next => exact ahead_tail h.1 (Finset.mem_insert_self dir fs.dirs)
    next => trivial
  · simp only [Phase.next]
    split <;> trivial
  · trivial
  · trivial

end Phase

/-- The next directory that is missing is being made, or nobody has found one missing yet. -/
def Progress (dir : Path) (φ : ι → Phase) (fs : Fs) : Prop :=
  dir ∈ fs.dirs ∨ (∃ j d ds, φ j = .making (d :: ds) ∧ d ∉ fs.dirs) ∨
    ∀ j, ∃ d ds, φ j = .climbing (d :: ds)

/-- Past `make_path`, or with the last directory made. -/
def Phase.Certain : Phase → Prop
  | .climbing [] | .making [] | .opening | .writing => True
  | _ => False

/-- While a month's directory is new: somebody who saw it has still to write, or has written. -/
def Written (calls : ι → Message) (dir : Path) (fs₀ : Fs) (φ : ι → Phase) (fs : Fs) : Prop :=
  dir ∈ fs.dirs → dir ∈ fs₀.dirs ∨ ∃ i, (φ i).Certain ∨ (calls i).buf ∈ fs.lines (calls i).path

structure Underway (calls : ι → Message) (dir : Path) (fs₀ : Fs) (φ : ι → Phase) (fs : Fs) :
    Prop where
  closed : Closed fs
  ahead : ∀ i, (φ i).Ahead (calls i) fs
  progress : Progress dir φ fs
  written : Written calls dir fs₀ φ fs

theorem progress_other {i : ι} {ψ : Phase} {fs' : Fs} (hdirs : fs'.dirs = fs.dirs)
    (hi : ∀ d ds, φ i = .making (d :: ds) → d ∈ fs.dirs)
    (hclimb : ∀ d ds, φ i = .climbing (d :: ds) → dir ∈ fs.dirs ∨ ∃ d ds, ψ = .climbing (d :: ds))
    (h : Progress dir φ fs) : Progress dir (Function.update φ i ψ) fs' := by
  rw [Progress, hdirs]
  rcases h with hdir | ⟨j, d, ds, hj, hd⟩ | hall
  · exact .inl hdir
  · refine .inr (.inl ⟨j, d, ds, ?_, hd⟩)
    rw [Function.update_of_ne, hj]
    rintro rfl
    exact hd (hi d ds hj)
  · obtain ⟨d, ds, hφ⟩ := hall i
    rcases hclimb d ds hφ with hdir | hψ
    · exact .inl hdir
    · refine .inr (.inr fun j => ?_)
      by_cases hj : j = i
      · subst hj
        rwa [Function.update_self]
      · rw [Function.update_of_ne hj]
        exact hall j

theorem Underway.progress_step (h : Underway calls dir fs₀ φ fs) (hsame : ∀ i, (calls i).mDir = dir)
    (i : ι) : Progress dir (Function.update φ i ((φ i).next (calls i) fs))
      ((φ i).effect (calls i) fs) := by
  have hahead := h.ahead i
  cases hφ : φ i with
  | climbing ds =>
    rw [hφ] at hahead
    cases ds with
    | nil =>
      exact progress_other rfl (by simp [hφ]) (by simp [hφ]) h.progress
    | cons d ds =>
      simp only [Phase.next, Phase.effect]
      split
      next hd =>
        refine progress_other rfl (by simp [hφ]) (fun d' ds' heq => ?_) h.progress
        obtain ⟨rfl, rfl⟩ := List.cons.inj (Phase.climbing.inj (hφ.symm.trans heq))
        cases ds with
        | nil =>
          refine .inl ?_
          rwa [← hsame i, ← last_dir hahead.1]
        | cons d' ds => exact .inr ⟨d', ds, rfl⟩
      next hd => exact .inr (.inl ⟨i, d, ds, Function.update_self .., hd⟩)
  | making ds =>
    rw [hφ] at hahead
    cases ds with
    | nil => exact progress_other rfl (by simp [hφ]) (by simp [hφ]) h.progress
    | cons d ds =>
      have hparent : d.dropLast ∈ fs.dirs := hahead.2 d rfl
      simp only [Phase.next, Phase.effect]
      split
      next hmade =>
        cases ds with
        | nil =>
          refine .inl ?_
          rw [← hsame i, ← last_dir hahead.1]
          exact Finset.mem_insert_self d fs.dirs
        | cons d' ds =>
          refine .inr (.inl ⟨i, d', ds, Function.update_self .., fun hmem => ?_⟩)
          obtain ⟨hchild, hne⟩ := next_dir hahead.1
          rcases Finset.mem_insert.mp hmem with rfl | hmem
          · exact hne rfl
          · exact hmade.1 (hchild ▸ h.closed.parents d' hmem)
      next hfail =>
        refine progress_other rfl (fun d' ds' heq => ?_) (by simp [hφ]) h.progress
        obtain ⟨rfl, rfl⟩ := List.cons.inj (Phase.making.inj (hφ.symm.trans heq))
        by_contra hd
        exact hfail ⟨hd, hparent⟩
  | opening => exact progress_other rfl (by simp [hφ]) (by simp [hφ]) h.progress
  | writing => exact progress_other rfl (by simp [hφ]) (by simp [hφ]) h.progress
  | done => exact progress_other rfl (by simp [hφ]) (by simp [hφ]) h.progress

theorem certain_next {m : Message} {ψ : Phase} (hdir : m.mDir ∈ fs.dirs) (h : ψ.Certain) :
    (ψ.next m fs).Certain ∨ m.buf ∈ (ψ.effect m fs).lines m.path := by
  rcases ψ with (_ | ⟨d, ds⟩) | (_ | ⟨d, ds⟩) | _ | _ | _
  · simp [Phase.next, hdir, Phase.Certain]
  · exact h.elim
  · simp [Phase.next, hdir, Phase.Certain]
  · exact h.elim
  · simp [Phase.next, hdir, Phase.Certain]
  · simp [Phase.effect]
  · exact h.elim

theorem Underway.written_step (h : Underway calls dir fs₀ φ fs) (hsame : ∀ i, (calls i).mDir = dir)
    (i : ι) : Written calls dir fs₀ (Function.update φ i ((φ i).next (calls i) fs))
      ((φ i).effect (calls i) fs) := by
  intro hnow
  by_cases hdir : dir ∈ fs.dirs
  · apply (h.written hdir).imp_right
    rintro ⟨k, hk⟩
    refine ⟨k, ?_⟩
    rcases hk with hk | hk
    · by_cases hki : k = i
      · subst hki
        rw [Function.update_self]
        exact certain_next (by rwa [hsame]) hk
      · rw [Function.update_of_ne hki]
        exact .inl hk
    · exact .inr ((lines_effect _ fs _ _).subset hk)
  · -- the directory has just been made
    have hahead := h.ahead i
    refine .inr ⟨i, .inl ?_⟩
    rw [Function.update_self]
    rcases hφ : φ i with ds | (_ | ⟨d, ds⟩) | _ | _ | _ <;> rw [hφ] at hnow hahead <;>
      try exact absurd hnow hdir
    simp only [Phase.effect] at hnow
    split at hnow
    next hmade =>
      obtain rfl : d = dir := by
        rcases Finset.mem_insert.mp hnow with heq | hmem
        · exact heq.symm
        · exact absurd hmem hdir
      obtain rfl : ds = [] := below_month (by rw [hsame]; exact hahead.1)
      rw [Phase.next, if_pos hmade]
      trivial
    next => exact absurd hnow hdir

theorem Underway.step (h : Underway calls dir fs₀ φ fs) (hsame : ∀ i, (calls i).mDir = dir)
    (i : ι) :
    Underway calls dir fs₀ (Function.update φ i ((φ i).next (calls i) fs))
      ((φ i).effect (calls i) fs) where
  closed := h.closed.effect (calls i) (φ i)
  ahead := (Function.forall_update_iff φ fun j ψ => ψ.Ahead (calls j) _).mpr
    ⟨(h.ahead i).next, fun j _ => (h.ahead j).mono (dirs_effect (calls i) fs (φ i))⟩
  progress := h.progress_step hsame i
  written := h.written_step hsame i

/-- At the turn of a month the programs race to make its directories. Each call gives up on the
first that another has made, so lines can be lost; but the directory of the month is there in the
end, and the call that made it has written its line. -/
theorem month_made [Nonempty ι] (hsame : ∀ i, (calls i).mDir = dir) (hclosed : Closed fs)
    (schedule : List ι)
    (hdone : ∀ i, (((start calls fs).run FsCmd.exec schedule).pool i).result.isSome) :
    dir ∈ ((start calls fs).run FsCmd.exec schedule).world.dirs ∧ (dir ∈ fs.dirs ∨
      ∃ i, (calls i).buf ∈
        ((start calls fs).run FsCmd.exec schedule).world.lines (calls i).path) := by
  have hstart : Underway calls dir fs (fun i => .climbing (calls i).dirs)
      (start calls fs).world := by
    refine ⟨hclosed, fun i => ⟨List.suffix_refl _, ?_⟩, .inr (.inr fun j => ⟨_, _, rfl⟩), .inl⟩
    simpa [Message.dirs, start] using hclosed.top
  obtain ⟨ψ, hphases, hend⟩ := run_phases (fun φ fs' i hJ => hJ.step hsame i) schedule
    (start_phases calls fs) hstart
  have hψ : ∀ i, ψ i = .done := fun i => phase_done hphases (hdone i)
  have hmade : dir ∈ ((start calls fs).run FsCmd.exec schedule).world.dirs := by
    rcases hend.progress with hdir | ⟨j, d, ds, hj, -⟩ | hall
    · exact hdir
    · simp [hψ j] at hj
    · obtain ⟨d, ds, hj⟩ := hall (Classical.arbitrary ι)
      simp [hψ] at hj
  refine ⟨hmade, (hend.written hmade).imp_right ?_⟩
  rintro ⟨i, hi | hi⟩
  · rw [hψ i] at hi
    exact hi.elim
  · exact ⟨i, hi⟩

def emptyFs : Fs := ⟨{[]}, fun _ => []⟩

theorem closed_emptyFs : Closed emptyFs := ⟨by simp [emptyFs], by simp [emptyFs]⟩

theorem mDir_twoCalls (i : Bool) : (twoCalls i).mDir = (twoCalls true).mDir := by
  simp only [Message.mDir, twoCalls, twoLogs]

theorem month_made_twoCalls :
    (twoCalls true).mDir ∈ ((start twoCalls emptyFs).run FsCmd.exec inTurns).world.dirs ∧
      ((twoCalls true).mDir ∈ emptyFs.dirs ∨ ∃ i, (twoCalls i).buf ∈
        ((start twoCalls emptyFs).run FsCmd.exec inTurns).world.lines (twoCalls i).path) :=
  month_made mDir_twoCalls closed_emptyFs inTurns (run_finishes twoCalls emptyFs inTurns_count)

end Made

end LogMessages
