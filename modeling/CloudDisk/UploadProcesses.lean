import CloudDisk.ByteBuffers
import CloudDisk.HandlerEffects
import CloudDisk.RequestLoops
import CloudDisk.UploadBodies

/-! # The processes of an upload

`upload_to_dstorage` and `make_file_url` each fork a child that turns into a client of the
storage, and read what it prints through a pipe. Where `execlp` returns, the child has nothing
that ends it: it returns 0 like its parent would and goes on in `main`, through the rest of the
request and back to `FCGI_Accept`. Its standard output is the pipe, so the parent waits for it in
`read`.

The processes of one request take their steps in any order. What a process does after it is back
at `FCGI_Accept` belongs to other requests. -/
namespace UploadProcesses

open ByteStrings CheckedCode ByteBuffers CommandPrograms DiskState DiskHandlers HandlerRules
  HandlerEffects RequestLoops UploadBodies

/-! ## What is read from the clients -/

def trimSpace (s : CString) : CString := ((s.dropWhile isSpace).reverse.dropWhile isSpace).reverse

/-- `read(fd[0], buf, TEMP_BUF_MAX_LEN)` into zeros, seen as a string. -/
def readPipe (bytes : List UInt8) : Checked CString := do
  let buf ← (Buffer.zeroed tempBufMaxLen).write 0 (bytes.take tempBufMaxLen)
  buf.text

/-- There are no blanks in front of the text, or at least as many as the text is long. -/
def FarApart (s : CString) : Prop :=
  (s.takeWhile isSpace).length = 0 ∨ (trimSpace s).length ≤ (s.takeWhile isSpace).length

instance (s : CString) : Decidable (FarApart s) := inferInstanceAs (Decidable (_ ∨ _))

/-- `trim_space`, which moves the text to the front with `strncpy`. -/
def trimmed (s : CString) : Checked CString :=
  if FarApart s then pure (trimSpace s) else throw .overlap

def readFileid (bytes : List UInt8) : Checked CString := do trimmed (← readPipe bytes)

def notFound : Option CString → Checked CString
  | none => throw .nullPointer
  | some s => pure s

def hostNameLen : ℕ := 30
def fileUrlLen : ℕ := 512

/-- The line of `fdfs_file_info` with the address, and the url made of it; `port` is that of
the configuration. -/
def fileUrl (port fileid bytes : CString) : Checked CString := do
  let buf ← readPipe bytes
  let p ← notFound (RequestLoops.strstr (cstr "source ip address: ") buf)
  let q := p.drop (cstr "source ip address: ").length
  let k ← notFound (RequestLoops.strstr [10] q)
  let hostName ← copyString hostNameLen (q.take (q.length - k.length))
  copyString fileUrlLen (cstr "http://" ++ hostName ++ cstr ":" ++ port ++ cstr "/" ++ fileid)

/-! ## Processes -/

/-- How `pipe`, `fork` and `execlp` end: what the client prints, or nothing when `execlp`
returns. -/
structure Forking where
  pipe : Bool
  fork : Bool
  exec : Option (List UInt8)

def Forking.forks (f : Forking) : Bool := f.pipe && f.fork

def Forking.Failed (f : Forking) : Prop := f.forks = false ∨ f.exec = none

structure Outcomes where
  upload : Forking
  info : Forking

/-- The process that accepted the request, and the children of the two forks. -/
inductive Pid where
  | original
  | uploader
  | informer
  deriving DecidableEq

inductive Place where
  | callUpload
  | execUpload
  | readId
  | callInfo (fileid : CString)
  | execInfo (fileid : CString)
  | readInfo (fileid : CString)
  | callStore (fileid url : CString)
  | finish (success : Bool)
  | accepting
  | client (output : List UInt8)
  | gone
  deriving DecidableEq

/-- What `recv_save_file` has left in the buffers of `main`, what is in `size`, the time and the
port of the configuration. -/
structure Job extends Info where
  size : ℤ
  now : CString
  port : CString

/-- `pipe` is what a child has written for its parent, `stored` the calls of
`store_fileinfo_to_mysql` so far. -/
structure State where
  place : Pid → Option Place
  pipe : Pid → List UInt8
  disk : Disk
  stored : List (Pid × CString × CString)

def State.move (s : State) (p : Pid) (a : Place) : State :=
  { s with place := Function.update s.place p (some a) }

theorem State.place_move (s : State) (p : Pid) (a : Place) : (s.move p a).place p = some a :=
  Function.update_self ..

theorem State.place_move_of_ne (s : State) {p q : Pid} (h : q ≠ p) (a : Place) :
    (s.move p a).place q = s.place q :=
  Function.update_of_ne h ..

def State.print (s : State) (p : Pid) (output : List UInt8) : State :=
  { s.move p .gone with pipe := Function.update s.pipe p output }

def State.store (s : State) (u : Job) (e : ℕ → Outcome) (p : Pid) (fileid url : CString) :
    State :=
  let r := (storeFileinfoToMysql u.now u.user u.filename u.md5 u.size fileid url).run Cmd.exec e
    s.disk
  { s.move p (.finish (0 ≤ r.1)) with
    disk := r.2
    stored := (p, fileid, url) :: s.stored }

/-- A `read` returns when there is something in the pipe or nobody is left to write. -/
def State.readable (s : State) (child : Pid) : Bool :=
  s.pipe child ≠ [] ∨ s.place child = some .gone

def afterReadId : Checked CString → Place
  | .error _ => .gone
  | .ok fileid => if fileid = [] then .finish false else .callInfo fileid

def afterReadInfo (fileid : CString) : Checked CString → Place
  | .error _ => .gone
  | .ok url => .callStore fileid url

/-- One step of a process that is at this place, unless it waits. -/
def act (u : Job) (o : Outcomes) (e : ℕ → Outcome) (p : Pid) (s : State) :
    Place → Option State
  | .callUpload => some (if o.upload.forks then (s.move p .readId).move .uploader .execUpload
      else s.move p (.finish false))
  | .execUpload => some (s.move p (o.upload.exec.elim (.callInfo []) .client))
  | .readId =>
    if s.readable .uploader then some (s.move p (afterReadId (readFileid (s.pipe .uploader))))
    else none
  | .callInfo fileid => some (if o.info.forks then
      (s.move p (.readInfo fileid)).move .informer (.execInfo fileid)
      else s.move p (.finish false))
  | .execInfo fileid => some (s.move p (o.info.exec.elim (.callStore fileid []) .client))
  | .readInfo fileid =>
    if s.readable .informer then
      some (s.move p (afterReadInfo fileid (fileUrl u.port fileid (s.pipe .informer))))
    else none
  | .callStore fileid url => some (s.store u e p fileid url)
  | .finish _ => some (s.move p .accepting)
  | .client output => some (s.print p output)
  | .accepting => none
  | .gone => none

def next (u : Job) (o : Outcomes) (e : ℕ → Outcome) (p : Pid) (s : State) : Option State :=
  (s.place p).bind (act u o e p s)

/-- A body has been accepted, and the file is on its way to the storage. -/
def received (d : Disk) : State where
  place p := if p = .original then some .callUpload else none
  pipe _ := []
  disk := d
  stored := []

inductive Reachable (u : Job) (o : Outcomes) (d : Disk) : State → Prop where
  | received : Reachable u o d (received d)
  | step {s s' : State} {p : Pid} {e : ℕ → Outcome} (h : Reachable u o d s)
      (hs : next u o e p s = some s') : Reachable u o d s'

def Reaches (s : State) (p : Pid) : Prop :=
  (∃ fileid url, s.place p = some (.callStore fileid url)) ∨
    ∃ fileid url, (p, fileid, url) ∈ s.stored

/-- What is expected of an upload: one process stores, with an id that the client printed, and
a client that cannot be run leaves no trace. -/
structure Sound (o : Outcomes) (d : Disk) (failed : Prop) (s : State) : Prop where
  once : ∀ p q, Reaches s p → Reaches s q → p = q
  printed : ∀ p fileid url, (p, fileid, url) ∈ s.stored →
    fileid ≠ [] ∧ ∃ output, o.upload.exec = some output ∧ readFileid output = .ok fileid
  quiet : failed → s.disk = d ∧ ∀ p, s.place p = some .accepting → p = .original

/-- The child of the first fork has come back from `execlp`. -/
def Stray (o : Outcomes) : Prop := o.upload.forks ∧ o.upload.exec = none

/-- The stray child ends before it gets anywhere: `fdfs_file_info` runs, and what it prints about
the empty id has no usable address line, which `make_file_url` does not survive. -/
def StrayDies (u : Job) (o : Outcomes) : Prop :=
  o.info.forks ∧ ∃ output, o.info.exec = some output ∧ ∀ url, fileUrl u.port [] output ≠ .ok url

def Printed (o : Outcomes) (fileid : CString) : Prop :=
  o.upload.forks ∧ fileid ≠ [] ∧
    ∃ output, o.upload.exec = some output ∧ readFileid output = .ok fileid

def UploadRuns (u : Job) (o : Outcomes) : Prop := Stray o → StrayDies u o

def InfoRuns (o : Outcomes) : Prop := ∀ fileid, Printed o fileid → o.info.forks → o.info.exec ≠ none

/-! ## Where a process can be -/

/-- A process gets to a place only with certain outcomes. -/
inductive Local (u : Job) (o : Outcomes) : Pid → Place → Prop where
  | start : Local u o .original .callUpload
  | waits (h : o.upload.forks) : Local u o .original .readId
  | printed {fileid : CString} (h : Printed o fileid) : Local u o .original (.callInfo fileid)
  | asks {fileid : CString} (h : Printed o fileid) (hf : o.info.forks) :
      Local u o .original (.readInfo fileid)
  | stores {fileid url : CString} (h : Printed o fileid) (hf : o.info.forks)
      (hx : o.info.exec ≠ none) : Local u o .original (.callStore fileid url)
  | finish (success : Bool) : Local u o .original (.finish success)
  | accepting : Local u o .original .accepting
  | died : Local u o .original .gone
  | child (h : o.upload.forks) : Local u o .uploader .execUpload
  | client {output : List UInt8} (hx : o.upload.exec = some output) :
      Local u o .uploader (.client output)
  | clientGone (hx : o.upload.exec ≠ none) : Local u o .uploader .gone
  | stray (h : Stray o) : Local u o .uploader (.callInfo [])
  | strayAsks (h : Stray o) (hf : o.info.forks) : Local u o .uploader (.readInfo [])
  | strayStores {url : CString} (h : Stray o) (hd : ¬ StrayDies u o) (hx : o.info.exec ≠ none) :
      Local u o .uploader (.callStore [] url)
  | strayFinish (h : Stray o) (hd : ¬ StrayDies u o) (success : Bool) :
      Local u o .uploader (.finish success)
  | strayAccepting (h : Stray o) (hd : ¬ StrayDies u o) : Local u o .uploader .accepting
  | strayDied (h : Stray o) : Local u o .uploader .gone
  | infoChild {fileid : CString} (h : Printed o fileid ∨ (Stray o ∧ fileid = []))
      (hf : o.info.forks) : Local u o .informer (.execInfo fileid)
  | infoClient {output : List UInt8} (hx : o.info.exec = some output) :
      Local u o .informer (.client output)
  | infoGone (hx : o.info.exec ≠ none) : Local u o .informer .gone
  | infoStores {fileid : CString} (h : Printed o fileid ∨ (Stray o ∧ fileid = []))
      (hf : o.info.forks) (hx : o.info.exec = none) : Local u o .informer (.callStore fileid [])
  | infoFinish {fileid : CString} (h : Printed o fileid ∨ (Stray o ∧ fileid = []))
      (hf : o.info.forks) (hx : o.info.exec = none) (success : Bool) :
      Local u o .informer (.finish success)
  | infoAccepting {fileid : CString} (h : Printed o fileid ∨ (Stray o ∧ fileid = []))
      (hf : o.info.forks) (hx : o.info.exec = none) : Local u o .informer .accepting

/-- A child has written what its client prints, or nothing yet. -/
def Piped (exec : Option (List UInt8)) (s : State) (child : Pid) : Prop :=
  (exec = none → s.pipe child = []) ∧ ∀ output, exec = some output →
    s.pipe child = output ∨ (s.pipe child = [] ∧ s.place child ≠ some .gone)

structure Inv (u : Job) (o : Outcomes) (d : Disk) (s : State) : Prop where
  places : ∀ p a, s.place p = some a → Local u o p a
  uploadPipe : Piped o.upload.exec s .uploader
  infoPipe : Piped o.info.exec s .informer
  calls : ∀ p fileid url, (p, fileid, url) ∈ s.stored → Local u o p (.callStore fileid url)
  disk : s.stored = [] → s.disk = d

/-! ## Steps -/

section Steps
variable {u : Job} {o : Outcomes} {d : Disk} {s s' : State} {e : ℕ → Outcome} {p : Pid}

theorem readFileid_nothing : readFileid [] = .ok [] := by decide

theorem fileUrl_nothing (port fileid : CString) (url : CString) :
    fileUrl port fileid [] ≠ .ok url := by
  have hread : readPipe [] = .ok [] := by decide
  have hnone : RequestLoops.strstr (cstr "source ip address: ") [] = none := by decide
  simp [fileUrl, hread, hnone, notFound, bind, Except.bind]

theorem Piped.read {exec : Option (List UInt8)} {child : Pid} (h : Piped exec s child)
    (hr : s.readable child) : s.pipe child = exec.getD [] := by
  cases exec with
  | none => exact h.1 rfl
  | some output =>
    rcases h.2 output rfl with hpipe | ⟨hpipe, hplace⟩
    · exact hpipe
    · simp [State.readable, hpipe, hplace] at hr

theorem piped_move {exec : Option (List UInt8)} {child : Pid} {a : Place}
    (h : Piped exec s child) (hg : p = child → a = .gone → exec = none) :
    Piped exec (s.move p a) child := by
  refine ⟨h.1, fun output hx => ?_⟩
  rcases h.2 output hx with hpipe | ⟨hpipe, hplace⟩
  · exact .inl hpipe
  · refine .inr ⟨hpipe, ?_⟩
    by_cases hp : child = p
    · subst hp
      rw [s.place_move]
      intro ha
      rw [hg rfl (Option.some.inj ha)] at hx
      cases hx
    · rw [s.place_move_of_ne hp]
      exact hplace

theorem inv_move (h : Inv u o d s) {a : Place} (hl : Local u o p a)
    (hup : p = .uploader → a = .gone → o.upload.exec = none)
    (hinfo : p = .informer → a = .gone → o.info.exec = none) : Inv u o d (s.move p a) := by
  refine ⟨fun q b hq => ?_, piped_move h.uploadPipe hup, piped_move h.infoPipe hinfo, h.calls,
    h.disk⟩
  by_cases hqp : q = p
  · subst hqp
    rw [s.place_move] at hq
    exact Option.some.inj hq ▸ hl
  · rw [s.place_move_of_ne hqp] at hq
    exact h.places q b hq

theorem inv_go (h : Inv u o d s) {a : Place} (hl : Local u o p a) (ha : a ≠ .gone) :
    Inv u o d (s.move p a) :=
  inv_move h hl (fun _ h => absurd h ha) fun _ h => absurd h ha

theorem inv_store (h : Inv u o d s) {fileid url : CString}
    (hl : Local u o p (.callStore fileid url)) (hfinish : ∀ b, Local u o p (.finish b)) :
    Inv u o d (s.store u e p fileid url) := by
  have hmove : ∀ b, Inv u o d (s.move p (.finish b)) := fun b => inv_go h (hfinish b) (by simp)
  refine ⟨(hmove _).places, (hmove _).uploadPipe, (hmove _).infoPipe, ?_, fun hnil => ?_⟩
  · intro q id url' hq
    rcases List.mem_cons.mp hq with heq | hq
    · obtain ⟨rfl, hpair⟩ := Prod.mk.inj heq
      obtain ⟨rfl, rfl⟩ := Prod.mk.inj hpair
      exact hl
    · exact h.calls q id url' hq
  · cases hnil

theorem piped_print {exec : Option (List UInt8)} {child : Pid} {output : List UInt8}
    (h : Piped exec s child) (hx : p = child → exec = some output) :
    Piped exec (s.print p output) child := by
  by_cases hp : child = p
  · subst hp
    refine ⟨fun hno => absurd (hno.symm.trans (hx rfl)) (by simp), fun output' hx' => .inl ?_⟩
    rw [← Option.some.inj ((hx rfl).symm.trans hx')]
    exact Function.update_self ..
  · have hpipe : (s.print p output).pipe child = s.pipe child := Function.update_of_ne hp _ _
    have hplace : (s.print p output).place child = s.place child := Function.update_of_ne hp _ _
    unfold Piped
    rw [hpipe, hplace]
    exact h

theorem inv_print (h : Inv u o d s) {output : List UInt8} (hl : Local u o p .gone)
    (hup : p = .uploader → o.upload.exec = some output)
    (hinfo : p = .informer → o.info.exec = some output) : Inv u o d (s.print p output) := by
  refine ⟨fun q b hq => ?_, piped_print h.uploadPipe hup, piped_print h.infoPipe hinfo, h.calls,
    h.disk⟩
  by_cases hqp : q = p
  · subst hqp
    have hgone : (s.print q output).place q = some .gone := Function.update_self ..
    rw [hgone] at hq
    exact Option.some.inj hq ▸ hl
  · have hsame : (s.print p output).place q = s.place q := Function.update_of_ne hqp _ _
    rw [hsame] at hq
    exact h.places q b hq

theorem local_readId (h : Inv u o d s) (hf : o.upload.forks) (hr : s.readable .uploader) :
    Local u o .original (afterReadId (readFileid (s.pipe .uploader))) := by
  rw [h.uploadPipe.read hr]
  cases hx : o.upload.exec with
  | none =>
    rw [Option.getD_none, readFileid_nothing]
    exact .finish false
  | some output =>
    rw [Option.getD_some]
    cases hid : readFileid output with
    | error f => exact .died
    | ok fileid =>
      by_cases hne : fileid = []
      · rw [afterReadId, if_pos hne]
        exact .finish false
      · rw [afterReadId, if_neg hne]
        exact .printed ⟨hf, hne, output, hx, hid⟩

theorem url_from_client (h : Inv u o d s) (hr : s.readable .informer) {fileid url : CString}
    (hurl : fileUrl u.port fileid (s.pipe .informer) = .ok url) :
    ∃ output, o.info.exec = some output ∧ fileUrl u.port fileid output = .ok url := by
  rw [h.infoPipe.read hr] at hurl
  cases hx : o.info.exec with
  | none =>
    rw [hx, Option.getD_none] at hurl
    exact absurd hurl (fileUrl_nothing _ _ _)
  | some output =>
    rw [hx, Option.getD_some] at hurl
    exact ⟨output, rfl, hurl⟩

theorem inv_original (h : Inv u o d s) {a : Place} (ha : s.place .original = some a)
    (hact : act u o e .original s a = some s') : Inv u o d s' := by
  cases h.places .original a ha with
  | start =>
    obtain rfl := Option.some.inj hact
    by_cases hf : o.upload.forks = true
    · rw [if_pos hf]
      exact inv_go (inv_go h (.waits hf) (by simp)) (.child hf) (by simp)
    · rw [if_neg hf]
      exact inv_go h (.finish false) (by simp)
  | waits hf =>
    simp only [act] at hact
    split at hact
    · rename_i hr
      obtain rfl := Option.some.inj hact
      exact inv_move h (local_readId h hf hr) (by simp) (by simp)
    · cases hact
  | printed hid =>
    obtain rfl := Option.some.inj hact
    by_cases hf : o.info.forks = true
    · rw [if_pos hf]
      exact inv_go (inv_go h (.asks hid hf) (by simp)) (.infoChild (.inl hid) hf) (by simp)
    · rw [if_neg hf]
      exact inv_go h (.finish false) (by simp)
  | @asks fileid hid hf =>
    simp only [act] at hact
    split at hact
    · rename_i hr
      obtain rfl := Option.some.inj hact
      cases hurl : fileUrl u.port fileid (s.pipe .informer) with
      | error f => exact inv_move h .died (by simp) (by simp)
      | ok url =>
        obtain ⟨output, hx, -⟩ := url_from_client h hr hurl
        exact inv_go h (.stores hid hf (by simp [hx])) (by simp [afterReadInfo])
    · cases hact
  | stores hid hf hx =>
    obtain rfl := Option.some.inj hact
    exact inv_store h (.stores hid hf hx) .finish
  | finish success =>
    obtain rfl := Option.some.inj hact
    exact inv_go h .accepting (by simp)
  | accepting => cases hact
  | died => cases hact

theorem inv_uploader (h : Inv u o d s) {a : Place} (ha : s.place .uploader = some a)
    (hact : act u o e .uploader s a = some s') : Inv u o d s' := by
  cases h.places .uploader a ha with
  | child hf =>
    obtain rfl := Option.some.inj hact
    cases hx : o.upload.exec with
    | none => exact inv_go h (.stray ⟨hf, hx⟩) (by simp)
    | some output => exact inv_go h (.client hx) (by simp)
  | client hx =>
    obtain rfl := Option.some.inj hact
    exact inv_print h (.clientGone (by simp [hx])) (fun _ => hx) (by simp)
  | clientGone hx => cases hact
  | stray hstray =>
    obtain rfl := Option.some.inj hact
    by_cases hf : o.info.forks = true
    · rw [if_pos hf]
      exact inv_go (inv_go h (.strayAsks hstray hf) (by simp))
        (.infoChild (.inr ⟨hstray, rfl⟩) hf) (by simp)
    · rw [if_neg hf]
      exact inv_go h (.strayFinish hstray (fun hd => hf hd.1) false) (by simp)
  | strayAsks hstray hf =>
    simp only [act] at hact
    split at hact
    · rename_i hr
      obtain rfl := Option.some.inj hact
      cases hurl : fileUrl u.port [] (s.pipe .informer) with
      | error f => exact inv_move h (.strayDied hstray) (fun _ _ => hstray.2) (by simp)
      | ok url =>
        obtain ⟨output, hx, hok⟩ := url_from_client h hr hurl
        refine inv_go h (.strayStores hstray ?_ (by simp [hx])) (by simp [afterReadInfo])
        rintro ⟨-, output', hx', hno⟩
        obtain rfl := Option.some.inj (hx.symm.trans hx')
        exact hno url hok
    · cases hact
  | strayStores hstray hd hx =>
    obtain rfl := Option.some.inj hact
    exact inv_store h (.strayStores hstray hd hx) (.strayFinish hstray hd)
  | strayFinish hstray hd success =>
    obtain rfl := Option.some.inj hact
    exact inv_go h (.strayAccepting hstray hd) (by simp)
  | strayAccepting hstray hd => cases hact
  | strayDied hstray => cases hact

theorem inv_informer (h : Inv u o d s) {a : Place} (ha : s.place .informer = some a)
    (hact : act u o e .informer s a = some s') : Inv u o d s' := by
  cases h.places .informer a ha with
  | infoChild hid hf =>
    obtain rfl := Option.some.inj hact
    cases hx : o.info.exec with
    | none => exact inv_go h (.infoStores hid hf hx) (by simp)
    | some output => exact inv_go h (.infoClient hx) (by simp)
  | infoClient hx =>
    obtain rfl := Option.some.inj hact
    exact inv_print h (.infoGone (by simp [hx])) (by simp) fun _ => hx
  | infoGone hx => cases hact
  | infoStores hid hf hx =>
    obtain rfl := Option.some.inj hact
    exact inv_store h (.infoStores hid hf hx) (.infoFinish hid hf hx)
  | infoFinish hid hf hx success =>
    obtain rfl := Option.some.inj hact
    exact inv_go h (.infoAccepting hid hf hx) (by simp)
  | infoAccepting hid hf hx => cases hact

theorem inv_step (h : Inv u o d s) (hs : next u o e p s = some s') : Inv u o d s' := by
  obtain ⟨a, ha, hact⟩ := Option.bind_eq_some_iff.mp hs
  cases p with
  | original => exact inv_original h ha hact
  | uploader => exact inv_uploader h ha hact
  | informer => exact inv_informer h ha hact

theorem inv_reachable (h : Reachable u o d s) : Inv u o d s := by
  induction h with
  | received =>
    refine ⟨fun p a hp => ?_, ⟨fun _ => rfl, fun _ _ => .inr ⟨rfl, by simp [received]⟩⟩,
      ⟨fun _ => rfl, fun _ _ => .inr ⟨rfl, by simp [received]⟩⟩, ?_, fun _ => rfl⟩
    · by_cases hpo : p = .original
      · subst hpo
        obtain rfl : .callUpload = a := Option.some.inj hp
        exact .start
      · simp [received, hpo] at hp
    · intro p fileid url hp
      cases hp
  | step _ hs ih => exact inv_step ih hs

end Steps

/-! ## Who stores -/

section Stores
variable {u : Job} {o : Outcomes} {p : Pid} {fileid url : CString}

/-- The processes between the first fork and the storing are blocked on each other, so that the
outcomes alone say which of them gets there. -/
def storer (o : Outcomes) : Pid :=
  if o.info.exec = none then .informer else if o.upload.exec = none then .uploader else .original

theorem local_storer (h : Local u o p (.callStore fileid url)) : p = storer o := by
  unfold storer
  cases h with
  | stores hid hf hx =>
    obtain ⟨-, -, output, hup, -⟩ := hid
    rw [if_neg hx, if_neg (by simp [hup])]
  | strayStores hstray hd hx => rw [if_neg hx, if_pos hstray.2]
  | infoStores hid hf hx => rw [if_pos hx]

theorem stray_without_info (hruns : UploadRuns u o) (hx : o.info.exec = none) : ¬ Stray o := by
  intro hstray
  obtain ⟨-, output, hsome, -⟩ := hruns hstray
  rw [hx] at hsome
  cases hsome

theorem local_printed (hruns : UploadRuns u o) (h : Local u o p (.callStore fileid url)) :
    Printed o fileid ∧ o.info.forks := by
  cases h with
  | stores hid hf hx => exact ⟨hid, hf⟩
  | strayStores hstray hd hx => exact absurd (hruns hstray) hd
  | infoStores hid hf hx =>
    rcases hid with hid | ⟨hstray, -⟩
    · exact ⟨hid, hf⟩
    · exact absurd hstray (stray_without_info hruns hx)

/-- Another process gets back to `FCGI_Accept` only if the second client is missing. -/
theorem local_accepting (hruns : UploadRuns u o) (h : Local u o p .accepting) :
    p = .original ∨ ((∃ fileid, Printed o fileid) ∧ o.info.forks ∧ o.info.exec = none) := by
  cases h with
  | accepting => exact .inl rfl
  | strayAccepting hstray hd => exact absurd (hruns hstray) hd
  | infoAccepting hid hf hx =>
    rcases hid with hid | ⟨hstray, -⟩
    · exact .inr ⟨⟨_, hid⟩, hf, hx⟩
    · exact absurd hstray (stray_without_info hruns hx)

theorem Printed.not_failed (h : Printed o fileid) : ¬ o.upload.Failed := by
  obtain ⟨hf, -, output, hx, -⟩ := h
  rintro (hno | hno)
  · rw [hf] at hno
    cases hno
  · rw [hx] at hno
    cases hno

end Stores

section Soundness
variable {u : Job} {o : Outcomes} {d : Disk} {s : State}

theorem reaches_local {p : Pid} (h : Inv u o d s) (hp : Reaches s p) :
    ∃ fileid url, Local u o p (.callStore fileid url) := by
  rcases hp with ⟨fileid, url, hp⟩ | ⟨fileid, url, hp⟩
  · exact ⟨fileid, url, h.places p _ hp⟩
  · exact ⟨fileid, url, h.calls p fileid url hp⟩

/-- At most one process stores, whatever happens. -/
theorem reaches_once {p q : Pid} (h : Inv u o d s) (hp : Reaches s p) (hq : Reaches s q) :
    p = q := by
  obtain ⟨_, _, hp⟩ := reaches_local h hp
  obtain ⟨_, _, hq⟩ := reaches_local h hq
  rw [local_storer hp, local_storer hq]

theorem disk_unchanged (h : Inv u o d s)
    (hno : ∀ p fileid url, ¬ Local u o p (.callStore fileid url)) : s.disk = d := by
  apply h.disk
  rw [List.eq_nil_iff_forall_not_mem]
  rintro ⟨p, fileid, url⟩ hp
  exact hno p fileid url (h.calls p fileid url hp)

theorem sound_of (hruns : UploadRuns u o) (h : Inv u o d s) {failed : Prop}
    (hstores : failed → ∀ p fileid url, ¬ Local u o p (.callStore fileid url))
    (haccepts : failed → ∀ p, Local u o p .accepting → p = .original) :
    Sound o d failed s := by
  constructor
  · intro p q
    exact reaches_once h
  · intro p fileid url hp
    exact (local_printed hruns (h.calls p fileid url hp)).1.2
  · intro hfailed
    refine ⟨disk_unchanged h (hstores hfailed), fun p hp => ?_⟩
    exact haccepts hfailed p (h.places p _ hp)

theorem sound_upload (hruns : UploadRuns u o) (h : Inv u o d s) :
    Sound o d o.upload.Failed s := by
  apply sound_of hruns h
  · intro hfailed p fileid url hl
    exact (local_printed hruns hl).1.not_failed hfailed
  · intro hfailed p hl
    rcases local_accepting hruns hl with hp | ⟨⟨fileid, hid⟩, -⟩
    · exact hp
    · exact absurd hfailed hid.not_failed

theorem sound_both (hruns : UploadRuns u o) (hinfo : InfoRuns o) (h : Inv u o d s) :
    Sound o d (o.upload.Failed ∨ o.info.Failed) s := by
  apply sound_of hruns h
  · intro hfailed p fileid url hl
    obtain ⟨hid, hf⟩ := local_printed hruns hl
    rcases hfailed with hfailed | hfailed | hfailed
    · exact hid.not_failed hfailed
    · rw [hf] at hfailed
      cases hfailed
    · exact hinfo fileid hid hf hfailed
  · intro _ p hl
    rcases local_accepting hruns hl with hp | ⟨⟨fileid, hid⟩, hf, hx⟩
    · exact hp
    · exact absurd hx (hinfo fileid hid hf)

end Soundness

/-! ## Runs that go wrong -/

section Runs
variable {u : Job} {o : Outcomes} {d : Disk} {s s' : State}

theorem Reachable.acts {p : Pid} {a : Place} (h : Reachable u o d s) (hp : s.place p = some a)
    (e : ℕ → Outcome) (hs : act u o e p s a = some s') : Reachable u o d s' := by
  apply h.step (p := p) (e := e)
  rw [next, hp]
  exact hs

theorem reachable_forked (hf : o.upload.forks) :
    Reachable u o d (((received d).move .original .readId).move .uploader .execUpload) := by
  apply Reachable.received.acts (p := .original) rfl (fun _ => .fail)
  rw [act, if_pos hf]

theorem reachable_stray (h : Stray o) : ∃ s, Reachable u o d s ∧
    s.place .uploader = some (.callInfo []) := by
  refine ⟨_, (reachable_forked h.1).acts (p := .uploader) rfl (fun _ => .fail) rfl, ?_⟩
  rw [h.2]
  rfl

theorem reachable_printed {fileid : CString} (h : Printed o fileid) : ∃ s, Reachable u o d s ∧
    s.place .original = some (.callInfo fileid) := by
  obtain ⟨hf, hne, output, hx, hid⟩ := h
  have hclient := (reachable_forked (u := u) (d := d) hf).acts (p := .uploader) rfl
    (fun _ => .fail) rfl
  rw [hx] at hclient
  have hprinted := hclient.acts (p := .uploader) rfl (fun _ => .fail) rfl
  refine ⟨_, hprinted.acts (p := .original) (a := .readId) rfl (fun _ => .fail)
    (if_pos (decide_eq_true (.inr rfl))), ?_⟩
  rw [State.place_move]
  have hpipe : afterReadId (readFileid output) = .callInfo fileid := by
    rw [hid, afterReadId, if_neg hne]
  exact congrArg some hpipe

theorem reachable_asked {p : Pid} {fileid : CString} (h : Reachable u o d s)
    (hp : s.place p = some (.callInfo fileid)) (hf : o.info.forks) :
    Reachable u o d ((s.move p (.readInfo fileid)).move .informer (.execInfo fileid)) := by
  apply h.acts hp (fun _ => .fail)
  rw [act, if_pos hf]

theorem reachable_stored {p : Pid} {fileid url : CString} (h : Reachable u o d s)
    (hp : s.place p = some (.callStore fileid url)) (e : ℕ → Outcome) :
    Reachable u o d (s.store u e p fileid url) :=
  h.acts hp e rfl

theorem reachable_accepting {p : Pid} {success : Bool} (h : Reachable u o d s)
    (hp : s.place p = some (.finish success)) : Reachable u o d (s.move p .accepting) :=
  h.acts hp (fun _ => .fail) rfl

theorem unsound_accepting {p : Pid} {success : Bool} {failed : Prop} (h : Reachable u o d s)
    (hp : s.place p = some (.finish success)) (hother : p ≠ .original) (hfailed : failed) :
    ∃ s, Reachable u o d s ∧ ¬ Sound o d failed s := by
  refine ⟨_, reachable_accepting h hp, fun hsound => ?_⟩
  exact hother ((hsound.quiet hfailed).2 p (s.place_move p .accepting))

theorem unsound_empty {p : Pid} {url : CString} {failed : Prop} (h : Reachable u o d s)
    (hp : s.place p = some (.callStore [] url)) :
    ∃ s, Reachable u o d s ∧ ¬ Sound o d failed s := by
  refine ⟨_, reachable_stored h hp (fun _ => .fail), fun hsound => ?_⟩
  exact (hsound.printed p [] url (List.mem_cons_self ..)).1 rfl

theorem unsound_stray {failed : Prop} (hstray : Stray o) (hd : ¬ StrayDies u o)
    (hfailed : failed) : ∃ s, Reachable u o d s ∧ ¬ Sound o d failed s := by
  obtain ⟨s, hs, hp⟩ := reachable_stray (u := u) (d := d) hstray
  by_cases hf : o.info.forks
  · have hasked := reachable_asked hs hp hf
    have hchild := hasked.acts (State.place_move ..) (fun _ => .fail) rfl
    cases hx : o.info.exec with
    | none =>
      rw [hx] at hchild
      exact unsound_empty hchild (State.place_move ..)
    | some output =>
      rw [hx] at hchild
      have hurl : ∃ url, fileUrl u.port [] output = .ok url := by
        by_contra hno
        exact hd ⟨hf, output, hx, fun url h => hno ⟨url, h⟩⟩
      obtain ⟨url, hurl⟩ := hurl
      have hprinted := hchild.acts (State.place_move ..) (fun _ => .fail) rfl
      have hread := hprinted.acts (p := .uploader) (a := .readInfo []) rfl (fun _ => .fail)
        (if_pos (decide_eq_true (.inr rfl)))
      have hplace : afterReadInfo [] (fileUrl u.port [] output) = .callStore [] url := by
        rw [hurl, afterReadInfo]
      apply unsound_empty hread (p := .uploader)
      rw [State.place_move]
      exact congrArg some hplace
  · have hfinish : Reachable u o d (s.move .uploader (.finish false)) := by
      apply hs.acts hp (fun _ => .fail)
      rw [act, if_neg hf]
    exact unsound_accepting hfinish (State.place_move ..) (by simp) hfailed

theorem unsound_informer {failed : Prop} {fileid : CString} (hid : Printed o fileid)
    (hf : o.info.forks) (hx : o.info.exec = none) (hfailed : failed) :
    ∃ s, Reachable u o d s ∧ ¬ Sound o d failed s := by
  obtain ⟨s, hs, hp⟩ := reachable_printed (u := u) (d := d) hid
  have hasked := reachable_asked hs hp hf
  have hchild := hasked.acts (State.place_move ..) (fun _ => .fail) rfl
  rw [hx] at hchild
  have hstored := reachable_stored hchild (State.place_move ..) (fun _ => .fail)
  exact unsound_accepting hstored (State.place_move ..) (by simp) hfailed

end Runs

/-- An upload goes as expected exactly if no child is left over: `fdfs_upload_file` is executed,
or its child ends in `make_file_url`; and, where a missing `fdfs_file_info` counts as well, this
one is executed for every id that has been printed. -/
theorem upload_sound_iff (u : Job) (o : Outcomes) (d : Disk) :
    ((∀ s, Reachable u o d s → Sound o d o.upload.Failed s) ↔ UploadRuns u o) ∧
    ((∀ s, Reachable u o d s → Sound o d (o.upload.Failed ∨ o.info.Failed) s) ↔
      UploadRuns u o ∧ InfoRuns o) := by
  refine ⟨⟨?_, ?_⟩, ⟨?_, ?_⟩⟩
  · intro h hstray
    by_contra hd
    obtain ⟨s, hs, hno⟩ := unsound_stray (d := d) hstray hd (.inr hstray.2 : o.upload.Failed)
    exact hno (h s hs)
  · intro hruns s hs
    exact sound_upload hruns (inv_reachable hs)
  · intro h
    constructor
    · intro hstray
      by_contra hd
      obtain ⟨s, hs, hno⟩ := unsound_stray (d := d) hstray hd
        (.inl (.inr hstray.2) : o.upload.Failed ∨ o.info.Failed)
      exact hno (h s hs)
    · intro fileid hid hf hx
      obtain ⟨s, hs, hno⟩ := unsound_informer (u := u) (d := d) hid hf hx
        (.inr (.inr hx) : o.upload.Failed ∨ o.info.Failed)
      exact hno (h s hs)
  · rintro ⟨hruns, hinfo⟩ s hs
    exact sound_both hruns hinfo (inv_reachable hs)

def missing : Outcomes := ⟨⟨true, true, none⟩, ⟨true, true, none⟩⟩

def someJob : Job where
  user := [117]
  filename := [102]
  md5 := [1]
  size := 1
  now := []
  port := []

theorem store_row (s : State) (u : Job) (p : Pid) (fileid url : CString) :
    ∃ r ∈ (s.store u (fun _ => .ok 0) p fileid url).disk.fileInfo, r.fileId = fileid := by
  have heffect := storeFileinfoToMysql_effect u.now u.user u.md5 u.filename u.size fileid url
    s.disk (fun _ => .ok 0) fun _ => by simp [NoFail]
  change ∃ r ∈ ((storeFileinfoToMysql u.now u.user u.filename u.md5 u.size fileid url).run
    Cmd.exec (fun _ => .ok 0) s.disk).2.fileInfo, r.fileId = fileid
  generalize Prog.run _ _ _ _ = w at heffect ⊢
  obtain ⟨ret, d'⟩ := w
  cases heffect with
  | stored t ht => exact ⟨_, Multiset.mem_cons_self .., rfl⟩

/-- The grandchild stores a row without an id and accepts further requests, while the other two
wait. -/
theorem missing_client_stores : missing.upload.Failed ∧ ∀ d : Disk, ∃ s,
    Reachable someJob missing d s ∧ (.informer, [], []) ∈ s.stored ∧
      (∃ r ∈ s.disk.fileInfo, r.fileId = []) ∧ s.place .informer = some .accepting ∧
      ¬ Sound missing d missing.upload.Failed s := by
  have hstray : Stray missing := ⟨rfl, rfl⟩
  refine ⟨.inr rfl, fun d => ?_⟩
  obtain ⟨s, hs, hp⟩ := reachable_stray (u := someJob) (d := d) hstray
  have hasked := reachable_asked hs hp rfl
  have hchild := hasked.acts (State.place_move ..) (fun _ => .fail) rfl
  have hstored := reachable_stored hchild (State.place_move ..) (fun _ => .ok 0)
  have haccepting := reachable_accepting hstored (State.place_move ..)
  refine ⟨_, haccepting, List.mem_cons_self .., store_row _ someJob .informer [] [],
    State.place_move ..,
    fun hsound => ?_⟩
  exact (hsound.printed _ _ _ (List.mem_cons_self ..)).1 rfl

end UploadProcesses
