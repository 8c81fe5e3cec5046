import CloudDisk.HandlerRules
import CloudDisk.RequestFields

/-! # Who a request acts for

The md5, files and filesop programs compare the token of a request with the one stored for
its user before they do anything. The md5 program starts every request with empty buffers
and gives up on a body it cannot read; the other two go on with what their buffers hold, so
only a request that fills all of them is judged by its own user and token. -/
namespace TokenChecks

open ByteStrings CommandPrograms DiskState DiskHandlers HandlerRules JsonBodies RequestLoops
  RequestFields

/-! ## Verified tokens -/

/-- The stored value, as far as a C program can see it, is the token. -/
def Verified (d : Disk) (user token : CString) : Prop :=
  ∃ v, d.redis user = some (.string v) ∧ untilNul v = token

section Verify
variable {α : Type} {adm : Outcome → Prop} {d : Disk} {user token : CString}
  {Q : α → Disk → Prop}

theorem spec_verifyToken {f : ℤ → Handler α}
    (hyes : Verified d user token → Spec Cmd.exec adm (f 0) d Q)
    (hno : adm .fail ∨ ¬ Verified d user token → Spec Cmd.exec adm (f (-1)) d Q) :
    Spec Cmd.exec adm (verifyToken user token >>= f) d Q := by
  unfold verifyToken
  rw [CommandPrograms.bind_assoc]
  refine spec_ropConnect ?_ fun hf => hno (.inl hf)
  change Spec Cmd.exec adm ((ropGetString user >>= _) >>= f) d Q
  rw [CommandPrograms.bind_assoc]
  apply spec_call
  intro o ho
  cases o with
  | fail => exact hno (.inl ho)
  | ok k =>
    simp only [Cmd.exec, RedisCmd.exec]
    cases hv : d.redis user with
    | none => exact hno (.inr (by simp [Verified, hv]))
    | some v =>
      cases v with
      | zset z => exact hno (.inr (by simp [Verified, hv]))
      | hash fields => exact hno (.inr (by simp [Verified, hv]))
      | string s =>
        change Spec Cmd.exec adm (f (if token = untilNul s then 0 else -1)) d Q
        by_cases hs : token = untilNul s
        · rw [if_pos hs]
          exact hyes ⟨s, hv, hs.symm⟩
        · rw [if_neg hs]
          refine hno (.inr ?_)
          rintro ⟨v, hv', rfl⟩
          obtain rfl : s = v := by simpa [hv] using hv'
          exact hs rfl

theorem spec_filesCount {f : ℤ → Handler α} (h : ∀ n, Spec Cmd.exec adm (f n) d Q) :
    Spec Cmd.exec adm (filesCount user >>= f) d Q := by
  unfold filesCount
  rw [CommandPrograms.bind_assoc]
  refine spec_msqlConn ?_ fun _ => h 0
  change Spec Cmd.exec adm ((mysqlQuery .setNames >>= _) >>= f) d Q
  rw [CommandPrograms.bind_assoc]
  apply spec_setNames
  intro _
  rw [CommandPrograms.bind_assoc]
  exact spec_selectUserCount (fun r _ _ => h r.count) (fun _ => h 0) fun _ => h 0

end Verify

/-! ## Rounds -/

section Rounds
variable {M : Type} {adm : Outcome → Prop} {d : Disk}

def ListsFiles : Served M → Prop
  | .crashed => False
  | .served _ out => ∃ rows, .userFiles rows ∈ out

/-- MySQL or the storage has changed, or a list of files was printed. -/
def Acts (d : Disk) (served : Served M) (d' : Disk) : Prop :=
  d'.fileInfo ≠ d.fileInfo ∨ d'.userFileList ≠ d.userFileList ∨
    d'.shareFileList ≠ d.shareFileList ∨ d'.userFileCount ≠ d.userFileCount ∨
    d'.storage ≠ d.storage ∨ ListsFiles served

theorem not_acts_reply {m : M} {out : List Printed} (h : ∀ rows, .userFiles rows ∉ out) :
    ¬ Acts d (.served m (.header :: out)) d := by
  simp only [Acts, ne_eq, not_true_eq_false, false_or]
  rintro ⟨rows, hrows⟩
  rcases List.mem_cons.mp hrows with heq | hrows
  · simp at heq
  · exact h rows hrows

theorem filesopRun_acts (m : Filesop) :
    Spec Cmd.exec adm (filesopRun m) d fun served d' =>
      Acts d served d' → Verified d m.user m.token := by
  refine spec_verifyToken (fun hv _ _ _ => hv) fun _ => spec_ret fun hact => ?_
  exact absurd hact (not_acts_reply (by simp))

theorem filesRun_acts (m : Files) :
    Spec Cmd.exec adm (filesRun m) d fun served d' =>
      Acts d served d' → Verified d m.user m.token := by
  refine spec_verifyToken (fun hv _ _ _ => hv) fun _ => ?_
  apply spec_filesCount
  intro _
  refine spec_verifyToken (fun hv _ _ _ => hv) fun _ => spec_ret fun hact => ?_
  exact absurd hact (not_acts_reply (by simp))

theorem md5Run_acts (now : CString) (m : Filesop) :
    Spec Cmd.exec adm (md5Run now m) d fun served d' =>
      Acts d served d' → Verified d m.user m.token := by
  refine spec_verifyToken (fun hv _ _ _ => hv) fun _ => spec_ret fun hact => ?_
  exact absurd hact (not_acts_reply (by simp))

theorem withBody_acts {r : Request} {m : M} {next : CString → Handler (Served M)} {P : Prop}
    (h : ∀ buf, r.read = .text buf →
      Spec Cmd.exec adm (next buf) d fun served d' => Acts d served d' → P) :
    Spec Cmd.exec adm (withBody r m next) d fun served d' => Acts d served d' → P := by
  unfold withBody
  split
  next => exact spec_ret fun hact => absurd hact (not_acts_reply (by simp))
  next => exact spec_ret fun hact => absurd hact (not_acts_reply (by simp))
  next => exact spec_ret fun hact => absurd hact (by simp [Acts, ListsFiles])
  next buf hbuf => exact h buf hbuf

end Rounds

/-! ## Runs -/

def ChecksToken : Program → Prop
  | .md5 => True
  | .files => True
  | .filesop => True
  | .sharefilesop => False
  | .sharefiles => False

def Reads (p : Program) (r : Request) : Prop :=
  ∀ buf, r.read = .text buf →
    match p with
    | .files => (getInfo filesFields buf).isStopped = false
    | .filesop => (getInfo filesopFields buf).isStopped = false
    | _ => True

/-- No stored token contains a NUL. -/
def CleanTokens (d : Disk) : Prop := ∀ user v, d.redis user = some (.string v) → (0 : UInt8) ∉ v

/-- The request's own body names a user and the token stored for that user. -/
def Authorized (r : Request) (d : Disk) : Prop :=
  ∃ buf user token, r.read = .text buf ∧ Names buf user token ∧
    d.redis user = some (.string token)

theorem authorized_of {r : Request} {d : Disk} {buf user token : CString}
    (hbuf : r.read = .text buf) (hn : Names buf user token) (hc : CleanTokens d)
    (hv : Verified d user token) : Authorized r d := by
  obtain ⟨v, hv, rfl⟩ := hv
  refine ⟨buf, user, untilNul v, hbuf, hn, ?_⟩
  rw [untilNul_of_notMem (hc user v hv)]
  exact hv

theorem round_acts {p : Program} (hp : ChecksToken p) {r : Request} {d : Disk} (hr : Reads p r)
    (hc : CleanTokens d) (memory : p.Memory) :
    Spec Cmd.exec AnyOutcome (p.round r memory) d fun served d' =>
      Acts d served d' → Authorized r d := by
  cases p with
  | md5 =>
    apply withBody_acts
    intro buf hbuf
    cases hx : getInfo md5Fields buf with
    | crashed => exact spec_ret fun hact => absurd hact (by simp [Acts, ListsFiles])
    | stopped write => exact spec_ret fun hact => absurd hact (not_acts_reply (by simp))
    | complete write =>
      obtain ⟨user, token, md5, filename, hnames, hwrite⟩ := md5_complete hx
      refine (md5Run_acts r.now _).mono fun served d' h hact => ?_
      rw [hwrite] at h
      exact authorized_of hbuf hnames hc (h hact)
  | files =>
    apply withBody_acts
    intro buf hbuf
    have hstop := hr buf hbuf
    cases hx : getInfo filesFields buf with
    | crashed => exact spec_ret fun hact => absurd hact (by simp [Acts, ListsFiles])
    | stopped write => simp [hx, Extract.isStopped] at hstop
    | complete write =>
      obtain ⟨user, token, hnames, hwrite⟩ := files_complete hx
      refine (filesRun_acts _).mono fun served d' h hact => ?_
      rw [hwrite memory] at h
      exact authorized_of hbuf hnames hc (h hact)
  | filesop =>
    apply withBody_acts
    intro buf hbuf
    have hstop := hr buf hbuf
    cases hx : getInfo filesopFields buf with
    | crashed => exact spec_ret fun hact => absurd hact (by simp [Acts, ListsFiles])
    | stopped write => simp [hx, Extract.isStopped] at hstop
    | complete write =>
      obtain ⟨user, token, md5, filename, hnames, hwrite⟩ := filesop_complete hx
      refine (filesopRun_acts _).mono fun served d' h hact => ?_
      rw [hwrite memory] at h
      exact authorized_of hbuf hnames hc (h hact)
  | sharefilesop => exact hp.elim
  | sharefiles => exact hp.elim

/-- Every request of a history that acts is authorized by its own body. -/
def AllAuthorized (p : Program) : p.Memory → List Arrival → Prop
  | _, [] => True
  | memory, a :: history =>
    let run := (p.round a.request memory).run Cmd.exec a.outcomes a.disk
    (Acts a.disk run.1 run.2 → Authorized a.request a.disk) ∧
      match run.1 with
      | .crashed => True
      | .served memory _ => AllAuthorized p memory history

theorem all_authorized {p : Program} (hp : ChecksToken p) (history : List Arrival)
    (h : ∀ a ∈ history, Reads p a.request ∧ CleanTokens a.disk) (memory : p.Memory) :
    AllAuthorized p memory history := by
  induction history generalizing memory with
  | nil => trivial
  | cons a history ih =>
    obtain ⟨hr, hc⟩ := h a List.mem_cons_self
    refine ⟨round_acts hp hr hc memory a.outcomes fun _ => trivial, ?_⟩
    split
    · trivial
    · exact ih (fun b hb => h b (List.mem_cons_of_mem _ hb)) _

theorem AllAuthorized.tail {p : Program} {memory memory' : p.Memory} {a : Arrival}
    {history : List Arrival} {out : List Printed} (h : AllAuthorized p memory (a :: history))
    (hrun : ((p.round a.request memory).run Cmd.exec a.outcomes a.disk).1 = .served memory' out) :
    AllAuthorized p memory' history := by
  obtain ⟨-, h⟩ := h
  simp only [hrun] at h
  exact h

def ownedFile : Disk where
  fileInfo := {⟨[49], [7], [], 9, [], 1⟩}
  userFileList := {⟨[97], [49], [], [102], 0, 0⟩}
  shareFileList := 0
  userFileCount := {⟨[97], 1⟩}
  storage := {[7]}
  redis key := if key = [97] then some (.string [116]) else none

theorem ownedFile_clean : CleanTokens ownedFile := by
  intro user v hv
  simp only [ownedFile] at hv
  split at hv
  · obtain rfl : [116] = v := by simpa using hv
    decide
  · simp at hv

def post (text : String) : Request where
  query := none
  contentLength := some (cstr "300")
  body := cstr text
  now := []

def deleteOwn : Request :=
  post "\x7b\"user\":\"a\",\"md5\":\"1\",\"filename\":\"f\",\"token\":\"t\"\x7d"

theorem deleteOwn_reads : Reads .filesop deleteOwn := by
  intro buf hbuf
  have hread : deleteOwn.read = .text deleteOwn.body := by decide +kernel
  obtain rfl := Body.text.inj (hread.symm.trans hbuf)
  show (getInfo filesopFields deleteOwn.body).isStopped = false
  decide +kernel

def arrival (r : Request) : Arrival := ⟨r, ownedFile, fun _ => .ok 0⟩

def noRequest : Filesop := ⟨[], [], [], []⟩

theorem all_authorized_own_delete :
    AllAuthorized .filesop noRequest [arrival deleteOwn] ∧
      ((filesop deleteOwn noRequest).run Cmd.exec (fun _ => .ok 0) ownedFile).2.userFileList
        = 0 := by
  refine ⟨all_authorized (p := .filesop) trivial _ (fun a ha => ?_) _, by decide +kernel⟩
  obtain rfl := List.mem_singleton.mp ha
  exact ⟨deleteOwn_reads, ownedFile_clean⟩

/-- A body that is no JSON, sent to the process that has just served the owner of a file. -/
theorem not_authorized_leftover :
    ¬ AllAuthorized .filesop noRequest [arrival deleteOwn, arrival (post "x")] := by
  let served : Filesop := ⟨[97], [116], [49], [102]⟩
  have hfirst : ((filesop deleteOwn noRequest).run Cmd.exec (fun _ => .ok 0) ownedFile).1 =
      .served served [.header, .status .c013] := by decide +kernel
  have hsecond : ((filesop (post "x") served).run Cmd.exec (fun _ => .ok 0)
      ownedFile).2.userFileList = 0 := by decide +kernel
  have hnone : (cJsonParse (cstr "x")).isNone := by decide +kernel
  have hread : (post "x").read = .text (cstr "x") := by decide +kernel
  intro h
  have htail : AllAuthorized .filesop served [arrival (post "x")] := h.tail hfirst
  have hchanged : (0 : Multiset UserFile) ≠ ownedFile.userFileList := by decide
  obtain ⟨buf, user, token, hbuf, ⟨members, hparse, -⟩, -⟩ :=
    htail.1 (.inr (.inl fun heq => hchanged (hsecond.symm.trans heq)))
  obtain rfl := Body.text.inj (hread.symm.trans hbuf)
  rw [hparse] at hnone
  simp at hnone

end TokenChecks
