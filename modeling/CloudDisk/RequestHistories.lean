import CloudDisk.HandlerEffects
import CloudDisk.TokenChecks

/-! # What earlier requests leave behind

A request is independent of the history of its process when the same state gives the same
output and the same final state whatever was served before. That is so exactly when the
request itself sets every buffer that its round goes on to use. -/
namespace RequestHistories

open ByteStrings CommandPrograms RowTables DiskState DiskHandlers HandlerRules HandlerEffects
  JsonBodies RequestLoops RequestFields TokenChecks

section Rounds
variable {M : Type}

def output : Served M → Option (List Printed)
  | .crashed => none
  | .served _ out => some out

/-- The two programs print the same and end in the same state. -/
def Same (p q : Handler (Served M)) : Prop :=
  ∀ e d, output (p.run Cmd.exec e d).1 = output (q.run Cmd.exec e d).1 ∧
    (p.run Cmd.exec e d).2 = (q.run Cmd.exec e d).2

theorem same_refl (p : Handler (Served M)) : Same p p := fun _ _ => ⟨rfl, rfl⟩

theorem same_reply (m₁ m₂ : M) (out : List Printed) : Same (reply m₁ out) (reply m₂ out) :=
  fun _ _ => ⟨rfl, rfl⟩

theorem same_bind {α : Type} (p : Handler α) {f g : α → Handler (Served M)}
    (h : ∀ a, Same (f a) (g a)) : Same (p >>= f) (p >>= g) := by
  induction p with
  | ret a => exact h a
  | call c next ih => exact fun e d => ih _ (fun i => e (i + 1)) _

theorem same_withBody {r : Request} {m₁ m₂ : M} {f g : CString → Handler (Served M)}
    (h : ∀ buf, r.read = .text buf → Same (f buf) (g buf)) :
    Same (withBody r m₁ f) (withBody r m₂ g) := by
  unfold withBody
  split
  next => exact same_reply m₁ m₂ _
  next => exact same_reply m₁ m₂ _
  next => exact same_refl _
  next buf hbuf => exact h buf hbuf

theorem not_same {p q : Handler (Served M)} {d : Disk} {P Q : Served M → Disk → Prop}
    (hp : Spec Cmd.exec NoFail p d P) (hq : Spec Cmd.exec NoFail q d Q)
    (h : ∀ s d₁ t d₂, P s d₁ → Q t d₂ → output s = output t → d₁ ≠ d₂) : ¬ Same p q := by
  intro hsame
  have hok : ∀ _ : ℕ, NoFail (.ok 0) := fun _ => by simp [NoFail]
  obtain ⟨hout, hdisk⟩ := hsame (fun _ => .ok 0) d
  exact h _ _ _ _ (hp _ hok) (hq _ hok) hout hdisk

theorem not_same_output {p q : Handler (Served M)} {d : Disk} {out : Option (List Printed)}
    (hp : Spec Cmd.exec NoFail p d fun served _ => output served ≠ out)
    (hq : Spec Cmd.exec NoFail q d fun served _ => output served = out) : ¬ Same p q := by
  apply not_same hp hq
  intro s d₁ t d₂ hs ht heq _
  exact hs (heq.trans ht)

end Rounds

/-- Nothing an earlier request has left in the process influences this one. -/
def HistoryFree (p : Program) (r : Request) : Prop :=
  ∀ (start : p.Memory) (h₁ h₂ : List Arrival) (m₁ m₂ : p.Memory),
    p.after start h₁ = some m₁ → p.after start h₂ = some m₂ → Same (p.round r m₁) (p.round r m₂)

def startOf (buf : CString) : Option ℤ :=
  (cJsonParse buf).bind fun root => (getObjectItem root (cstr "start")).map Json.valueint

/-- The request sets what its round uses. A negative `start` makes the server reject the
query of sharefiles whatever `count` is. -/
def SelfContained (p : Program) (r : Request) : Prop :=
  match p with
  | .md5 => True
  | .files => ∀ buf, r.read = .text buf → (getInfo filesFields buf).isStopped = false
  | .filesop => ∀ buf, r.read = .text buf → (getInfo filesopFields buf).isStopped = false
  | .sharefilesop =>
    match r.cmd with
    | .outside => True
    | .absent => ∀ buf, r.read = .text buf → (getInfo sharefilesopFields buf).written.isNone
    | .found cmd => cmd = cstr "pv" ∨ cmd = cstr "cancel" ∨ cmd = cstr "save" →
      ∀ buf, r.read = .text buf → (getInfo sharefilesopFields buf).isStopped = false
  | .sharefiles =>
    match r.cmd with
    | .outside => True
    | .absent => False
    | .found cmd => ∀ buf, r.read = .text buf → (getInfo sharefilesFields buf).isStopped →
      cmd ≠ cstr "pvdesc" ∧ (cmd = cstr "normal" → ∃ n < 0, startOf buf = some n)

/-! ## Requests that set what they use -/

section Free
variable {r : Request}

theorem filesop_free (h : SelfContained .filesop r) (m₁ m₂ : Filesop) :
    Same (filesop r m₁) (filesop r m₂) := by
  apply same_withBody
  intro buf hbuf
  have hstop := h buf hbuf
  cases hx : getInfo filesopFields buf with
  | crashed => exact same_refl _
  | stopped write => simp [hx, Extract.isStopped] at hstop
  | complete write =>
    obtain ⟨user, token, md5, filename, -, hwrite⟩ := filesop_complete hx
    simp only [Extract.written, hwrite]
    exact same_refl _

theorem files_free (h : SelfContained .files r) (m₁ m₂ : Files) :
    Same (files r m₁) (files r m₂) := by
  apply same_withBody
  intro buf hbuf
  have hstop := h buf hbuf
  cases hx : getInfo filesFields buf with
  | crashed => exact same_refl _
  | stopped write => simp [hx, Extract.isStopped] at hstop
  | complete write =>
    obtain ⟨user, token, -, hwrite⟩ := files_complete hx
    simp only [Extract.written, hwrite]
    exact same_refl _

theorem sharefilesop_written_cmd {buf : CString} {write : Sharefilesop → Sharefilesop}
    (h : (getInfo sharefilesopFields buf).written = some write) (m : Sharefilesop) :
    (write m).cmd = m.cmd := by
  have hc : ∀ field ∈ sharefilesopFields, Commutes (fun m' => { m' with cmd := m.cmd }) field := by
    intro field hfield
    simp only [sharefilesopFields, List.mem_cons, List.not_mem_nil, or_false] at hfield
    rcases hfield with rfl | rfl | rfl <;> exact stringField_commutes fun _ _ => rfl
  have heq := getInfo_commutes hc h m
  rw [heq]

theorem sharefiles_written_cmd {buf : CString} {write : Sharefiles → Sharefiles}
    (h : (getInfo sharefilesFields buf).written = some write) (m : Sharefiles) :
    (write m).cmd = m.cmd := by
  have hc : ∀ field ∈ sharefilesFields, Commutes (fun m' => { m' with cmd := m.cmd }) field := by
    intro field hfield
    simp only [sharefilesFields, List.mem_cons, List.not_mem_nil, or_false] at hfield
    rcases hfield with rfl | rfl <;> exact intField_commutes fun _ _ => rfl
  have heq := getInfo_commutes hc h m
  rw [heq]

theorem sharefilesop_free (h : SelfContained .sharefilesop r) (m₁ m₂ : Sharefilesop) :
    Same (sharefilesop r m₁) (sharefilesop r m₂) := by
  simp only [SelfContained] at h
  unfold sharefilesop readCmd
  cases hcmd : r.cmd with
  | outside => exact same_refl _
  | absent =>
    rw [hcmd] at h
    apply same_withBody
    intro buf hbuf
    rw [Option.isNone_iff_eq_none.mp (h buf hbuf)]
    exact same_refl _
  | found cmd =>
    rw [hcmd] at h
    apply same_withBody
    intro buf hbuf
    cases hx : getInfo sharefilesopFields buf with
    | crashed => exact same_refl _
    | complete write =>
      obtain ⟨user, md5, filename, hwrite⟩ := sharefilesop_complete hx
      simp only [Extract.written, hwrite]
      exact same_refl _
    | stopped write =>
      have hother : ¬ (cmd = cstr "pv" ∨ cmd = cstr "cancel" ∨ cmd = cstr "save") := by
        intro hc
        have hstop := h hc buf hbuf
        simp [hx, Extract.isStopped] at hstop
      rw [not_or, not_or] at hother
      obtain ⟨hpv, hcancel, hsave⟩ := hother
      have hwritten : (getInfo sharefilesopFields buf).written = some write := by rw [hx]; rfl
      simp only [Extract.written, sharefilesopRun, sharefilesop_written_cmd hwritten, hpv, hcancel,
        hsave, if_false]
      exact same_reply _ _ _

/-- The program prints this and leaves the state alone, whatever happens to its commands. -/
def Prints {M : Type} (p : Handler (Served M)) (out : List Printed) : Prop :=
  ∀ d, Spec Cmd.exec AnyOutcome p d fun served d' => output served = some out ∧ d' = d

theorem Prints.same {M : Type} {p q : Handler (Served M)} {out : List Printed} (hp : Prints p out)
    (hq : Prints q out) : Same p q := by
  intro e d
  obtain ⟨hp, hd⟩ := hp d e fun _ => trivial
  obtain ⟨hq, hd'⟩ := hq d e fun _ => trivial
  exact ⟨hp.trans hq.symm, hd.trans hd'.symm⟩

theorem shareFilelist_rejected {m : Sharefiles} (hcmd : m.cmd = cstr "normal")
    (hstart : m.start < 0) : Prints (sharefilesRun m) [.header, .status .c015] := by
  intro d
  unfold sharefilesRun getShareFilelist fileList
  rw [if_pos hcmd, CommandPrograms.bind_assoc]
  apply spec_msqlConn
  · change Spec Cmd.exec AnyOutcome ((mysqlQuery .setNames >>= _) >>= _) d _
    rw [CommandPrograms.bind_assoc]
    apply spec_setNames
    intro _
    apply spec_call
    intro o _
    cases o with
    | fail => exact spec_ret ⟨rfl, rfl⟩
    | ok k =>
      simp only [Cmd.exec, Sql.result, if_pos (Or.inl hstart : m.start < 0 ∨ m.count < 0)]
      exact spec_ret ⟨rfl, rfl⟩
  · intro _
    exact spec_ret ⟨rfl, rfl⟩

theorem start_written {buf : CString} {write : Sharefiles → Sharefiles} {n : ℤ}
    (hx : (getInfo sharefilesFields buf).written = some write) (hs : startOf buf = some n)
    (m : Sharefiles) : (write m).start = n := by
  unfold startOf at hs
  cases hroot : cJsonParse buf with
  | none => simp [hroot] at hs
  | some root =>
    simp only [hroot, Option.bind_some, Option.map_eq_some_iff] at hs
    obtain ⟨item, hitem, rfl⟩ := hs
    simp only [getInfo, hroot, sharefilesFields, copyFields, intField, hitem] at hx
    obtain ⟨w, hw, rfl⟩ := after_written hx
    split at hw
    · obtain rfl := Option.some.inj hw
      rfl
    · obtain ⟨w', hw', rfl⟩ := after_written hw
      obtain rfl := Option.some.inj hw'
      rfl

theorem start_left {buf : CString} {write : Sharefiles → Sharefiles}
    (hx : (getInfo sharefilesFields buf).written = some write) (hs : startOf buf = none)
    (m : Sharefiles) : write m = m := by
  unfold startOf at hs
  cases hroot : cJsonParse buf with
  | none =>
    simp only [getInfo, hroot] at hx
    obtain rfl := Option.some.inj hx
    rfl
  | some root =>
    simp only [hroot, Option.bind_some, Option.map_eq_none_iff] at hs
    simp only [getInfo, hroot, sharefilesFields, copyFields, intField, hs] at hx
    obtain rfl := Option.some.inj hx
    rfl

theorem sharefiles_free (h : SelfContained .sharefiles r) (m₁ m₂ : Sharefiles) :
    Same (sharefiles r m₁) (sharefiles r m₂) := by
  simp only [SelfContained] at h
  unfold sharefiles readCmd
  cases hcmd : r.cmd with
  | outside => exact same_refl _
  | absent =>
    rw [hcmd] at h
    exact h.elim
  | found cmd =>
    rw [hcmd] at h
    by_cases hcount : cmd = cstr "count"
    · simp only [hcount, if_true]
      exact same_bind _ fun line => same_reply _ _ _
    simp only [hcount, if_false]
    apply same_withBody
    intro buf hbuf
    cases hx : getInfo sharefilesFields buf with
    | crashed => exact same_refl _
    | complete write =>
      obtain ⟨start, count, hwrite⟩ := sharefiles_complete hx
      simp only [Extract.written, hwrite]
      exact same_refl _
    | stopped write =>
      obtain ⟨hpvdesc, hnormal⟩ := h buf hbuf (by rw [hx]; rfl)
      have hwritten : (getInfo sharefilesFields buf).written = some write := by rw [hx]; rfl
      have hwcmd := sharefiles_written_cmd hwritten
      by_cases hn : cmd = cstr "normal"
      · obtain ⟨n, hneg, hstart⟩ := hnormal hn
        have hrejected : ∀ m : Sharefiles,
            Prints (sharefilesRun (write { m with cmd })) [.header, .status .c015] := by
          intro m
          apply shareFilelist_rejected
          · rw [hwcmd]
            exact hn
          · rw [start_written hwritten hstart]
            exact hneg
        exact (hrejected m₁).same (hrejected m₂)
      · simp only [Extract.written, sharefilesRun, hwcmd, hn, hpvdesc, if_false]
        exact same_reply _ _ _

theorem md5_free (m₁ m₂ : Unit) : Same (md5 r m₁) (md5 r m₂) := same_refl _

end Free

/-! ## Requests that use what is left -/

theorem after_one {p : Program} {start m : p.Memory} {a : Arrival} {out : List Printed}
    (h : ((p.round a.request start).run Cmd.exec a.outcomes a.disk).1 = .served m out) :
    p.after start [a] = some m := by
  simp only [Program.after, h]

/-- One request to the state `ownedFile`, with nothing failing. -/
def answered {M : Type} (round : Request → M → Handler (Served M)) (q : Request) (m : M) :
    Served M := ((round q m).run Cmd.exec (fun _ => .ok 0) ownedFile).1

theorem not_free {p : Program} {r q₁ q₂ : Request} {start m₁ m₂ : p.Memory}
    {out₁ out₂ : List Printed} (h₁ : answered p.round q₁ start = .served m₁ out₁)
    (h₂ : answered p.round q₂ start = .served m₂ out₂)
    (hne : ¬ Same (p.round r m₁) (p.round r m₂)) : ¬ HistoryFree p r := by
  intro hfree
  have ha₁ : p.after start [arrival q₁] = some m₁ := after_one h₁
  have ha₂ : p.after start [arrival q₂] = some m₂ := after_one h₂
  exact hne (hfree start _ _ m₁ m₂ ha₁ ha₂)

/-- A delete request of user `a` with a token that is not the stored one. -/
def deleteGuessed : Request :=
  post "\x7b\"user\":\"a\",\"md5\":\"1\",\"filename\":\"f\",\"token\":\"x\"\x7d"

def owner : Filesop := ⟨[97], [116], [49], [102]⟩

def guesser : Filesop := { owner with token := [120] }

theorem left_filesop :
    answered filesop deleteOwn noRequest = .served owner [.header, .status .c013] ∧
      answered filesop deleteGuessed noRequest = .served guesser [.header, .status .c111] := by
  decide +kernel

def ask (query text : String) : Request := { post text with query := some (cstr query) }

section Left
variable {r : Request} {buf : CString}

theorem filesopRun_verified {m : Filesop} {d : Disk} (hv : Verified d m.user m.token) :
    Spec Cmd.exec NoFail (filesopRun m) d fun served _ =>
      output served ≠ some [.header, .status .c111] := by
  apply spec_verifyToken
  · intro _
    apply spec_bind
    intro e _
    apply spec_ret
    simp only [output, delFileStatus]
    split <;> simp
  · intro hno
    exact absurd hv (hno.resolve_left fun hf => hf.elim)

theorem filesopRun_refused {m : Filesop} {d : Disk} (hv : ¬ Verified d m.user m.token) :
    Spec Cmd.exec NoFail (filesopRun m) d fun served _ =>
      output served = some [.header, .status .c111] := by
  apply spec_verifyToken
  · intro hyes
    exact absurd hyes hv
  · intro _
    exact spec_ret rfl

theorem filesRun_verified {m : Files} {d : Disk} (hv : Verified d m.user m.token) :
    Spec Cmd.exec NoFail (filesRun m) d fun served _ =>
      output served ≠ some [.header, .status .c111] := by
  have hno : ¬ (NoFail .fail ∨ ¬ Verified d m.user m.token) := by
    rintro (hf | hn)
    · exact hf.elim
    · exact hn hv
  refine spec_verifyToken (fun _ => ?_) fun h => absurd h hno
  apply spec_filesCount
  intro _
  refine spec_verifyToken (fun _ => ?_) fun h => absurd h hno
  apply spec_bind
  intro e _
  split <;> exact spec_ret (by simp [output])

theorem filesRun_refused {m : Files} {d : Disk} (hv : ¬ Verified d m.user m.token) :
    Spec Cmd.exec NoFail (filesRun m) d fun served _ =>
      output served = some [.header, .status .c111] := by
  refine spec_verifyToken (fun h => absurd h hv) fun _ => ?_
  apply spec_filesCount
  intro _
  refine spec_verifyToken (fun h => absurd h hv) fun _ => ?_
  exact spec_ret rfl

def tokenDisk (user token : CString) : Disk :=
  { ownedFile with redis := fun key => if key = user then some (.string token) else none }

theorem tokenDisk_verified {user token t : CString} (h0 : (0 : UInt8) ∉ token) :
    Verified (tokenDisk user token) user t ↔ token = t := by
  constructor
  · rintro ⟨v, hv, rfl⟩
    simp only [tokenDisk, if_true, Option.some.injEq, RedisValue.string.injEq] at hv
    rw [← hv, untilNul_of_notMem h0]
  · rintro rfl
    exact ⟨token, if_pos rfl, untilNul_of_notMem h0⟩

theorem not_same_token {M : Type} {run : M → Handler (Served M)} (user token : M → CString)
    {m m' : M}
    (hverified : ∀ {d}, Verified d (user m) (token m) →
      Spec Cmd.exec NoFail (run m) d fun served _ => output served ≠ some [.header, .status .c111])
    (hrefused : ∀ {d}, ¬ Verified d (user m') (token m') →
      Spec Cmd.exec NoFail (run m') d fun served _ => output served = some [.header, .status .c111])
    (huser : user m' = user m) (h0 : (0 : UInt8) ∉ token m) (hne : token m ≠ token m') :
    ¬ Same (run m) (run m') := by
  have hyes : Verified (tokenDisk (user m) (token m)) (user m) (token m) :=
    (tokenDisk_verified h0).mpr rfl
  have hno : ¬ Verified (tokenDisk (user m) (token m)) (user m') (token m') := by
    rw [huser, tokenDisk_verified h0]
    exact hne
  exact not_same_output (hverified hyes) (hrefused hno)

theorem filesop_not_free (hbuf : r.read = .text buf) {write : Filesop → Filesop}
    (hx : getInfo filesopFields buf = .stopped write) : ¬ HistoryFree .filesop r := by
  have hc : ∀ token, ∀ field ∈ filesopFields.take 3,
      Commutes (fun m' => { m' with token }) field := by
    intro token field hfield
    simp only [filesopFields, List.take_succ_cons, List.take_zero, List.mem_cons, List.not_mem_nil,
      or_false] at hfield
    rcases hfield with rfl | rfl | rfl <;> exact stringField_commutes fun _ _ => rfl
  have htoken : ∀ token, write { owner with token } = { write owner with token } :=
    fun token => stopped_commutes (hc token) hx owner
  have hround : ∀ m, filesop r m = filesopRun (write m) := by
    intro m
    simp only [filesop, withBody, hbuf, hx, Extract.written]
  apply not_free (p := .filesop) left_filesop.1 left_filesop.2
  change ¬ Same (filesop r owner) (filesop r guesser)
  rw [hround, hround]
  have howner : (write owner).token = [116] := congrArg Filesop.token (htoken [116])
  apply not_same_token Filesop.user Filesop.token filesopRun_verified filesopRun_refused
  · rw [guesser, htoken [120]]
  · rw [howner]
    decide
  · rw [howner, guesser, htoken [120]]
    simp

theorem left_files :
    answered files deleteOwn ⟨[], []⟩ = .served ⟨[97], [116]⟩ [.header, .userFiles [[.str [97],
        .str [49], .str [], .str [102], .int 0, .int 0, .str [], .int 9, .str []]]] ∧
      answered files deleteGuessed ⟨[], []⟩ = .served ⟨[97], [120]⟩ [.header, .status .c111] := by
  decide +kernel

theorem files_not_free (hbuf : r.read = .text buf) {write : Files → Files}
    (hx : getInfo filesFields buf = .stopped write) : ¬ HistoryFree .files r := by
  have hc : ∀ token, ∀ field ∈ filesFields.take 1,
      Commutes (fun m' => { m' with token }) field := by
    intro token field hfield
    simp only [filesFields, List.take_succ_cons, List.take_zero, List.mem_cons, List.not_mem_nil,
      or_false] at hfield
    obtain rfl := hfield
    exact stringField_commutes fun _ _ => rfl
  have htoken : ∀ token, write ⟨[97], token⟩ = { write ⟨[97], [116]⟩ with token } :=
    fun token => stopped_commutes (hc token) hx ⟨[97], [116]⟩
  have hround : ∀ m, files r m = filesRun (write m) := by
    intro m
    simp only [files, withBody, hbuf, hx, Extract.written]
  apply not_free (p := .files) left_files.1 left_files.2
  change ¬ Same (files r ⟨[97], [116]⟩) (files r ⟨[97], [120]⟩)
  rw [hround, hround]
  have howner : (write ⟨[97], [116]⟩).token = [116] := congrArg Files.token (htoken [116])
  apply not_same_token Files.user Files.token filesRun_verified filesRun_refused
  · rw [htoken [120]]
  · rw [howner]
    decide
  · rw [howner, htoken [120]]
    simp

/-- A file that user and share list agree on, with nothing in the cache. -/
def oneShare (user md5 filename : CString) : Disk where
  fileInfo := {⟨md5, [7], [], 9, [], 1⟩}
  userFileList := {⟨user, md5, [], filename, 1, 0⟩}
  shareFileList := {⟨user, md5, [], filename, 0⟩}
  userFileCount := {⟨shareCountKey, 1⟩}
  storage := {[7]}
  redis _ := none

section Commands
variable {now : CString} {m : Sharefilesop} {d : Disk} {Q : Served Sharefilesop → Disk → Prop}

theorem spec_pv (hcmd : m.cmd = cstr "pv")
    (h : ∀ ret d', PvFile m.md5 m.filename d ret d' →
      Q (.served m [.header, .status (pvFileStatus ret)]) d') :
    Spec Cmd.exec NoFail (sharefilesopRun now m) d Q := by
  unfold sharefilesopRun
  rw [if_pos hcmd]
  apply spec_bind
  exact (pvFile_effect _ _ d).mono fun ret d' hpv => spec_ret (h ret d' hpv)

theorem spec_cancel (hcmd : m.cmd = cstr "cancel")
    (h : ∀ ret d', CancelShareFile m.user m.md5 m.filename d ret d' →
      Q (.served m [.header, .status (cancelShareFileStatus ret)]) d') :
    Spec Cmd.exec NoFail (sharefilesopRun now m) d Q := by
  unfold sharefilesopRun
  rw [if_neg (by rw [hcmd]; decide), if_pos hcmd]
  apply spec_bind
  exact (cancelShareFile_effect _ _ _ d).mono fun ret d' hc => spec_ret (h ret d' hc)

theorem spec_save (hcmd : m.cmd = cstr "save")
    (h : ∀ ret d', SaveFile now m.user m.md5 m.filename d ret d' →
      Q (.served m (.header :: (saveFileStatus ret).toList.map .status)) d') :
    Spec Cmd.exec NoFail (sharefilesopRun now m) d Q := by
  unfold sharefilesopRun
  rw [if_neg (by rw [hcmd]; decide), if_neg (by rw [hcmd]; decide), if_pos hcmd]
  apply spec_bind
  exact (saveFile_effect _ _ _ _ d).mono fun ret d' hs => spec_ret (h ret d' hs)

end Commands

section Differs
variable {now f g : CString} {m : Sharefilesop}

theorem pv_differs (hcmd : m.cmd = cstr "pv") (hne : f ≠ g) :
    ¬ Same (sharefilesopRun now { m with filename := f })
      (sharefilesopRun now { m with filename := g }) := by
  have hf : Spec Cmd.exec NoFail (sharefilesopRun now { m with filename := f })
      (oneShare m.user m.md5 f) fun served _ => output served ≠ some [.header, .status .c017] := by
    refine spec_pv hcmd fun ret d' h => ?_
    have hz : zsetExit (oneShare m.user m.md5 f) (m.md5 ++ f) = 0 := rfl
    cases h with
    | unshared hn => simp [oneShare, ShareFile.isNamed] at hn
    | confused h0 => exact absurd hz h0
    | bumped h1 => simp [hz] at h1
    | cached => simp [output, pvFileStatus]
  have hg : Spec Cmd.exec NoFail (sharefilesopRun now { m with filename := g })
      (oneShare m.user m.md5 f) fun served _ => output served = some [.header, .status .c017] := by
    refine spec_pv hcmd fun ret d' h => ?_
    cases h with
    | unshared hn => rfl
    | confused h0 h1 => rfl
    | bumped hz => rfl
    | cached hz r hr hm =>
      obtain rfl := Multiset.mem_singleton.mp hr
      simp [ShareFile.isNamed, hne] at hm
  exact not_same_output hf hg

theorem cancel_differs (hcmd : m.cmd = cstr "cancel") (hne : f ≠ g) :
    ¬ Same (sharefilesopRun now { m with filename := f })
      (sharefilesopRun now { m with filename := g }) := by
  have hrun : ∀ name, Spec Cmd.exec NoFail (sharefilesopRun now { m with filename := name })
      (oneShare m.user m.md5 f) fun _ d' => d'.shareFileList =
        deleteWhere (ShareFile.isRow m.user m.md5 name) {⟨m.user, m.md5, [], f, 0⟩} := by
    intro name
    refine spec_cancel hcmd fun ret d' h => ?_
    cases h with
    | uncounted hn => simp [oneShare, UserCount.ofUser] at hn
    | uncached t ht k n hn => rfl
    | cancelled t ht k l n => rfl
  apply not_same (hrun f) (hrun g)
  intro s d₁ t d₂ hs ht _ heq
  rw [heq, ht] at hs
  simp [deleteWhere, ShareFile.isRow, Multiset.filter_singleton, hne] at hs

theorem save_differs (hcmd : m.cmd = cstr "save") (hne : f ≠ g) :
    ¬ Same (sharefilesopRun now { m with filename := f })
      (sharefilesopRun now { m with filename := g }) := by
  have hknown : ¬ ∀ r ∈ (oneShare m.user m.md5 f).fileInfo, r.hasMd5 m.md5 = false := by
    simp [oneShare, FileInfo.hasMd5]
  have hf : Spec Cmd.exec NoFail (sharefilesopRun now { m with filename := f })
      (oneShare m.user m.md5 f) fun served _ => output served ≠ some [.header, .status .c020] := by
    refine spec_save hcmd fun ret d' h => ?_
    cases h with
    | owned => simp [output, saveFileStatus]
    | unknown hn => exact absurd hn hknown
    | added r hr hm hn => simp [oneShare, UserFile.isRow] at hn
  have hg : Spec Cmd.exec NoFail (sharefilesopRun now { m with filename := g })
      (oneShare m.user m.md5 f) fun served _ => output served = some [.header, .status .c020] := by
    refine spec_save hcmd fun ret d' h => ?_
    cases h with
    | owned r hr hu =>
      obtain rfl := Multiset.mem_singleton.mp hr
      simp [UserFile.isRow, hne] at hu
    | unknown hn => exact absurd hn hknown
    | added => rfl
  exact not_same_output hf hg

end Differs

/-- A request for nothing, which leaves its `cmd` and its members in the buffers. -/
def nameFile (filename : String) : Request :=
  ask "cmd=x" ("\x7b\"user\":\"a\",\"md5\":\"1\",\"filename\":\"" ++ filename ++ "\"\x7d")

def nothingNamed : Sharefilesop := ⟨[], [], [], []⟩

def named (filename : CString) : Sharefilesop := ⟨cstr "x", [97], [49], filename⟩

def query (text : String) : Request := ⟨some (cstr text), none, [], []⟩

theorem left_sharefilesop :
    answered sharefilesop (nameFile "f") nothingNamed = .served (named [102]) [.header] ∧
      answered sharefilesop (nameFile "g") nothingNamed = .served (named [103]) [.header] ∧
      answered sharefilesop (query "cmd=pv") nothingNamed =
        .served { nothingNamed with cmd := cstr "pv" } [.header, .noData] ∧
      answered sharefilesop (query "cmd=x") nothingNamed =
        .served { nothingNamed with cmd := cstr "x" } [.header, .noData] := by
  decide +kernel

theorem sharefilesop_not_free (hbuf : r.read = .text buf) {cmd : CString}
    (hcmd : r.cmd = .found cmd)
    (hused : cmd = cstr "pv" ∨ cmd = cstr "cancel" ∨ cmd = cstr "save")
    {write : Sharefilesop → Sharefilesop} (hx : getInfo sharefilesopFields buf = .stopped write) :
    ¬ HistoryFree .sharefilesop r := by
  have hc : ∀ filename, ∀ field ∈ sharefilesopFields.take 2,
      Commutes (fun m' => { m' with filename }) field := by
    intro filename field hfield
    simp only [sharefilesopFields, List.take_succ_cons, List.take_zero, List.mem_cons,
      List.not_mem_nil, or_false] at hfield
    rcases hfield with rfl | rfl <;> exact stringField_commutes fun _ _ => rfl
  let m : Sharefilesop := write ⟨cmd, [97], [49], []⟩
  have hname : ∀ filename, write ⟨cmd, [97], [49], filename⟩ = { m with filename } :=
    fun filename => stopped_commutes (hc filename) hx ⟨cmd, [97], [49], []⟩
  have hround : ∀ filename,
      sharefilesop r (named filename) = sharefilesopRun r.now { m with filename } := by
    intro filename
    rw [← hname]
    simp only [sharefilesop, readCmd, hcmd, withBody, hbuf, hx, Extract.written, named]
  have hm : m.cmd = cmd := sharefilesop_written_cmd (by rw [hx]; rfl) _
  have hne : ([102] : CString) ≠ [103] := by decide
  apply not_free (p := .sharefilesop) left_sharefilesop.1 left_sharefilesop.2.1
  change ¬ Same (sharefilesop r (named [102])) (sharefilesop r (named [103]))
  rw [hround, hround]
  rcases hused with hpv | hcancel | hsave
  · exact pv_differs (hm.trans hpv) hne
  · exact cancel_differs (hm.trans hcancel) hne
  · exact save_differs (hm.trans hsave) hne

theorem sharefilesop_not_free_absent (hbuf : r.read = .text buf) (hcmd : r.cmd = .absent)
    {write : Sharefilesop → Sharefilesop}
    (hx : (getInfo sharefilesopFields buf).written = some write) :
    ¬ HistoryFree .sharefilesop r := by
  have hround : ∀ m, sharefilesop r m = sharefilesopRun r.now (write m) := by
    intro m
    simp only [sharefilesop, readCmd, hcmd, withBody, hbuf, hx]
  apply not_free (p := .sharefilesop) left_sharefilesop.2.2.1 left_sharefilesop.2.2.2
  change ¬ Same (sharefilesop r _) (sharefilesop r _)
  rw [hround, hround]
  have hpv : Spec Cmd.exec NoFail (sharefilesopRun r.now (write { nothingNamed with
      cmd := cstr "pv" })) ownedFile fun served _ => output served ≠ some [.header] := by
    refine spec_pv (sharefilesop_written_cmd hx _) fun ret d' _ => ?_
    simp [output]
  have hother : Spec Cmd.exec NoFail (sharefilesopRun r.now (write { nothingNamed with
      cmd := cstr "x" })) ownedFile fun served _ => output served = some [.header] := by
    have hcmd : (write { nothingNamed with cmd := cstr "x" }).cmd = cstr "x" :=
      sharefilesop_written_cmd hx _
    unfold sharefilesopRun
    rw [hcmd, if_neg (by decide), if_neg (by decide), if_neg (by decide)]
    exact spec_ret rfl
  exact not_same_output hpv hother

def nothingAsked : Sharefiles := ⟨[], 0, 0⟩

def paged (count : ℤ) : Sharefiles := ⟨cstr "x", 0, count⟩

theorem left_sharefiles :
    answered sharefiles (ask "cmd=x" "\x7b\"start\":0,\"count\":0\x7d") nothingAsked =
        .served (paged 0) [.header] ∧
      answered sharefiles (ask "cmd=x" "\x7b\"start\":0,\"count\":1\x7d") nothingAsked =
        .served (paged 1) [.header] ∧
      answered sharefiles (ask "cmd=x" "\x7b\"start\":0,\"count\":-1\x7d") nothingAsked =
        .served (paged (-1)) [.header] ∧
      answered sharefiles (query "cmd=count") nothingAsked =
        .served { nothingAsked with cmd := cstr "count" } [.header, .number 0] ∧
      answered sharefiles (query "cmd=x") nothingAsked =
        .served { nothingAsked with cmd := cstr "x" } [.header, .noData] := by
  decide +kernel

def noShares : Disk where
  fileInfo := 0
  userFileList := 0
  shareFileList := 0
  userFileCount := {⟨shareCountKey, 0⟩}
  storage := ∅
  redis _ := none

theorem spec_zrevrange_none {α : Type} {d : Disk} {key : CString} {start stop : ℤ}
    {f : Option (List CString) → Handler α} {Q : α → Disk → Prop} (hnone : d.redis key = none)
    (h : Spec Cmd.exec NoFail (f (some [])) d Q) :
    Spec Cmd.exec NoFail (ropZsetZrevrange key start stop >>= f) d Q := by
  apply spec_call
  intro o ho
  cases o with
  | fail => exact ho.elim
  | ok k =>
    simp only [Cmd.exec, RedisCmd.exec, hnone]
    change Spec Cmd.exec NoFail (f (some (List.map _ (if _ then [] else List.take _ [])))) d Q
    rw [List.take_nil, ite_self]
    exact h

theorem ranking_noShares (start count : ℤ) :
    Spec Cmd.exec NoFail (getRankingFilelist start count) noShares fun items _ =>
      items = if count < 0 then none else some [] := by
  unfold getRankingFilelist getRankingFilelistIn
  refine spec_ropConnect ?_ NoFail.elim
  refine spec_msqlConn ?_ NoFail.elim
  apply spec_setNames
  intro _
  refine spec_selectUserCount ?_ ?_ NoFail.elim
  · intro r hr _
    obtain rfl := Multiset.mem_singleton.mp hr
    apply spec_call
    intro o ho
    cases o with
    | fail => exact ho.elim
    | ok k =>
      by_cases hcount : count < 0
      · rw [if_pos hcount, if_pos hcount]
        exact spec_ret rfl
      · rw [if_neg hcount, if_neg hcount]
        exact spec_zrevrange_none rfl (spec_ret rfl)
  · intro hn
    simp [noShares, UserCount.ofUser] at hn

theorem pvdesc_differs {m : Sharefiles} (hcmd : m.cmd = cstr "pvdesc") :
    ¬ Same (sharefilesRun { m with count := -1 }) (sharefilesRun { m with count := 0 }) := by
  have hrun : ∀ count : ℤ, Spec Cmd.exec NoFail (sharefilesRun { m with count }) noShares
      fun served _ => output served =
        some [.header, if count < 0 then .status .c015 else .ranking []] := by
    intro count
    unfold sharefilesRun
    rw [if_neg (by rw [hcmd]; decide), if_pos hcmd]
    apply spec_bind
    refine (ranking_noShares m.start count).mono fun items d' hitems => ?_
    rw [hitems]
    by_cases hcount : count < 0
    · rw [if_pos hcount, if_pos hcount]
      exact spec_ret rfl
    · rw [if_neg hcount, if_neg hcount]
      exact spec_ret rfl
  apply not_same (hrun (-1)) (hrun 0)
  intro s d₁ t d₂ hs ht heq _
  simp [hs, ht] at heq

def manyShares (n : ℕ) : Disk where
  fileInfo := {⟨[49], [7], [], 9, [], 1⟩}
  userFileList := 0
  shareFileList := Multiset.replicate n ⟨[97], [49], [], [102], 0⟩
  userFileCount := 0
  storage := {[7]}
  redis _ := none

theorem shareFileInfo_manyShares {start count : ℤ} (hs : 0 ≤ start) (hc : 0 ≤ count) (k : ℕ) :
    ∃ rows, (Sql.shareFileInfo start count).result k (manyShares (start.toNat + 1)) = some rows ∧
      rows.length = min count.toNat 1 := by
  have hno : ¬ (start < 0 ∨ count < 0) := by omega
  refine ⟨_, if_neg hno, ?_⟩
  rw [List.length_take, List.length_drop, length_listing, joinFileInfo, Multiset.card_map]
  rw [Multiset.filter_eq_self.mpr]
  · simp [manyShares]
  · rintro ⟨share, file⟩ h
    obtain ⟨hshare, hfile⟩ := Multiset.mem_product.mp h
    obtain rfl := Multiset.eq_of_mem_replicate hshare
    obtain rfl := Multiset.mem_singleton.mp hfile
    rfl

theorem normal_differs {m : Sharefiles} (hcmd : m.cmd = cstr "normal") (hstart : 0 ≤ m.start) :
    ¬ Same (sharefilesRun { m with count := 1 }) (sharefilesRun { m with count := 0 }) := by
  have hrun : ∀ count : ℤ, 0 ≤ count → Spec Cmd.exec NoFail (sharefilesRun { m with count })
      (manyShares (m.start.toNat + 1)) fun served _ =>
        (output served = some [.header, .status .c015] ↔ count = 0) := by
    intro count hcount
    unfold sharefilesRun getShareFilelist fileList
    rw [if_pos hcmd, CommandPrograms.bind_assoc]
    refine spec_msqlConn ?_ NoFail.elim
    change Spec Cmd.exec NoFail ((mysqlQuery .setNames >>= _) >>= _) _ _
    rw [CommandPrograms.bind_assoc]
    apply spec_setNames
    intro _
    apply spec_call
    intro o ho
    cases o with
    | fail => exact ho.elim
    | ok k =>
      obtain ⟨rows, hrows, hlen⟩ := shareFileInfo_manyShares hstart hcount k
      simp only [Cmd.exec, hrows]
      cases rows with
      | nil =>
        apply spec_ret
        simp only [output, true_iff]
        simp only [List.length_nil] at hlen
        omega
      | cons row rest =>
        apply spec_ret
        simp only [List.length_cons] at hlen
        simp only [output, Option.some.injEq, List.cons.injEq, reduceCtorEq, false_and, and_false,
          false_iff]
        omega
  apply not_same (hrun 1 (by omega)) (hrun 0 (by omega))
  intro s d₁ t d₂ hs ht heq _
  rw [heq, ht] at hs
  simp at hs

/-- With `count` missing the page is as long as an earlier request wanted it. -/
theorem sharefiles_not_free (hbuf : r.read = .text buf) {cmd : CString} (hcmd : r.cmd = .found cmd)
    {write : Sharefiles → Sharefiles} (hx : getInfo sharefilesFields buf = .stopped write)
    (hused : cmd = cstr "pvdesc" ∨ cmd = cstr "normal" ∧ ∀ n, startOf buf = some n → 0 ≤ n) :
    ¬ HistoryFree .sharefiles r := by
  have hc : ∀ count, ∀ field ∈ sharefilesFields.take 1,
      Commutes (fun m' => { m' with count }) field := by
    intro count field hfield
    simp only [sharefilesFields, List.take_succ_cons, List.take_zero, List.mem_cons,
      List.not_mem_nil, or_false] at hfield
    obtain rfl := hfield
    exact intField_commutes fun _ _ => rfl
  have hwritten : (getInfo sharefilesFields buf).written = some write := by rw [hx]; rfl
  let m : Sharefiles := write ⟨cmd, 0, 0⟩
  have hpage : ∀ count, write ⟨cmd, 0, count⟩ = { m with count } :=
    fun count => stopped_commutes (hc count) hx ⟨cmd, 0, 0⟩
  have hm : m.cmd = cmd := sharefiles_written_cmd hwritten _
  have hround : cmd ≠ cstr "count" →
      ∀ count, sharefiles r (paged count) = sharefilesRun { m with count } := by
    intro hcount count
    rw [← hpage]
    simp only [sharefiles, readCmd, hcmd, hcount, if_false, withBody, hbuf, hx, Extract.written,
      paged]
  rcases hused with rfl | ⟨rfl, hstart⟩
  · apply not_free (p := .sharefiles) left_sharefiles.2.2.1 left_sharefiles.1
    change ¬ Same (sharefiles r (paged (-1))) (sharefiles r (paged 0))
    rw [hround (by decide), hround (by decide)]
    exact pvdesc_differs hm
  · apply not_free (p := .sharefiles) left_sharefiles.2.1 left_sharefiles.1
    change ¬ Same (sharefiles r (paged 1)) (sharefiles r (paged 0))
    rw [hround (by decide), hround (by decide)]
    apply normal_differs hm
    cases hs : startOf buf with
    | none =>
      have h0 : m = ⟨cstr "normal", 0, 0⟩ := start_left hwritten hs _
      simp [h0]
    | some n =>
      have hn : m.start = n := start_written hwritten hs _
      rw [hn]
      exact hstart n hs

/-- Whether the request asks for the count is decided by what `cmd` still holds. -/
theorem sharefiles_not_free_absent (hcmd : r.cmd = .absent) : ¬ HistoryFree .sharefiles r := by
  apply not_free (p := .sharefiles) left_sharefiles.2.2.2.1 left_sharefiles.2.2.2.2
  have hcount : Spec Cmd.exec NoFail (sharefiles r { nothingAsked with cmd := cstr "count" })
      ownedFile fun served _ => ∃ n, output served = some [.header, .number n] := by
    simp only [sharefiles, readCmd, hcmd, if_true]
    apply spec_filesCount
    intro n
    exact spec_ret ⟨n, rfl⟩
  have hother : Spec Cmd.exec NoFail (sharefiles r { nothingAsked with cmd := cstr "x" })
      ownedFile fun served _ => ∀ n, output served ≠ some [.header, .number n] := by
    simp only [sharefiles, readCmd, hcmd]
    rw [if_neg (by decide)]
    unfold withBody
    split
    next => exact spec_ret (by simp [output])
    next => exact spec_ret (by simp [output])
    next => exact spec_ret (by simp [output])
    next buf _ =>
      dsimp only
      split
      next => exact spec_ret (by simp [output])
      next write hwrite =>
        have hx : (write { nothingAsked with cmd := cstr "x" }).cmd = cstr "x" :=
          sharefiles_written_cmd hwrite _
        unfold sharefilesRun
        rw [hx, if_neg (by decide), if_neg (by decide)]
        exact spec_ret (by simp [output])
  apply not_same hcount hother
  rintro s d₁ t d₂ ⟨n, hs⟩ ht heq _
  exact ht n (heq.symm.trans hs)

end Left

/-! ## The two together -/

theorem stopped_of_not {M : Type} {x : Extract M} (h : ¬ x.isStopped = false) :
    ∃ write, x = .stopped write := by
  cases x with
  | crashed => exact absurd rfl h
  | complete write => exact absurd rfl h
  | stopped write => exact ⟨write, rfl⟩

theorem selfContained_of_free {p : Program} {r : Request} (h : HistoryFree p r) :
    SelfContained p r := by
  cases p with
  | md5 => trivial
  | files =>
    intro buf hbuf
    by_contra hstop
    obtain ⟨write, hx⟩ := stopped_of_not hstop
    exact files_not_free hbuf hx h
  | filesop =>
    intro buf hbuf
    by_contra hstop
    obtain ⟨write, hx⟩ := stopped_of_not hstop
    exact filesop_not_free hbuf hx h
  | sharefilesop =>
    simp only [SelfContained]
    cases hcmd : r.cmd with
    | outside => trivial
    | absent =>
      intro buf hbuf
      cases hx : (getInfo sharefilesopFields buf).written with
      | none => rfl
      | some write => exact absurd h (sharefilesop_not_free_absent hbuf hcmd hx)
    | found cmd =>
      intro hused buf hbuf
      by_contra hstop
      obtain ⟨write, hx⟩ := stopped_of_not hstop
      exact sharefilesop_not_free hbuf hcmd hused hx h
  | sharefiles =>
    simp only [SelfContained]
    cases hcmd : r.cmd with
    | outside => trivial
    | absent => exact sharefiles_not_free_absent hcmd h
    | found cmd =>
      intro buf hbuf hstop
      obtain ⟨write, hx⟩ := stopped_of_not (x := getInfo sharefilesFields buf) (by simp [hstop])
      refine ⟨fun hpv => sharefiles_not_free hbuf hcmd hx (.inl hpv) h, fun hnormal => ?_⟩
      by_contra hneg
      refine sharefiles_not_free hbuf hcmd hx (.inr ⟨hnormal, fun n hn => ?_⟩) h
      by_contra hlt
      exact hneg ⟨n, by omega, hn⟩

theorem free_of_selfContained {p : Program} {r : Request} (h : SelfContained p r) :
    HistoryFree p r := by
  intro start h₁ h₂ m₁ m₂ _ _
  cases p with
  | md5 => exact md5_free m₁ m₂
  | files => exact files_free h m₁ m₂
  | filesop => exact filesop_free h m₁ m₂
  | sharefilesop => exact sharefilesop_free h m₁ m₂
  | sharefiles => exact sharefiles_free h m₁ m₂

theorem history_free_iff (p : Program) (r : Request) : HistoryFree p r ↔ SelfContained p r :=
  ⟨selfContained_of_free, free_of_selfContained⟩

/-- After the owner's request a body that is no JSON deletes the owner's file once more;
after a request with a wrong token it is refused. -/
theorem not_history_free_leftover : ¬ HistoryFree .filesop (post "x") := by
  apply not_free (p := .filesop) left_filesop.1 left_filesop.2
  intro hsame
  have howner : output ((filesop (post "x") owner).run Cmd.exec (fun _ => .ok 0) ownedFile).1 =
      some [.header, .status .c013] := by decide +kernel
  have hguesser : output ((filesop (post "x") guesser).run Cmd.exec (fun _ => .ok 0)
      ownedFile).1 = some [.header, .status .c111] := by decide +kernel
  have heq := (hsame (fun _ => .ok 0) ownedFile).1
  have hne : some [Printed.header, .status .c013] ≠ some [.header, .status .c111] := by decide
  exact hne (howner.symm.trans (heq.trans hguesser))

end RequestHistories
