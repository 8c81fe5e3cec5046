import CloudDisk.DiskHandlers

/-! # Rules for the building blocks of the handlers

One rule for each wrapper around a command, for any set of admissible outcomes. A rule
asks what follows a success and, where failures are admissible, what follows a failure. -/
namespace HandlerRules

open ByteStrings CommandPrograms RowTables DiskState DiskHandlers

/-- No MySQL, Redis or storage failure. -/
def NoFail (o : Outcome) : Prop := o ≠ .fail

theorem NoFail.elim {P : Prop} (h : NoFail .fail) : P := absurd rfl h

/-- Any command may fail. -/
def AnyOutcome (_ : Outcome) : Prop := True

section
variable {α : Type} {adm : ℕ → Outcome → Prop} {d : Disk} {Q : α → Disk → Prop}

theorem specSeq_msqlConn {f : Bool → Handler α}
    (h : ∀ k, adm 0 (.ok k) → SpecSeq Cmd.exec (fun i => adm (i + 1)) (f true) d Q)
    (hf : adm 0 .fail → SpecSeq Cmd.exec (fun i => adm (i + 1)) (f false) d Q) :
    SpecSeq Cmd.exec adm (msqlConn >>= f) d Q := by
  apply specSeq_call
  intro o ho
  cases o with
  | fail => exact hf ho
  | ok k => exact h k ho

theorem specSeq_ropConnect {f : Bool → Handler α}
    (h : ∀ k, adm 0 (.ok k) → SpecSeq Cmd.exec (fun i => adm (i + 1)) (f true) d Q)
    (hf : adm 0 .fail → SpecSeq Cmd.exec (fun i => adm (i + 1)) (f false) d Q) :
    SpecSeq Cmd.exec adm (ropConnectdbNopwd >>= f) d Q := by
  apply specSeq_call
  intro o ho
  cases o with
  | fail => exact hf ho
  | ok k => exact h k ho

theorem specSeq_mysqlQuery {q : Sql} {f : Bool → Handler α} (hq : ∀ k, (q.result k d).isSome)
    (h : ∀ k, adm 0 (.ok k) → SpecSeq Cmd.exec (fun i => adm (i + 1)) (f true) (q.effect d) Q)
    (hf : adm 0 .fail → SpecSeq Cmd.exec (fun i => adm (i + 1)) (f false) d Q) :
    SpecSeq Cmd.exec adm (mysqlQuery q >>= f) d Q := by
  apply specSeq_call
  intro o ho
  cases o with
  | fail => exact hf ho
  | ok k =>
    obtain ⟨rs, hrs⟩ := Option.isSome_iff_exists.mp (hq k)
    simp only [Cmd.exec, hrs]
    exact h k ho

theorem specSeq_setNames {f : Bool → Handler α}
    (h : ∀ b, SpecSeq Cmd.exec (fun i => adm (i + 1)) (f b) d Q) :
    SpecSeq Cmd.exec adm (mysqlQuery .setNames >>= f) d Q :=
  specSeq_mysqlQuery (fun _ => rfl) (fun _ _ => h true) fun _ => h false

theorem specSeq_processResultOne {q : Sql} {buf : Bool} {f : ResultOne → Handler α}
    {rows : Multiset (List Cell)} (hq : ∀ k, q.result k d = some (listing k rows))
    (he : q.effect d = d)
    (hs : ∀ k, adm 0 (.ok k) → ∀ row ∈ rows, SpecSeq Cmd.exec (fun i => adm (i + 1))
      (f (if buf then .saved (row.head?.getD (.str [])) else .hasRecord)) d Q)
    (hn : ∀ k, adm 0 (.ok k) → rows = 0 →
      SpecSeq Cmd.exec (fun i => adm (i + 1)) (f .noRecord) d Q)
    (hf : adm 0 .fail → SpecSeq Cmd.exec (fun i => adm (i + 1)) (f .failed) d Q) :
    SpecSeq Cmd.exec adm (processResultOne q buf >>= f) d Q := by
  apply specSeq_call
  intro o ho
  cases o with
  | fail => exact hf ho
  | ok k =>
    simp only [Cmd.exec, hq k, he]
    cases hl : listing k rows with
    | nil => exact hn k ho (listing_eq_nil.mp hl)
    | cons row rest => exact hs k ho row (mem_listing.mp (by rw [hl]; simp))

theorem specSeq_select {β : Type} {t : Multiset β} {p : β → Bool} {columns : β → List Cell}
    {q : Sql} {buf : Bool} {f : ResultOne → Handler α}
    (hq : ∀ k, q.result k d = some (listing k ((rowsWhere p t).map columns)))
    (he : q.effect d = d)
    (hs : ∀ k, adm 0 (.ok k) → ∀ r ∈ t, p r → SpecSeq Cmd.exec (fun i => adm (i + 1))
      (f (if buf then .saved ((columns r).head?.getD (.str [])) else .hasRecord)) d Q)
    (hn : ∀ k, adm 0 (.ok k) → (∀ r ∈ t, p r = false) →
      SpecSeq Cmd.exec (fun i => adm (i + 1)) (f .noRecord) d Q)
    (hf : adm 0 .fail → SpecSeq Cmd.exec (fun i => adm (i + 1)) (f .failed) d Q) :
    SpecSeq Cmd.exec adm (processResultOne q buf >>= f) d Q := by
  refine specSeq_processResultOne hq he ?_ ?_ hf
  · intro k hk row hrow
    obtain ⟨r, hr, rfl⟩ := Multiset.mem_map.mp hrow
    obtain ⟨hr, hp⟩ := mem_rowsWhere.mp hr
    exact hs k hk r hr hp
  · intro k hk hz
    exact hn k hk (rowsWhere_eq_zero.mp (Multiset.map_eq_zero.mp hz))

/-- What `rop_zset_exit` answers in this state when the command succeeds. -/
def zsetExit (d : Disk) (member : CString) : ℤ :=
  match d.redis filePublicZset with
  | none => 0
  | some (.zset z) => z.lexCount member member
  | some _ => -1

theorem zsetExit_effect (q : Sql) (d : Disk) (member : CString) :
    zsetExit (q.effect d) member = zsetExit d member := by
  cases q <;> rfl

theorem specSeq_ropZsetExit {member : CString} {f : ℤ → Handler α}
    (h : ∀ k, adm 0 (.ok k) →
      SpecSeq Cmd.exec (fun i => adm (i + 1)) (f (zsetExit d member)) d Q)
    (hf : adm 0 .fail → SpecSeq Cmd.exec (fun i => adm (i + 1)) (f (-1)) d Q) :
    SpecSeq Cmd.exec adm (ropZsetExit filePublicZset member >>= f) d Q := by
  apply specSeq_call
  intro o ho
  cases o with
  | fail => exact hf ho
  | ok k =>
    have h := h k ho
    unfold zsetExit at h
    simp only [Cmd.exec, RedisCmd.exec]
    cases hz : d.redis filePublicZset with
    | none => rw [hz] at h; exact h
    | some v => rw [hz] at h; cases v <;> exact h

/-- The state after a Redis command that succeeds, with the server's choice `k`. -/
def afterRedis (k : ℕ) (c : RedisCmd) (d : Disk) : Disk :=
  { d with redis := (c.exec k d.redis).2 }

theorem onlyOne_eq_zero (r : Reply) : onlyOne r = 0 ↔ r = .integer 1 := by
  unfold onlyOne
  split
  · simp
  next hr => simpa using hr

theorem specSeq_ropWantsOne {c : RedisCmd} {f : ℤ → Handler α}
    (h : ∀ k n, adm 0 (.ok k) → (n = 0 ↔ (c.exec k d.redis).1 = .integer 1) →
      SpecSeq Cmd.exec (fun i => adm (i + 1)) (f n) (afterRedis k c d) Q)
    (hf : adm 0 .fail → SpecSeq Cmd.exec (fun i => adm (i + 1)) (f (-1)) d Q) :
    SpecSeq Cmd.exec adm (ropWantsOne c >>= f) d Q := by
  apply specSeq_call
  intro o ho
  cases o with
  | fail => exact hf ho
  | ok k => exact h k _ ho (onlyOne_eq_zero _)

theorem specSeq_ropHashSet {key field value : CString} {f : ℤ → Handler α}
    (h : ∀ k n, adm 0 (.ok k) → SpecSeq Cmd.exec (fun i => adm (i + 1)) (f n)
      (afterRedis k (.hset key field value) d) Q)
    (hf : adm 0 .fail → SpecSeq Cmd.exec (fun i => adm (i + 1)) (f (-1)) d Q) :
    SpecSeq Cmd.exec adm (ropHashSet key field value >>= f) d Q := by
  apply specSeq_call
  intro o ho
  cases o with
  | fail => exact hf ho
  | ok k =>
    have hone : ∀ n, SpecSeq Cmd.exec (fun i => adm (i + 1)) (f n)
      { d with redis := (RedisCmd.exec k (.hset key field value) d.redis).2 } Q :=
        fun n => h k n ho
    simp only [Cmd.exec]
    cases (RedisCmd.exec k (.hset key field value) d.redis).1 with
    | integer n => exact hone 0
    | failed => exact hone (-1)
    | done => exact hone (-1)
    | rows rs => exact hone (-1)
    | string s => exact hone (-1)
    | score n => exact hone (-1)
    | nil => exact hone (-1)
    | array l => exact hone (-1)

theorem specSeq_removeFile {fileid : CString} {f : Bool → Handler α}
    (h : ∀ k, adm 0 (.ok k) → fileid ∈ d.storage → SpecSeq Cmd.exec (fun i => adm (i + 1))
      (f true) { d with storage := d.storage.erase fileid } Q)
    (hn : ∀ k, adm 0 (.ok k) → fileid ∉ d.storage →
      SpecSeq Cmd.exec (fun i => adm (i + 1)) (f false) d Q)
    (hf : adm 0 .fail → SpecSeq Cmd.exec (fun i => adm (i + 1)) (f false) d Q) :
    SpecSeq Cmd.exec adm (removeFileFromStorage fileid >>= f) d Q := by
  apply specSeq_call
  intro o ho
  cases o with
  | fail => exact hf ho
  | ok k =>
    by_cases hs : fileid ∈ d.storage
    · simp only [Cmd.exec, hs, if_true]
      exact h k ho hs
    · simp only [Cmd.exec, hs, if_false]
      exact hn k ho hs

end

/-! ## The same outcomes admissible throughout -/

section
variable {α : Type} {adm : Outcome → Prop} {d : Disk} {Q : α → Disk → Prop}

theorem spec_msqlConn {f : Bool → Handler α} (h : Spec Cmd.exec adm (f true) d Q)
    (hf : adm .fail → Spec Cmd.exec adm (f false) d Q) :
    Spec Cmd.exec adm (msqlConn >>= f) d Q :=
  specSeq_msqlConn (fun _ _ => h) hf

theorem spec_ropConnect {f : Bool → Handler α} (h : Spec Cmd.exec adm (f true) d Q)
    (hf : adm .fail → Spec Cmd.exec adm (f false) d Q) :
    Spec Cmd.exec adm (ropConnectdbNopwd >>= f) d Q :=
  specSeq_ropConnect (fun _ _ => h) hf

theorem spec_mysqlQuery {q : Sql} {f : Bool → Handler α} (hq : ∀ k, (q.result k d).isSome)
    (h : Spec Cmd.exec adm (f true) (q.effect d) Q)
    (hf : adm .fail → Spec Cmd.exec adm (f false) d Q) :
    Spec Cmd.exec adm (mysqlQuery q >>= f) d Q :=
  specSeq_mysqlQuery hq (fun _ _ => h) hf

theorem spec_setNames {f : Bool → Handler α} (h : ∀ b, Spec Cmd.exec adm (f b) d Q) :
    Spec Cmd.exec adm (mysqlQuery .setNames >>= f) d Q :=
  specSeq_setNames h

theorem spec_select {β : Type} {t : Multiset β} {p : β → Bool} {columns : β → List Cell}
    {q : Sql} {buf : Bool} {f : ResultOne → Handler α}
    (hq : ∀ k, q.result k d = some (listing k ((rowsWhere p t).map columns)))
    (he : q.effect d = d)
    (hs : ∀ r ∈ t, p r → Spec Cmd.exec adm
      (f (if buf then .saved ((columns r).head?.getD (.str [])) else .hasRecord)) d Q)
    (hn : (∀ r ∈ t, p r = false) → Spec Cmd.exec adm (f .noRecord) d Q)
    (hf : adm .fail → Spec Cmd.exec adm (f .failed) d Q) :
    Spec Cmd.exec adm (processResultOne q buf >>= f) d Q :=
  specSeq_select hq he (fun _ _ => hs) (fun _ _ => hn) hf

theorem spec_selectFileCount {md5 : CString} {f : ResultOne → Handler α}
    (hs : ∀ r ∈ d.fileInfo, r.hasMd5 md5 → Spec Cmd.exec adm (f (.saved (.int r.count))) d Q)
    (hn : (∀ r ∈ d.fileInfo, r.hasMd5 md5 = false) → Spec Cmd.exec adm (f .noRecord) d Q)
    (hf : adm .fail → Spec Cmd.exec adm (f .failed) d Q) :
    Spec Cmd.exec adm (processResultOne (selectFileCount md5) true >>= f) d Q :=
  spec_select (t := d.fileInfo) (fun _ => rfl) rfl hs hn hf

theorem spec_selectFileId {md5 : CString} {f : ResultOne → Handler α}
    (hs : ∀ r ∈ d.fileInfo, r.hasMd5 md5 → Spec Cmd.exec adm (f (.saved (.str r.fileId))) d Q)
    (hn : (∀ r ∈ d.fileInfo, r.hasMd5 md5 = false) → Spec Cmd.exec adm (f .noRecord) d Q)
    (hf : adm .fail → Spec Cmd.exec adm (f .failed) d Q) :
    Spec Cmd.exec adm (processResultOne (selectFileId md5) true >>= f) d Q :=
  spec_select (t := d.fileInfo) (fun _ => rfl) rfl hs hn hf

theorem spec_selectUserFile {user md5 filename : CString} {f : ResultOne → Handler α}
    (hs : ∀ r ∈ d.userFileList, r.isRow user md5 filename →
      Spec Cmd.exec adm (f .hasRecord) d Q)
    (hn : (∀ r ∈ d.userFileList, r.isRow user md5 filename = false) →
      Spec Cmd.exec adm (f .noRecord) d Q)
    (hf : adm .fail → Spec Cmd.exec adm (f .failed) d Q) :
    Spec Cmd.exec adm (processResultOne (selectUserFile user md5 filename) false >>= f) d Q :=
  spec_select (t := d.userFileList) (fun _ => rfl) rfl hs hn hf

theorem spec_selectSharedStatus {user md5 filename : CString} {f : ResultOne → Handler α}
    (hs : ∀ r ∈ d.userFileList, r.isRow user md5 filename →
      Spec Cmd.exec adm (f (.saved (.int r.sharedStatus))) d Q)
    (hn : (∀ r ∈ d.userFileList, r.isRow user md5 filename = false) →
      Spec Cmd.exec adm (f .noRecord) d Q)
    (hf : adm .fail → Spec Cmd.exec adm (f .failed) d Q) :
    Spec Cmd.exec adm (processResultOne (selectSharedStatus user md5 filename) true >>= f) d Q :=
  spec_select (t := d.userFileList) (fun _ => rfl) rfl hs hn hf

theorem spec_selectShareFile {md5 filename : CString} {f : ResultOne → Handler α}
    (hs : ∀ r ∈ d.shareFileList, r.isNamed md5 filename →
      Spec Cmd.exec adm (f .hasRecord) d Q)
    (hn : (∀ r ∈ d.shareFileList, r.isNamed md5 filename = false) →
      Spec Cmd.exec adm (f .noRecord) d Q)
    (hf : adm .fail → Spec Cmd.exec adm (f .failed) d Q) :
    Spec Cmd.exec adm (processResultOne (selectShareFile md5 filename) false >>= f) d Q :=
  spec_select (t := d.shareFileList) (fun _ => rfl) rfl hs hn hf

theorem spec_selectSharePv {md5 filename : CString} {f : ResultOne → Handler α}
    (hs : ∀ r ∈ d.shareFileList, r.isNamed md5 filename →
      Spec Cmd.exec adm (f (.saved (.int r.pv))) d Q)
    (hn : (∀ r ∈ d.shareFileList, r.isNamed md5 filename = false) →
      Spec Cmd.exec adm (f .noRecord) d Q)
    (hf : adm .fail → Spec Cmd.exec adm (f .failed) d Q) :
    Spec Cmd.exec adm (processResultOne (selectSharePv md5 filename) true >>= f) d Q :=
  spec_select (t := d.shareFileList) (fun _ => rfl) rfl hs hn hf

theorem spec_selectUserCount {user : CString} {f : ResultOne → Handler α}
    (hs : ∀ r ∈ d.userFileCount, r.ofUser user →
      Spec Cmd.exec adm (f (.saved (.int r.count))) d Q)
    (hn : (∀ r ∈ d.userFileCount, r.ofUser user = false) →
      Spec Cmd.exec adm (f .noRecord) d Q)
    (hf : adm .fail → Spec Cmd.exec adm (f .failed) d Q) :
    Spec Cmd.exec adm (processResultOne (selectUserCount user) true >>= f) d Q :=
  spec_select (t := d.userFileCount) (fun _ => rfl) rfl hs hn hf

theorem spec_ropZsetExit {member : CString} {f : ℤ → Handler α}
    (h : Spec Cmd.exec adm (f (zsetExit d member)) d Q)
    (hf : adm .fail → Spec Cmd.exec adm (f (-1)) d Q) :
    Spec Cmd.exec adm (ropZsetExit filePublicZset member >>= f) d Q :=
  specSeq_ropZsetExit (fun _ _ => h) hf

theorem spec_ropWantsOne {c : RedisCmd} {f : ℤ → Handler α}
    (h : ∀ k n, (n = 0 ↔ (c.exec k d.redis).1 = .integer 1) →
      Spec Cmd.exec adm (f n) (afterRedis k c d) Q)
    (hf : adm .fail → Spec Cmd.exec adm (f (-1)) d Q) :
    Spec Cmd.exec adm (ropWantsOne c >>= f) d Q :=
  specSeq_ropWantsOne (fun k n _ => h k n) hf

theorem spec_ropHashSet {key field value : CString} {f : ℤ → Handler α}
    (h : ∀ k n, Spec Cmd.exec adm (f n) (afterRedis k (.hset key field value) d) Q)
    (hf : adm .fail → Spec Cmd.exec adm (f (-1)) d Q) :
    Spec Cmd.exec adm (ropHashSet key field value >>= f) d Q :=
  specSeq_ropHashSet (fun k n _ => h k n) hf

theorem spec_ropZsetIncrement {key member : CString} {f : ℤ → Handler α}
    (h : ∀ k, Spec Cmd.exec adm (f (-1)) (afterRedis k (.zincrby key member) d) Q)
    (hf : adm .fail → Spec Cmd.exec adm (f (-1)) d Q) :
    Spec Cmd.exec adm (ropZsetIncrement key member >>= f) d Q := by
  apply spec_call
  intro o ho
  cases o with
  | fail => exact hf ho
  | ok k =>
    have hr : (RedisCmd.exec k (.zincrby key member) d.redis).1 ≠ .done := by
      simp only [RedisCmd.exec]
      split <;> simp
    have hone : Spec Cmd.exec adm (f (-1))
      { d with redis := (RedisCmd.exec k (.zincrby key member) d.redis).2 } Q := h k
    simp only [Cmd.exec]
    generalize (RedisCmd.exec k (.zincrby key member) d.redis).1 = r at hr
    cases r with
    | done => exact absurd rfl hr
    | failed => exact hone
    | integer n => exact hone
    | rows rs => exact hone
    | string s => exact hone
    | score n => exact hone
    | nil => exact hone
    | array l => exact hone

theorem spec_removeFile {fileid : CString} {f : Bool → Handler α}
    (h : fileid ∈ d.storage →
      Spec Cmd.exec adm (f true) { d with storage := d.storage.erase fileid } Q)
    (hn : fileid ∉ d.storage → Spec Cmd.exec adm (f false) d Q)
    (hf : adm .fail → Spec Cmd.exec adm (f false) d Q) :
    Spec Cmd.exec adm (removeFileFromStorage fileid >>= f) d Q :=
  specSeq_removeFile (fun _ _ => h) (fun _ _ => hn) hf

end

/-! ## The commands a wrapper can issue -/

section
variable {α : Type} {P : Cmd → Prop}

theorem all_ite {b : Prop} [Decidable b] {p q : Handler α} (hp : p.All P) (hq : q.All P) :
    (if b then p else q).All P := by
  split
  · exact hp
  · exact hq

theorem all_msqlConn (h : P .mysqlConnect) : msqlConn.All P :=
  ⟨h, fun r => by cases r <;> trivial⟩

theorem all_ropConnect (h : P .redisConnect) : ropConnectdbNopwd.All P :=
  ⟨h, fun r => by cases r <;> trivial⟩

theorem all_mysqlQuery {q : Sql} (h : P (.query q)) : (mysqlQuery q).All P :=
  ⟨h, fun r => by cases r <;> trivial⟩

theorem all_processResultOne {q : Sql} {buf : Bool} (h : P (.query q)) :
    (processResultOne q buf).All P :=
  ⟨h, fun _ => trivial⟩

theorem all_ropZsetExit {key member : CString} (h : P (.redis (.zlexcount key member member))) :
    (ropZsetExit key member).All P :=
  ⟨h, fun r => by cases r <;> trivial⟩

theorem all_ropWantsOne {c : RedisCmd} (h : P (.redis c)) : (ropWantsOne c).All P :=
  ⟨h, fun _ => trivial⟩

theorem all_ropHashSet {key field value : CString} (h : P (.redis (.hset key field value))) :
    (ropHashSet key field value).All P :=
  ⟨h, fun r => by cases r <;> trivial⟩

theorem all_ropZsetIncrement {key member : CString} (h : P (.redis (.zincrby key member))) :
    (ropZsetIncrement key member).All P :=
  ⟨h, fun r => by cases r <;> trivial⟩

theorem all_ropHashGet {key field : CString} (h : P (.redis (.hget key field))) :
    (ropHashGet key field).All P :=
  ⟨h, fun r => by cases r <;> trivial⟩

theorem all_ropZsetZcard {key : CString} (h : P (.redis (.zcard key))) : (ropZsetZcard key).All P :=
  ⟨h, fun r => by cases r <;> trivial⟩

theorem all_ropZsetGetScore {key member : CString} (h : P (.redis (.zscore key member))) :
    (ropZsetGetScore key member).All P :=
  ⟨h, fun r => by cases r <;> trivial⟩

theorem all_ropZsetZrevrange {key : CString} {fromPos endPos : ℤ}
    (h : P (.redis (.zrevrange key fromPos endPos))) :
    (ropZsetZrevrange key fromPos endPos).All P :=
  ⟨h, fun r => by cases r <;> trivial⟩

theorem all_ropDelKey {key : CString} (h : P (.redis (.del key))) : (ropDelKey key).All P :=
  ⟨h, fun r => by cases r <;> trivial⟩

def CacheKey (key : CString) : Prop := key = filePublicZset ∨ key = fileNameHash

def CacheCmd : RedisCmd → Prop
  | .zlexcount key _ _ | .zadd key _ _ | .zincrby key _ | .zrem key _ | .zcard key
  | .zrevrange key _ _ | .zscore key _ | .hset key _ _ | .hget key _ | .hdel key _ | .del key =>
    CacheKey key
  | .get _ | .setex _ _ => False

/-- The commands that say nothing of a particular file. -/
structure Plumbing (P : Cmd → Prop) : Prop where
  mysql : P .mysqlConnect
  redis : P .redisConnect
  names : P (.query .setNames)
  counts : ∀ op, P (.query (.userFileCount op))
  cache : ∀ c, CacheCmd c → P (.redis c)

structure Wiring (P : Cmd → Prop) : Prop where
  mysql : P .mysqlConnect
  redis : P .redisConnect
  names : P (.query .setNames)

def Caching (P : Cmd → Prop) : Prop := ∀ c, CacheCmd c → P (.redis c)

structure Counting (P : Cmd → Prop) (user : CString) : Prop where
  select : P (.query (selectUserCount user))
  insert : P (.query (insertUserCount user))
  update : ∀ n, P (.query (updateUserCount user n))
  delete : P (.query (deleteUserCount user))

theorem Plumbing.wiring (hp : Plumbing P) : Wiring P := ⟨hp.mysql, hp.redis, hp.names⟩

theorem Plumbing.counting (hp : Plumbing P) (user : CString) : Counting P user :=
  ⟨hp.counts _, hp.counts _, fun _ => hp.counts _, hp.counts _⟩

variable {L : Cmd → Reply → Prop} {now user md5 filename : CString}

theorem stays_ite {b : Prop} [Decidable b] {p q : Handler α} (hp : p.Stays L P)
    (hq : q.Stays L P) : (if b then p else q).Stays L P := by
  split
  · exact hp
  · exact hq

theorem stays_processResultOne {q : Sql} {buf : Bool} {f : ResultOne → Handler α}
    (h : P (.query q)) (hf : ∀ r, L (.query q) r → (f (firstRow buf r)).Stays L P) :
    (processResultOne q buf >>= f).Stays L P :=
  ⟨h, hf⟩

theorem stays_raiseUserCount (hc : Counting P user) : (raiseUserCount user).Stays L P := by
  apply stays_bind (all_processResultOne hc.select).stays
  intro o
  cases o with
  | failed => exact (all_mysqlQuery hc.select).stays
  | noRecord => exact (all_mysqlQuery hc.insert).stays
  | hasRecord => exact (all_mysqlQuery hc.select).stays
  | saved tmp => exact (all_mysqlQuery (hc.update _)).stays

theorem stays_lowerUserCount (hc : Counting P user) : (lowerUserCount user).Stays L P := by
  apply stays_bind (all_processResultOne hc.select).stays
  intro o
  cases o with
  | failed => trivial
  | noRecord => trivial
  | hasRecord => trivial
  | saved tmp =>
    apply (all_mysqlQuery _).stays
    split
    · exact hc.delete
    · exact hc.update _

theorem stays_addReference (hc : Counting P user)
    (hraise : ∀ n, P (.query (updateFileCount md5 n)))
    (hinsert : P (.query (insertUserFile user md5 filename now))) (tmp : Cell) :
    Prog.Stays L P (do
      if !(← mysqlQuery (updateFileCount md5 (tmp.atoi + 1))) then return -1
      if !(← mysqlQuery (insertUserFile user md5 filename now)) then return -1
      if !(← raiseUserCount user) then return -1
      return (0 : ℤ)) := by
  refine stays_bind (all_mysqlQuery (hraise _)).stays fun _ => stays_ite trivial ?_
  refine stays_bind (all_mysqlQuery hinsert).stays fun _ => stays_ite trivial ?_
  exact stays_bind (stays_raiseUserCount hc) fun _ => stays_ite trivial trivial

theorem stays_dealMd5 (hw : Wiring P) (hc : Counting P user)
    (hcount : P (.query (selectFileCount md5)))
    (hselect : P (.query (selectUserFile user md5 filename)))
    (hraise : ∀ n, P (.query (updateFileCount md5 n)))
    (hinsert : P (.query (insertUserFile user md5 filename now))) :
    (dealMd5 now user md5 filename).Stays L P := by
  refine stays_bind (all_msqlConn hw.mysql).stays fun _ => stays_ite trivial ?_
  apply stays_bind (all_mysqlQuery hw.names).stays
  intro _
  apply stays_bind (all_processResultOne hcount).stays
  intro o
  cases o with
  | failed => trivial
  | noRecord => trivial
  | hasRecord => trivial
  | saved tmp =>
    apply stays_bind (all_processResultOne hselect).stays
    intro o
    cases o with
    | hasRecord => trivial
    | _ => exact stays_addReference hc hraise hinsert tmp

theorem stays_saveFile (hw : Wiring P) (hc : Counting P user)
    (hcount : P (.query (selectFileCount md5)))
    (hselect : P (.query (selectUserFile user md5 filename)))
    (hraise : ∀ n, P (.query (updateFileCount md5 n)))
    (hinsert : P (.query (insertUserFile user md5 filename now))) :
    (saveFile now user md5 filename).Stays L P := by
  have hreference : (saveFileReference now user md5 filename).Stays L P := by
    apply stays_bind (all_processResultOne hcount).stays
    intro o
    cases o with
    | failed => trivial
    | noRecord => trivial
    | hasRecord => trivial
    | saved tmp => exact stays_addReference hc hraise hinsert tmp
  refine stays_bind (all_msqlConn hw.mysql).stays fun _ => stays_ite trivial ?_
  apply stays_bind (all_mysqlQuery hw.names).stays
  intro _
  apply stays_bind (all_processResultOne hselect).stays
  intro o
  cases o with
  | hasRecord => trivial
  | _ => exact hreference

theorem stays_storeFileinfoToMysql {size : ℤ} {fileid url : CString} (hw : Wiring P)
    (hc : Counting P user) (hfile : P (.query (insertFileInfo
      ⟨md5, fileid, url, size, getFileSuffix filename, 1⟩)))
    (hinsert : P (.query (insertUserFile user md5 filename now))) :
    (storeFileinfoToMysql now user filename md5 size fileid url).Stays L P := by
  refine stays_bind (all_msqlConn hw.mysql).stays fun _ => stays_ite trivial ?_
  apply stays_bind (all_mysqlQuery hw.names).stays
  intro _
  refine stays_bind (all_mysqlQuery hfile).stays fun _ => stays_ite trivial ?_
  refine stays_bind (all_mysqlQuery hinsert).stays fun _ => stays_ite trivial ?_
  exact stays_bind (stays_raiseUserCount hc) fun _ => stays_ite trivial trivial

theorem stays_shareFile (hw : Wiring P) (hk : Caching P) (hc : Counting P shareCountKey)
    (hselect : P (.query (selectShareFile md5 filename)))
    (hmark : P (.query (updateSharedStatus user md5 filename 1)))
    (hinsert : P (.query (insertShareFile user md5 filename now))) :
    (shareFile now user md5 filename).Stays L P := by
  refine stays_bind (all_ropConnect hw.redis).stays fun _ => stays_ite trivial ?_
  refine stays_bind (all_msqlConn hw.mysql).stays fun _ => stays_ite trivial ?_
  apply stays_bind (all_mysqlQuery hw.names).stays
  intro _
  refine stays_bind (Prog.All.stays (all_ropZsetExit (hk _ (.inl rfl)))) fun _ =>
    stays_ite trivial (stays_ite trivial ?_)
  have hadd : (ropZsetAdd filePublicZset 0 (md5 ++ filename)).Stays L P :=
    Prog.All.stays (all_ropWantsOne (hk _ (.inl rfl)))
  have hshare : Prog.Stays L P (do
      if !(← mysqlQuery (updateSharedStatus user md5 filename 1)) then return -1
      if !(← mysqlQuery (insertShareFile user md5 filename now)) then return -1
      if !(← raiseUserCount shareCountKey) then return -1
      let _ ← ropZsetAdd filePublicZset 0 (md5 ++ filename)
      let _ ← ropHashSet fileNameHash (md5 ++ filename) filename
      return (0 : ℤ)) := by
    refine stays_bind (all_mysqlQuery hmark).stays fun _ => stays_ite trivial ?_
    refine stays_bind (all_mysqlQuery hinsert).stays fun _ => stays_ite trivial ?_
    refine stays_bind (stays_raiseUserCount hc) fun _ => stays_ite trivial ?_
    apply stays_bind hadd
    intro _
    exact stays_bind (Prog.All.stays (all_ropHashSet (hk _ (.inr rfl)))) fun _ => trivial
  apply stays_bind (all_processResultOne hselect).stays
  intro o
  cases o with
  | hasRecord => exact stays_bind hadd fun _ => trivial
  | _ => exact hshare

theorem stays_cancelShareFile (hw : Wiring P) (hk : Caching P) (hc : Counting P shareCountKey)
    (hmark : P (.query (updateSharedStatus user md5 filename 0)))
    (hdelete : P (.query (deleteShareFile user md5 filename))) :
    (cancelShareFile user md5 filename).Stays L P := by
  refine stays_bind (all_ropConnect hw.redis).stays fun _ => stays_ite trivial ?_
  refine stays_bind (all_msqlConn hw.mysql).stays fun _ => stays_ite trivial ?_
  apply stays_bind (all_mysqlQuery hw.names).stays
  intro _
  refine stays_bind (all_mysqlQuery hmark).stays fun _ => stays_ite trivial ?_
  refine stays_bind (stays_lowerUserCount hc) fun _ => stays_ite trivial ?_
  refine stays_bind (all_mysqlQuery hdelete).stays fun _ => stays_ite trivial ?_
  refine stays_bind (Prog.All.stays (all_ropWantsOne (hk _ (.inl rfl)))) fun _ =>
    stays_ite trivial ?_
  exact Prog.All.stays (all_ropWantsOne (hk _ (.inr rfl)))

theorem stays_pvFile (hw : Wiring P) (hk : Caching P)
    (hselect : P (.query (selectSharePv md5 filename)))
    (hview : ∀ n, P (.query (updateSharePv md5 filename n))) :
    (pvFile md5 filename).Stays L P := by
  refine stays_bind (all_ropConnect hw.redis).stays fun _ => stays_ite trivial ?_
  refine stays_bind (all_msqlConn hw.mysql).stays fun _ => stays_ite trivial ?_
  apply stays_bind (all_mysqlQuery hw.names).stays
  intro _
  apply stays_bind (all_processResultOne hselect).stays
  intro o
  cases o with
  | failed => trivial
  | noRecord => trivial
  | hasRecord => trivial
  | saved tmp =>
    refine stays_bind (all_mysqlQuery (hview _)).stays fun _ => stays_ite trivial ?_
    apply stays_bind (Prog.All.stays (all_ropZsetExit (hk _ (.inl rfl))))
    intro _
    refine stays_ite ?_ (stays_ite ?_ trivial)
    · exact Prog.All.stays (all_ropZsetIncrement (hk _ (.inl rfl)))
    · refine stays_bind (Prog.All.stays (all_ropWantsOne (hk _ (.inl rfl)))) fun _ => ?_
      exact stays_bind (Prog.All.stays (all_ropHashSet (hk _ (.inr rfl)))) fun _ => trivial

theorem stays_delFileShare (hk : Caching P)
    (hselect : P (.query (selectSharedStatus user md5 filename))) :
    (delFileShare user md5 filename).Stays L P := by
  refine stays_bind (Prog.All.stays (all_ropZsetExit (hk _ (.inl rfl)))) fun _ =>
    stays_ite trivial (stays_ite ?_ trivial)
  apply stays_bind (all_processResultOne hselect).stays
  intro o
  cases o <;> trivial

theorem stays_delFileUnshare {flag : Bool} (hk : Caching P) (hc : Counting P shareCountKey)
    (hdelete : P (.query (deleteShareFile user md5 filename))) :
    (delFileUnshare user md5 filename flag).Stays L P := by
  refine stays_bind (all_mysqlQuery hdelete).stays fun _ => stays_ite trivial ?_
  apply stays_bind (all_processResultOne hc.select).stays
  intro o
  cases o with
  | failed => trivial
  | noRecord => trivial
  | hasRecord => trivial
  | saved tmp =>
    refine stays_bind (all_mysqlQuery (hc.update _)).stays fun _ =>
      stays_ite trivial (stays_ite ?_ trivial)
    refine stays_bind (Prog.All.stays (all_ropWantsOne (hk _ (.inl rfl)))) fun _ => ?_
    exact stays_bind (Prog.All.stays (all_ropWantsOne (hk _ (.inr rfl)))) fun _ => trivial

theorem stays_delFileReference (hcount : P (.query (selectFileCount md5)))
    (hlower : ∀ n, P (.query (updateFileCount md5 n))) (hid : P (.query (selectFileId md5)))
    (hdrop : P (.query (deleteFileInfo md5)))
    (hstorage : ∀ r fileid, L (.query (selectFileId md5)) r →
      firstRow true r = .saved (.str fileid) → P (.fdfsDelete fileid)) :
    (delFileReference md5).Stays L P := by
  apply stays_bind (all_processResultOne hcount).stays
  intro o
  cases o with
  | failed => trivial
  | noRecord => trivial
  | hasRecord => trivial
  | saved tmp =>
    refine stays_bind (all_mysqlQuery (hlower _)).stays fun _ =>
      stays_ite trivial (stays_ite ?_ trivial)
    apply stays_processResultOne hid
    intro r hr
    generalize hfirst : firstRow true r = o
    rcases o with _ | _ | _ | (n | fileid)
    · trivial
    · trivial
    · trivial
    · trivial
    · refine stays_bind (all_mysqlQuery hdrop).stays fun _ => stays_ite trivial ?_
      refine ⟨hstorage r fileid hr hfirst, fun r _ => ?_⟩
      cases r <;> trivial

theorem stays_delFile (hw : Wiring P) (hk : Caching P) (hc : Counting P user)
    (hcs : Counting P shareCountKey)
    (hselect : P (.query (selectSharedStatus user md5 filename)))
    (hshare : P (.query (deleteShareFile user md5 filename)))
    (hfile : P (.query (deleteUserFile user md5 filename)))
    (href : (delFileReference md5).Stays L P) : (delFile user md5 filename).Stays L P := by
  have htail : ∀ shared, Prog.Stays L P (do
      if !shared then return -1
      if !(← lowerUserCount user) then return -1
      if !(← mysqlQuery (deleteUserFile user md5 filename)) then return -1
      if !(← delFileReference md5) then return -1
      return (0 : ℤ)) := by
    intro shared
    refine stays_ite trivial ?_
    refine stays_bind (stays_lowerUserCount hc) fun _ => stays_ite trivial ?_
    refine stays_bind (all_mysqlQuery hfile).stays fun _ => stays_ite trivial ?_
    exact stays_bind href fun _ => stays_ite trivial trivial
  refine stays_bind (all_ropConnect hw.redis).stays fun _ => stays_ite trivial ?_
  refine stays_bind (all_msqlConn hw.mysql).stays fun _ => stays_ite trivial ?_
  apply stays_bind (all_mysqlQuery hw.names).stays
  intro _
  apply stays_bind (stays_delFileShare hk hselect)
  intro o
  rcases o with - | ⟨share, flag⟩
  · trivial
  · exact stays_ite (stays_bind (stays_delFileUnshare hk hcs hshare) htail) (htail true)

theorem all_refillRanking (hk : Caching P) (rs : List (List Cell)) : (refillRanking rs).All P := by
  fun_induction refillRanking rs with
  | case1 => trivial
  | case2 md5 filename pv rest ih =>
    refine all_bind (all_ropWantsOne (hk _ (.inl rfl))) fun _ => ?_
    exact all_bind (all_ropHashSet (hk _ (.inr rfl))) fun _ => ih
  | case3 row rest _ => trivial

theorem all_rankingItems (hk : Caching P) (l : List CString) : (rankingItems l).All P := by
  induction l with
  | nil => trivial
  | cons fileid rest ih =>
    apply all_bind (all_ropHashGet (hk _ (.inr rfl)))
    intro o
    cases o with
    | none => trivial
    | some filename =>
      refine all_bind (all_ropZsetGetScore (hk _ (.inl rfl))) fun _ => all_ite trivial ?_
      apply all_bind ih
      intro o
      cases o <;> trivial

theorem all_rankingFilelist {granted : Bool} {start count : ℤ} (hw : Wiring P) (hk : Caching P)
    (hcount : P (.query (selectUserCount shareCountKey))) (hrank : P (.query .rankShares)) :
    (getRankingFilelistIn granted start count).All P := by
  have hrebuild : rebuildRanking.All P := by
    apply all_bind (all_ropDelKey (hk _ (.inl rfl)))
    intro _
    apply all_bind (all_ropDelKey (hk _ (.inr rfl)))
    intro _
    refine ⟨hrank, fun r => ?_⟩
    cases r with
    | rows rs =>
      cases rs with
      | nil => trivial
      | cons row rs => exact all_refillRanking hk _
    | _ => trivial
  have hzrev := all_ropZsetZrevrange (hk
    (.zrevrange filePublicZset start (toInt32 (start + count - 1))) (.inl rfl))
  have hitems : ∀ f : Option (List CString) → Handler (Option (List (CString × ℤ))),
      f none = .ret none → (∀ value, f (some value) = rankingItems value) → ∀ o, (f o).All P := by
    intro f hnone hsome o
    cases o with
    | none => rw [hnone]; trivial
    | some value => rw [hsome]; exact all_rankingItems hk value
  refine all_bind (all_ropConnect hw.redis) fun _ => all_ite trivial ?_
  refine all_bind (all_msqlConn hw.mysql) fun _ => all_ite trivial ?_
  apply all_bind (all_mysqlQuery hw.names)
  intro _
  apply all_bind (all_processResultOne hcount)
  intro o
  cases o with
  | failed => trivial
  | noRecord => trivial
  | hasRecord => trivial
  | saved tmp =>
    refine all_bind (all_ropZsetZcard (hk _ (.inl rfl))) fun _ => all_ite trivial ?_
    refine all_ite (all_bind hrebuild fun ok => ?_) (all_bind (p := pure true) trivial fun ok => ?_)
    all_goals
      refine all_ite trivial (all_ite trivial (all_ite trivial ?_))
      exact all_bind hzrev (hitems _ rfl fun _ => rfl)

theorem all_filesCount (hw : Wiring P) (hcount : P (.query (selectUserCount user))) :
    (filesCount user).All P := by
  refine all_bind (all_msqlConn hw.mysql) fun _ => all_ite trivial ?_
  apply all_bind (all_mysqlQuery hw.names)
  intro _
  apply all_bind (all_processResultOne hcount)
  intro o
  cases o <;> trivial

theorem all_fileList {q : Sql} (hw : Wiring P) (hq : P (.query q)) : (fileList q).All P := by
  refine all_bind (all_msqlConn hw.mysql) fun _ => all_ite trivial ?_
  apply all_bind (all_mysqlQuery hw.names)
  intro _
  refine ⟨hq, fun r => ?_⟩
  cases r with
  | rows rs => cases rs <;> trivial
  | _ => trivial

theorem all_verifyToken {token : CString} (hw : Wiring P) (hget : P (.redis (.get user))) :
    (verifyToken user token).All P := by
  refine all_bind (all_ropConnect hw.redis) fun _ => all_ite trivial ?_
  refine all_bind ⟨hget, fun r => by cases r <;> trivial⟩ fun o => ?_
  cases o <;> trivial

/-! ### Any statement on the counters -/

theorem all_raiseUserCount (hp : Plumbing P) : (raiseUserCount user).All P :=
  (stays_raiseUserCount (hp.counting user)).all

theorem all_lowerUserCount (hp : Plumbing P) : (lowerUserCount user).All P :=
  (stays_lowerUserCount (hp.counting user)).all

theorem all_shareFile (hp : Plumbing P) (hselect : P (.query (selectShareFile md5 filename)))
    (hmark : P (.query (updateSharedStatus user md5 filename 1)))
    (hinsert : P (.query (insertShareFile user md5 filename now))) :
    (shareFile now user md5 filename).All P :=
  (stays_shareFile hp.wiring hp.cache (hp.counting _) hselect hmark hinsert).all

theorem all_cancelShareFile (hp : Plumbing P)
    (hmark : P (.query (updateSharedStatus user md5 filename 0)))
    (hdelete : P (.query (deleteShareFile user md5 filename))) :
    (cancelShareFile user md5 filename).All P :=
  (stays_cancelShareFile hp.wiring hp.cache (hp.counting _) hmark hdelete).all

theorem all_delFileShare (hp : Plumbing P)
    (hselect : P (.query (selectSharedStatus user md5 filename))) :
    (delFileShare user md5 filename).All P :=
  (stays_delFileShare hp.cache hselect).all

theorem all_delFileUnshare {flag : Bool} (hp : Plumbing P)
    (hdelete : P (.query (deleteShareFile user md5 filename))) :
    (delFileUnshare user md5 filename flag).All P :=
  (stays_delFileUnshare hp.cache (hp.counting _) hdelete).all

theorem all_delFileReference (hcount : P (.query (selectFileCount md5)))
    (hlower : ∀ n, P (.query (updateFileCount md5 n))) (hid : P (.query (selectFileId md5)))
    (hdrop : P (.query (deleteFileInfo md5))) (hstorage : ∀ fileid, P (.fdfsDelete fileid)) :
    (delFileReference md5).All P :=
  (stays_delFileReference hcount hlower hid hdrop fun _ fileid _ _ => hstorage fileid).all

theorem all_delFile (hp : Plumbing P) (hselect : P (.query (selectSharedStatus user md5 filename)))
    (hshare : P (.query (deleteShareFile user md5 filename)))
    (hfile : P (.query (deleteUserFile user md5 filename))) (href : (delFileReference md5).All P) :
    (delFile user md5 filename).All P :=
  (stays_delFile hp.wiring hp.cache (hp.counting _) (hp.counting _) hselect hshare hfile
    href.stays).all

theorem all_getRankingFilelist {start count : ℤ} (hp : Plumbing P)
    (hrank : P (.query .rankShares)) : (getRankingFilelist start count).All P :=
  all_rankingFilelist hp.wiring hp.cache (hp.counts _) hrank

end

end HandlerRules
