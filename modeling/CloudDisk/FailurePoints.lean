import CloudDisk.HandlerRules

/-! # One command of a call fails

The failing command is given by its position. The rules count the commands as they are
issued, so that each step knows whether it is the one that fails. -/
namespace FailurePoints

open ByteStrings CommandPrograms RowTables DiskState DiskHandlers HandlerRules

/-- The outcomes of a call whose `n`-th command fails and no other. -/
def FailsAt (n : ℕ) (e : ℕ → Outcome) : Prop := ∀ i, e i = .fail ↔ i = n

/-- The `n`-th command of the call fails and `j` commands have already been issued. -/
def FailSpec {α : Type} (n j : ℕ) (p : Handler α) (d : Disk) (Q : α → Disk → Prop) : Prop :=
  SpecSeq Cmd.exec (fun i o => o = .fail ↔ i + j = n) p d Q

section
variable {α : Type} {n j : ℕ} {d : Disk} {Q : α → Disk → Prop}

theorem FailSpec.run {p : Handler α} (h : FailSpec n 0 p d Q) {e : ℕ → Outcome}
    (he : FailsAt n e) : Q (p.run Cmd.exec e d).1 (p.run Cmd.exec e d).2 := h e he

theorem failSpec_ret {a : α} (h : Q a d) : FailSpec n j (.ret a) d Q := specSeq_ret h

private theorem next {p : Handler α} (h : FailSpec n (j + 1) p d Q) :
    SpecSeq Cmd.exec (fun i o => o = .fail ↔ i + 1 + j = n) p d Q := by
  have hshift : (fun i o => o = Outcome.fail ↔ i + 1 + j = n) =
      fun i o => o = .fail ↔ i + (j + 1) = n := by
    funext i o
    rw [Nat.add_assoc, Nat.add_comm 1 j]
  rw [hshift]
  exact h

private theorem not_here {k : ℕ} (h : Outcome.ok k = .fail ↔ 0 + j = n) : n ≠ j := by
  intro heq
  have := h.mpr (by omega)
  simp at this

private theorem here (h : Outcome.fail = .fail ↔ 0 + j = n) : n = j := by
  have := h.mp rfl
  omega

theorem failSpec_msqlConn {f : Bool → Handler α} (h : n ≠ j → FailSpec n (j + 1) (f true) d Q)
    (hf : n = j → FailSpec n (j + 1) (f false) d Q) : FailSpec n j (msqlConn >>= f) d Q :=
  specSeq_msqlConn (fun _ hk => next (h (not_here hk))) fun h0 => next (hf (here h0))

theorem failSpec_ropConnect {f : Bool → Handler α} (h : n ≠ j → FailSpec n (j + 1) (f true) d Q)
    (hf : n = j → FailSpec n (j + 1) (f false) d Q) :
    FailSpec n j (ropConnectdbNopwd >>= f) d Q :=
  specSeq_ropConnect (fun _ hk => next (h (not_here hk))) fun h0 => next (hf (here h0))

theorem failSpec_mysqlQuery {q : Sql} {f : Bool → Handler α} (hq : ∀ k, (q.result k d).isSome)
    (h : n ≠ j → FailSpec n (j + 1) (f true) (q.effect d) Q)
    (hf : n = j → FailSpec n (j + 1) (f false) d Q) :
    FailSpec n j (mysqlQuery q >>= f) d Q :=
  specSeq_mysqlQuery hq (fun _ hk => next (h (not_here hk))) fun h0 => next (hf (here h0))

theorem failSpec_setNames {f : Bool → Handler α} (h : ∀ b, FailSpec n (j + 1) (f b) d Q) :
    FailSpec n j (mysqlQuery .setNames >>= f) d Q :=
  specSeq_setNames fun b => next (h b)

theorem failSpec_select {β : Type} {t : Multiset β} {p : β → Bool} {columns : β → List Cell}
    {q : Sql} {buf : Bool} {f : ResultOne → Handler α}
    (hq : ∀ k, q.result k d = some (listing k ((rowsWhere p t).map columns)))
    (he : q.effect d = d)
    (hs : n ≠ j → ∀ r ∈ t, p r → FailSpec n (j + 1)
      (f (if buf then .saved ((columns r).head?.getD (.str [])) else .hasRecord)) d Q)
    (hn : n ≠ j → (∀ r ∈ t, p r = false) → FailSpec n (j + 1) (f .noRecord) d Q)
    (hf : n = j → FailSpec n (j + 1) (f .failed) d Q) :
    FailSpec n j (processResultOne q buf >>= f) d Q :=
  specSeq_select hq he (fun _ hk r hr hp => next (hs (not_here hk) r hr hp))
    (fun _ hk hno => next (hn (not_here hk) hno)) fun h0 => next (hf (here h0))

theorem failSpec_selectFileCount {md5 : CString} {f : ResultOne → Handler α}
    (hs : n ≠ j → ∀ r ∈ d.fileInfo, r.hasMd5 md5 →
      FailSpec n (j + 1) (f (.saved (.int r.count))) d Q)
    (hn : n ≠ j → (∀ r ∈ d.fileInfo, r.hasMd5 md5 = false) →
      FailSpec n (j + 1) (f .noRecord) d Q)
    (hf : n = j → FailSpec n (j + 1) (f .failed) d Q) :
    FailSpec n j (processResultOne (selectFileCount md5) true >>= f) d Q :=
  failSpec_select (t := d.fileInfo) (fun _ => rfl) rfl hs hn hf

theorem failSpec_selectFileId {md5 : CString} {f : ResultOne → Handler α}
    (hs : n ≠ j → ∀ r ∈ d.fileInfo, r.hasMd5 md5 →
      FailSpec n (j + 1) (f (.saved (.str r.fileId))) d Q)
    (hn : n ≠ j → (∀ r ∈ d.fileInfo, r.hasMd5 md5 = false) →
      FailSpec n (j + 1) (f .noRecord) d Q)
    (hf : n = j → FailSpec n (j + 1) (f .failed) d Q) :
    FailSpec n j (processResultOne (selectFileId md5) true >>= f) d Q :=
  failSpec_select (t := d.fileInfo) (fun _ => rfl) rfl hs hn hf

theorem failSpec_selectUserFile {user md5 filename : CString} {f : ResultOne → Handler α}
    (hs : n ≠ j → ∀ r ∈ d.userFileList, r.isRow user md5 filename →
      FailSpec n (j + 1) (f .hasRecord) d Q)
    (hn : n ≠ j → (∀ r ∈ d.userFileList, r.isRow user md5 filename = false) →
      FailSpec n (j + 1) (f .noRecord) d Q)
    (hf : n = j → FailSpec n (j + 1) (f .failed) d Q) :
    FailSpec n j (processResultOne (selectUserFile user md5 filename) false >>= f) d Q :=
  failSpec_select (t := d.userFileList) (fun _ => rfl) rfl hs hn hf

theorem failSpec_selectSharedStatus {user md5 filename : CString} {f : ResultOne → Handler α}
    (hs : n ≠ j → ∀ r ∈ d.userFileList, r.isRow user md5 filename →
      FailSpec n (j + 1) (f (.saved (.int r.sharedStatus))) d Q)
    (hn : n ≠ j → (∀ r ∈ d.userFileList, r.isRow user md5 filename = false) →
      FailSpec n (j + 1) (f .noRecord) d Q)
    (hf : n = j → FailSpec n (j + 1) (f .failed) d Q) :
    FailSpec n j (processResultOne (selectSharedStatus user md5 filename) true >>= f) d Q :=
  failSpec_select (t := d.userFileList) (fun _ => rfl) rfl hs hn hf

theorem failSpec_selectShareFile {md5 filename : CString} {f : ResultOne → Handler α}
    (hs : n ≠ j → ∀ r ∈ d.shareFileList, r.isNamed md5 filename →
      FailSpec n (j + 1) (f .hasRecord) d Q)
    (hn : n ≠ j → (∀ r ∈ d.shareFileList, r.isNamed md5 filename = false) →
      FailSpec n (j + 1) (f .noRecord) d Q)
    (hf : n = j → FailSpec n (j + 1) (f .failed) d Q) :
    FailSpec n j (processResultOne (selectShareFile md5 filename) false >>= f) d Q :=
  failSpec_select (t := d.shareFileList) (fun _ => rfl) rfl hs hn hf

theorem failSpec_selectUserCount {user : CString} {f : ResultOne → Handler α}
    (hs : n ≠ j → ∀ r ∈ d.userFileCount, r.ofUser user →
      FailSpec n (j + 1) (f (.saved (.int r.count))) d Q)
    (hn : n ≠ j → (∀ r ∈ d.userFileCount, r.ofUser user = false) →
      FailSpec n (j + 1) (f .noRecord) d Q)
    (hf : n = j → FailSpec n (j + 1) (f .failed) d Q) :
    FailSpec n j (processResultOne (selectUserCount user) true >>= f) d Q :=
  failSpec_select (t := d.userFileCount) (fun _ => rfl) rfl hs hn hf

theorem failSpec_ropZsetExit {member : CString} {f : ℤ → Handler α}
    (h : n ≠ j → FailSpec n (j + 1) (f (zsetExit d member)) d Q)
    (hf : n = j → FailSpec n (j + 1) (f (-1)) d Q) :
    FailSpec n j (ropZsetExit filePublicZset member >>= f) d Q :=
  specSeq_ropZsetExit (fun _ hk => next (h (not_here hk))) fun h0 => next (hf (here h0))

theorem failSpec_ropWantsOne {c : RedisCmd} {f : ℤ → Handler α}
    (h : n ≠ j → ∀ k m, (m = 0 ↔ (c.exec k d.redis).1 = .integer 1) →
      FailSpec n (j + 1) (f m) (afterRedis k c d) Q)
    (hf : n = j → FailSpec n (j + 1) (f (-1)) d Q) :
    FailSpec n j (ropWantsOne c >>= f) d Q :=
  specSeq_ropWantsOne (fun k m hk hm => next (h (not_here hk) k m hm))
    fun h0 => next (hf (here h0))

theorem failSpec_ropHashSet {key field value : CString} {f : ℤ → Handler α}
    (h : ∀ k m, FailSpec n (j + 1) (f m) (afterRedis k (.hset key field value) d) Q)
    (hf : n = j → FailSpec n (j + 1) (f (-1)) d Q) :
    FailSpec n j (ropHashSet key field value >>= f) d Q :=
  specSeq_ropHashSet (fun k m _ => next (h k m)) fun h0 => next (hf (here h0))

theorem failSpec_removeFile {fileid : CString} {f : Bool → Handler α}
    (h : n ≠ j → fileid ∈ d.storage →
      FailSpec n (j + 1) (f true) { d with storage := d.storage.erase fileid } Q)
    (hn : n ≠ j → fileid ∉ d.storage → FailSpec n (j + 1) (f false) d Q)
    (hf : n = j → FailSpec n (j + 1) (f false) d Q) :
    FailSpec n j (removeFileFromStorage fileid >>= f) d Q :=
  specSeq_removeFile (fun _ hk hs => next (h (not_here hk) hs))
    (fun _ hk hs => next (hn (not_here hk) hs)) fun h0 => next (hf (here h0))

end

end FailurePoints
