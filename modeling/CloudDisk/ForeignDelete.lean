import CloudDisk.HandlerEffects
import CloudDisk.TokenChecks

/-! # Deleting a file that the user does not have

`del_file` never asks whether the row exists: a lookup without a result counts as a file that
is not shared. Every later statement selects by its own key, the user or the md5 alone. So
the request is harmless only when one of the counters it wants to lower is missing. -/
namespace ForeignDelete

open ByteStrings CommandPrograms RowTables DiskState DiskHandlers HandlerRules HandlerEffects
  JsonBodies RequestLoops RequestFields TokenChecks

/-- The share set must not list the file, or nobody may have shared anything; and a user
whose request gets past that must not have a counter. -/
structure Harmless (d : Disk) (user md5 filename : CString) : Prop where
  listed : zsetExit d (md5 ++ filename) = 1 →
    (∀ s ∈ d.shareFileList, s.isRow user md5 filename = false) ∧
      ∀ r ∈ d.userFileCount, r.ofUser shareCountKey = false
  unlisted : zsetExit d (md5 ++ filename) = 0 → ∀ r ∈ d.userFileCount, r.ofUser user = false

section Effects
variable {user md5 filename : CString} {d d' : Disk} {n : ℤ}

theorem mark_cases {share : ℤ} {flag : Bool}
    (hn : ∀ r ∈ d.userFileList, r.isRow user md5 filename = false)
    (hm : ShareMark user md5 filename d (some (share, flag))) :
    (zsetExit d (md5 ++ filename) = 1 ∧ share = 1) ∨
      (zsetExit d (md5 ++ filename) = 0 ∧ share = 0) := by
  cases hm with
  | listed hz => exact .inl ⟨hz, rfl⟩
  | status hz r hr hu => simp [hn r hr] at hu
  | absent hz _ => exact .inr ⟨hz, rfl⟩

theorem listed_of_mark {flag : Bool}
    (hn : ∀ r ∈ d.userFileList, r.isRow user md5 filename = false)
    (hm : ShareMark user md5 filename d (some (1, flag))) :
    zsetExit d (md5 ++ filename) = 1 := by
  rcases mark_cases hn hm with ⟨hz, -⟩ | ⟨-, h0⟩
  · exact hz
  · exact absurd h0 (by decide)

theorem unlisted_of_mark {share : ℤ} {flag : Bool}
    (hn : ∀ r ∈ d.userFileList, r.isRow user md5 filename = false)
    (hm : ShareMark user md5 filename d (some (share, flag))) (h1 : share ≠ 1) :
    zsetExit d (md5 ++ filename) = 0 := by
  rcases mark_cases hn hm with ⟨-, hone⟩ | ⟨hz, -⟩
  · exact absurd hone h1
  · exact hz

theorem unchanged_of_harmless (hn : ∀ r ∈ d.userFileList, r.isRow user md5 filename = false)
    (h : Harmless d user md5 filename) (he : DelFile user md5 filename d n d') : d' = d := by
  have hcleared : ∀ e, Cleared user md5 filename d e →
      e = d ∧ ∀ r ∈ d.userFileCount, r.ofUser user = false := by
    intro e hc
    cases hc with
    | unshared share flag hm h1 => exact ⟨rfl, h.unlisted (unlisted_of_mark hn hm h1)⟩
    | shared flag hm _ hu =>
      cases hu with
      | counted r hr hu redis hs =>
        have := (h.listed (listed_of_mark hn hm)).2 r hr
        simp [hu] at this
  cases he with
  | confused _ => rfl
  | stuck flag hm _ hu =>
    cases hu with
    | uncounted _ =>
      have hsame : deleteWhere (DiskState.ShareFile.isRow user md5 filename) d.shareFileList =
          d.shareFileList :=
        Multiset.filter_eq_self.mpr fun s hs => by
          simp [(h.listed (listed_of_mark hn hm)).1 s hs]
      rw [hsame]
  | uncounted _ hc _ => exact (hcleared _ hc).1
  | deleted e hc t ht b _ hr =>
    obtain ⟨rfl, hno⟩ := hcleared e hc
    obtain ⟨q, hq, hqu, -⟩ := lowered_from ht
    simp [hno q hq] at hqu

theorem harmless_of_unchanged (hn : ∀ r ∈ d.userFileList, r.isRow user md5 filename = false)
    (he : DelFile user md5 filename d n d') (hd : d' = d) : Harmless d user md5 filename := by
  have hcounts := congrArg Disk.userFileCount hd
  cases he with
  | confused hm =>
    cases hm with
    | confused h0 h1 => exact ⟨fun h => absurd h h1, fun h => absurd h h0⟩
  | stuck flag hm _ hu =>
    have hz := listed_of_mark hn hm
    cases hu with
    | uncounted hno =>
      refine ⟨fun _ => ⟨fun s hs => ?_, hno⟩, fun h0 => absurd (hz.symm.trans h0) (by decide)⟩
      rw [← congrArg Disk.shareFileList hd] at hs
      exact (mem_deleteWhere.mp hs).2
  | uncounted _ hc hno =>
    cases hc with
    | unshared share flag hm h1 =>
      have hz := unlisted_of_mark hn hm h1
      exact ⟨fun h => absurd (hz.symm.trans h) (by decide), fun _ => hno⟩
    | shared flag hm _ hu =>
      cases hu with
      | counted r hr hu redis hs =>
        have := mem_setCount (hcounts.symm ▸ hr) hu
        omega
  | deleted e hc t ht b _ hr =>
    have ht' : t = d.userFileCount := (released_counts md5 hr).symm.trans hcounts
    cases hc with
    | unshared share flag hm h1 => exact absurd ht' (lowered_ne ht)
    | shared flag hm _ hu =>
      cases hu with
      | counted q hq hqu redis hs => exact absurd ht' (setCount_lowered_ne hq hqu ht)

end Effects

/-! ## Requests -/

/-- The request gets past the token check with these values in the buffers. -/
def Accepted (r : Request) (m : Filesop) (d : Disk) (user md5 filename : CString) : Prop :=
  ∃ buf write token, r.read = .text buf ∧ (getInfo filesopFields buf).written = some write ∧
    write m = ⟨user, token, md5, filename⟩ ∧ Verified d user token

section Requests
variable {r : Request} {m : Filesop} {d : Disk} {user md5 filename : CString}

theorem accepted_effect (h : Accepted r m d user md5 filename) {e : ℕ → Outcome}
    (he : ∀ i, NoFail (e i)) :
    ∃ n, DelFile user md5 filename d n ((filesop r m).run Cmd.exec e d).2 := by
  obtain ⟨buf, write, token, hread, hwritten, hwrite, hv⟩ := h
  have hspec : Spec Cmd.exec NoFail (filesop r m) d fun _ d' =>
      ∃ n, DelFile user md5 filename d n d' := by
    unfold filesop withBody
    rw [hread]
    simp only [hwritten, hwrite]
    refine spec_verifyToken (fun _ => ?_) fun hno => ?_
    · refine spec_bind ((delFile_effect user md5 filename d).mono fun n d' he => ?_)
      exact spec_ret ⟨n, he⟩
    · exact hno.elim NoFail.elim fun hno => absurd hv hno
  exact hspec e he

theorem foreign_delete_unchanged_iff (h : Accepted r m d user md5 filename)
    (hn : ∀ s ∈ d.userFileList, s.isRow user md5 filename = false) :
    Spec Cmd.exec NoFail (filesop r m) d (fun _ d' => d' = d) ↔ Harmless d user md5 filename := by
  constructor
  · intro hspec
    have hok : ∀ _ : ℕ, NoFail (.ok 0) := fun _ => by simp [NoFail]
    obtain ⟨n, he⟩ := accepted_effect h hok
    exact harmless_of_unchanged hn he (hspec _ hok)
  · intro hh e he
    obtain ⟨n, heff⟩ := accepted_effect h he
    exact unchanged_of_harmless hn hh heff

end Requests

/-- User `v` has a file, user `a` another one and a stored token. -/
def twoOwners : Disk where
  fileInfo := {⟨[49], [7], [], 9, [], 1⟩, ⟨[50], [8], [], 9, [], 1⟩}
  userFileList := {⟨[118], [49], [], [102], 0, 0⟩, ⟨[97], [50], [], [103], 0, 0⟩}
  shareFileList := 0
  userFileCount := {⟨[118], 1⟩, ⟨[97], 1⟩}
  storage := {[7], [8]}
  redis key := if key = [97] then some (.string [116]) else none

theorem deleteOwn_accepted {d : Disk} (hv : d.redis [97] = some (.string [116])) :
    Accepted deleteOwn noRequest d [97] [49] [102] := by
  have hread : deleteOwn.read = .text deleteOwn.body := by decide +kernel
  have hwritten : (getInfo filesopFields deleteOwn.body).written.map (· noRequest) =
      some ⟨[97], [116], [49], [102]⟩ := by decide +kernel
  obtain ⟨write, hw, hwrite⟩ := Option.map_eq_some_iff.mp hwritten
  exact ⟨_, write, [116], hread, hw, hwrite, [116], hv, by decide⟩

theorem foreign_delete_unchanged_uncounted :
    Spec Cmd.exec NoFail (filesop deleteOwn noRequest)
      { twoOwners with userFileCount := {⟨[118], 1⟩} }
      fun _ d' => d' = { twoOwners with userFileCount := {⟨[118], 1⟩} } :=
  (foreign_delete_unchanged_iff (deleteOwn_accepted rfl) (by decide)).mpr
    ⟨fun h => absurd h (by decide), fun _ => by decide⟩

/-- The request of `a` for a file that only `v` has removes its row of `file_info` and its
bytes, with `v` still listing it. -/
theorem foreign_delete_destroys :
    Accepted deleteOwn noRequest twoOwners [97] [49] [102] ∧
      (∀ s ∈ twoOwners.userFileList, s.isRow [97] [49] [102] = false) ∧
      ((filesop deleteOwn noRequest).run Cmd.exec (fun _ => .ok 0) twoOwners).2.fileInfo =
        {⟨[50], [8], [], 9, [], 1⟩} ∧
      ((filesop deleteOwn noRequest).run Cmd.exec (fun _ => .ok 0) twoOwners).2.storage = {[8]} ∧
      ((filesop deleteOwn noRequest).run Cmd.exec (fun _ => .ok 0) twoOwners).2.userFileList =
        twoOwners.userFileList :=
  ⟨deleteOwn_accepted rfl, by decide, by decide +kernel, by decide +kernel,
    by decide +kernel⟩

end ForeignDelete
