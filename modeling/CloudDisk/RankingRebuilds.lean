import CloudDisk.RankingReads
import CloudDisk.UploadBodies

/-! # Filling the ranking anew

When the number of cached entries is not the share counter, `get_ranking_filelist` deletes
both keys and writes one entry for each row of `share_file_list`. The id of an entry is the
row's md5 followed by its file name, with nothing between them. Then it allocates the rows of the
page, reads them, and logs the page before it is sent. -/
namespace RankingRebuilds

open ByteStrings CheckedCode CommandPrograms RowTables SortedSets DiskState DiskHandlers
  HandlerRules ReferenceCounts ShareLedger CacheEntries RankingCache RankingReads RequestLoops
  PrintedReplies UploadBodies
open HmsetCommands (Allocations)
open LogMessages (Tm)

/-- `sprintf(fileid, "%s%s", row[0], row[1])`, into a buffer of 1024 bytes. -/
def formatFileid (r : DiskState.ShareFile) : Checked CString := copyString 1024 (fileid r)

/-- The counter lookup of the run hands out a number other than the size of the set. -/
structure TakesRebuild (k : ℕ) (d : Disk) : Prop where
  zset : d.redis filePublicZset = none ∨ ∃ z, d.redis filePublicZset = some (.zset z)
  differ : ∃ c rest,
    listing k ((rowsWhere (UserCount.ofUser shareCountKey) d.userFileCount).map
      fun r => [Cell.int r.count]) = [.int c] :: rest ∧ c ≠ (zsetPairs d.redis).length

/-- The shares by `pv` descending, equal ones in any order. -/
structure IsByPv (shares : Shares) (l : List DiskState.ShareFile) : Prop where
  all : (l : Multiset DiskState.ShareFile) = shares
  sorted : l.Pairwise fun a b => b.pv ≤ a.pv

/-- What a rebuild is for: the cache is the table, and the page is read from it and sent. -/
structure Rebuilt (memory : Allocations) (now : Tm) (shares : Shares) (start count : ℤ)
    (o : Option (List (CString × ℤ))) (s : Redis) : Prop where
  formatted : ∀ r ∈ shares, Returns (formatFileid r) (· = fileid r)
  members : (zsetPairs s : Multiset (ℤ × CString)) = shares.map rankPair
  names : ∀ id name, nameOf s id = some name ↔ ∃ r ∈ shares, fileid r = id ∧ r.filename = name
  listed : ∃ l, IsByPv shares l ∧ o = some (page l start count)
  sent : Sent memory now (filesReply .ranking o)

/-- Memory for the page, ids that fit their buffer and differ, and a page that ends inside `int`
(or starts behind the last row, or belongs to a table so large that the end wraps around to a rank
beyond the page) without a row of `pv` minus one, and whose text fits the log. -/
structure Rebuildable (granted : Bool) (shares : Shares) (start count : ℤ) : Prop where
  granted : granted
  short : ∀ r ∈ shares, r.md5.length + r.filename.length < 1024
  distinct : ∀ r ∈ shares, ∀ q ∈ shares, r.md5 ++ r.filename = q.md5 ++ q.filename → r = q
  reached : start + count ≤ 2 ^ 31 ∨ Multiset.card shares ≤ start ∨ 2 ^ 32 ≤ Multiset.card shares
  scored : ∀ l, IsRanking shares l → ∀ r ∈ (l.drop start.toNat).take count.toNat, r.pv ≠ -1
  fits : ∀ l, IsRanking shares l → FitsLog (.ranking (page l start count))

/-! ## The run -/

/-- What the rebuild leaves in the cache, whatever the ids are. -/
structure Filled (shares : Shares) (s : Redis) : Prop where
  cached : Cached shares s
  named : Named shares s
  lists : ∀ r ∈ shares, Lists s (fileid r)

section Run
variable {d : Disk} {e : ℕ → Outcome} {k : ℕ} {start count : ℤ}

theorem spec_readFilled {redis : Redis} (hne : d.shareFileList ≠ 0)
    (hf : Filled d.shareFileList redis) (h0 : 0 ≤ start) (hs : start < 2 ^ 31) (h1 : 1 ≤ count)
    (hc : count < 2 ^ 31) :
    Spec Cmd.exec NoFail (readPage start count) { d with redis } fun o d' =>
      Filled d.shareFileList d'.redis ∧
        (Identified d.shareFileList → (∀ r ∈ d.shareFileList, Readable r) →
          ∀ l, IsRanking d.shareFileList l → o = shown l start count) := by
  intro e he
  constructor
  · have hkeeps : Spec Cmd.exec NoFail (readPage start count) { d with redis } fun _ d' =>
        Filled d.shareFileList d'.redis := by
      refine spec_all (P := ReadOnly) (I := fun d' : Disk => Filled _ d'.redis) ?_
        readPage_readOnly hf
      intro c hc o w hw
      rwa [hc o w]
    exact hkeeps e he
  · intro hid hread l hl
    have hall := complete_of_lists hid hf.cached hf.lists
    exact (spec_readPage hid hread hne hf.cached hall hl h0 hs h1 hc e he).1

theorem getRankingFilelist_rebuilds (granted : Bool) (hne : d.shareFileList ≠ 0)
    (he : ∀ i, NoFail (e i))
    (hk : e 3 = .ok k) (hb : TakesRebuild k d) (h0 : 0 ≤ start) (hs : start < 2 ^ 31)
    (h1 : 1 ≤ count) (hc : count < 2 ^ 31) :
    Filled d.shareFileList ((getRankingFilelistIn granted start count).run Cmd.exec e d).2.redis ∧
      (granted = false → ((getRankingFilelistIn granted start count).run Cmd.exec e d).1 = none) ∧
      (granted = true → Identified d.shareFileList → (∀ r ∈ d.shareFileList, Readable r) →
        ∀ l, IsRanking d.shareFileList l →
          ((getRankingFilelistIn granted start count).run Cmd.exec e d).1 =
            shown l start count) := by
  obtain ⟨hz, c, rest, hrows, hdiffer⟩ := hb
  -- only the counter lookup, the fourth command, depends on the order of the rows
  let adm : ℕ → Outcome → Prop := fun i o => NoFail o ∧ (i = 3 → o = .ok k)
  have hadm : ∀ i, adm i (e i) := fun i => ⟨he i, fun hi => hi ▸ hk⟩
  suffices h : SpecSeq Cmd.exec adm (getRankingFilelistIn granted start count) d fun o d' =>
      Filled d.shareFileList d'.redis ∧ (granted = false → o = none) ∧
        (granted = true → Identified d.shareFileList → (∀ r ∈ d.shareFileList, Readable r) →
          ∀ l, IsRanking d.shareFileList l → o = shown l start count) from h e hadm
  unfold getRankingFilelistIn
  refine specSeq_ropConnect (fun _ _ => ?_) fun h => NoFail.elim h.1
  refine specSeq_msqlConn (fun _ _ => ?_) fun h => NoFail.elim h.1
  apply specSeq_setNames
  intro _
  apply specSeq_call
  intro o ho
  obtain rfl := ho.2 rfl
  have hresult : Cmd.exec (.ok k) (.query (selectUserCount shareCountKey)) d =
      (.rows ([.int c] :: rest), d) := Prod.ext (congrArg Reply.rows hrows) rfl
  rw [hresult]
  refine Spec.specSeq ?_ fun _ o h => (h.1 : NoFail o)
  refine spec_ropZsetZcard hz ?_
  rw [if_neg (by omega)]
  simp only [ne_eq, List.head?_cons, Option.getD_some, Cell.atoi, hdiffer.symm,
    not_false_eq_true, if_true]
  refine spec_rebuildRanking (fun _ _ h => absurd h hne) ?_
  intro redis hcached hnamed hlists
  have hcount : ¬ count < 0 := by omega
  have hfilled : Filled d.shareFileList redis := ⟨hcached, hnamed, hlists⟩
  cases granted with
  | false =>
    simp only [Bool.not_true, Bool.false_eq_true, if_false, hcount, Bool.not_false, if_true]
    exact spec_ret ⟨hfilled, fun _ => rfl, False.elim⟩
  | true =>
    simp only [Bool.not_true, Bool.false_eq_true, if_false, hcount]
    refine (spec_readFilled hne hfilled h0 hs h1 hc).mono ?_
    rintro o d' ⟨hf, hread⟩
    exact ⟨hf, fun h => absurd h.symm Bool.false_ne_true, fun _ => hread⟩

end Run

/-! ## What it comes to -/

section Outcome
variable {shares : Shares} {s : Redis} {start count : ℤ} {o : Option (List (CString × ℤ))}

theorem ranking_isByPv {l : List DiskState.ShareFile} (h : IsRanking shares l) :
    IsByPv shares l := by
  refine ⟨h.all, h.sorted.imp ?_⟩
  intro a b hab
  rcases Prod.Lex.toLex_le_toLex.mp hab with hlt | ⟨heq, -⟩
  · exact le_of_lt hlt
  · exact le_of_eq heq

theorem formatted_iff {r : DiskState.ShareFile} :
    Returns (formatFileid r) (· = fileid r) ↔ r.md5.length + r.filename.length < 1024 := by
  rw [formatFileid, returns_copyString, fileid, List.length_append]
  exact and_iff_left rfl

theorem readable_of_short
    (hnul : ∀ r ∈ shares, (0 : UInt8) ∉ r.md5 ∧ (0 : UInt8) ∉ r.filename)
    (hshort : ∀ r ∈ shares, r.md5.length + r.filename.length < 1024) :
    ∀ r ∈ shares, Readable r := by
  intro r hr
  refine ⟨?_, (hnul r hr).1, (hnul r hr).2⟩
  rw [fileid, List.length_append]
  exact hshort r hr

theorem distinct_of_members (hm : (zsetPairs s : Multiset (ℤ × CString)) = shares.map rankPair) :
    ∀ r ∈ shares, ∀ q ∈ shares, fileid r = fileid q → r = q := by
  have hnodup : (shares.map fileid).Nodup := by
    have hsnd : shares.map fileid = ((zsetPairs s).map Prod.snd : List CString) := by
      rw [← Multiset.map_coe, hm, Multiset.map_map]
      rfl
    rw [hsnd]
    exact Multiset.coe_nodup.mpr (zsetPairs_members_nodup s)
  intro r hr q hq heq
  exact Multiset.inj_on_of_nodup_map hnodup r hr q hq heq

theorem names_iff (hid : Identified shares) (hf : Filled shares s) (id name : CString) :
    nameOf s id = some name ↔ ∃ r ∈ shares, fileid r = id ∧ r.filename = name := by
  constructor
  · exact hf.named id name
  · rintro ⟨r, hr, rfl, rfl⟩
    exact nameOf_complete hid hf.cached (complete_of_lists hid hf.cached hf.lists) hr

theorem shownCount_lt {n : ℕ} (h0 : 0 ≤ start) (hs : start < 2 ^ 31) (h1 : 1 ≤ count)
    (hc : count < 2 ^ 31) (hend : 2 ^ 31 < start + count) (hstart : start < n)
    (hn : n < 2 ^ 32) :
    shownCount n start count < min count.toNat (n - start.toNat) := by
  unfold shownCount
  rw [if_neg (by omega)]
  omega

theorem take_shownCount {n : ℕ} {l : List DiskState.ShareFile} (hl : l.length = n)
    (h0 : 0 ≤ start) (hreach : start + count ≤ 2 ^ 31 ∨ (n : ℤ) ≤ start ∨ 2 ^ 32 ≤ n) :
    (l.drop start.toNat).take (shownCount l.length start count) =
      (l.drop start.toNat).take count.toNat := by
  rcases hreach with hend | hout | hlarge
  · rw [shownCount, if_pos hend]
  · rw [List.drop_eq_nil_of_le (by omega), List.take_nil, List.take_nil]
  · have hcount : shownCount l.length start count = count.toNat := by
      unfold shownCount
      split
      · rfl
      · omega
    rw [hcount]

/-- The page is right when all of it is reached and no score is taken for a failure. -/
theorem page_listed_iff {l : List DiskState.ShareFile} (hl : IsRanking shares l) (h0 : 0 ≤ start)
    (hs : start < 2 ^ 31) (h1 : 1 ≤ count) (hc : count < 2 ^ 31) (ho : o = shown l start count) :
    (∃ l', IsByPv shares l' ∧ o = some (page l' start count)) ↔
      (start + count ≤ 2 ^ 31 ∨ Multiset.card shares ≤ start ∨
        2 ^ 32 ≤ Multiset.card shares) ∧
      ∀ r ∈ (l.drop start.toNat).take count.toNat, r.pv ≠ -1 := by
  have hlen : l.length = Multiset.card shares := by rw [← hl.all, Multiset.coe_card]
  constructor
  · rintro ⟨l', hl', hpage⟩
    have hlen' : l'.length = Multiset.card shares := by rw [← hl'.all, Multiset.coe_card]
    rw [ho, shown] at hpage
    split at hpage
    · cases hpage
    · rename_i hscores
      have hsize := congrArg List.length (Option.some.inj hpage)
      simp only [page, List.length_map, List.length_take, List.length_drop, hlen, hlen'] at hsize
      have hreach : start + count ≤ 2 ^ 31 ∨ (Multiset.card shares : ℤ) ≤ start ∨
          2 ^ 32 ≤ Multiset.card shares := by
        by_contra hnot
        simp only [not_or, not_le] at hnot
        have := shownCount_lt h0 hs h1 hc hnot.1 hnot.2.1 hnot.2.2
        omega
      refine ⟨hreach, fun r hr hpv => hscores ⟨r, ?_, hpv⟩⟩
      rw [take_shownCount hlen h0 hreach]
      exact hr
  · rintro ⟨hreach, hscores⟩
    refine ⟨l, ranking_isByPv hl, ?_⟩
    rw [ho, shown, take_shownCount hlen h0 hreach, if_neg]
    · rfl
    · rintro ⟨r, hr, hpv⟩
      exact hscores r hr hpv

theorem page_listed_eq {l l' : List DiskState.ShareFile} (hl : IsRanking shares l)
    (h0 : 0 ≤ start) (hreach : start + count ≤ 2 ^ 31 ∨ (Multiset.card shares : ℤ) ≤ start ∨
      2 ^ 32 ≤ Multiset.card shares) (ho : o = shown l start count)
    (hpage : o = some (page l' start count)) : o = some (page l start count) := by
  have hlen : l.length = Multiset.card shares := by rw [← hl.all, Multiset.coe_card]
  rw [ho, shown] at hpage
  split at hpage
  · cases hpage
  · rename_i hscores
    rw [ho, shown, if_neg hscores, take_shownCount hlen h0 hreach]
    rfl

end Outcome

/-- A run that rebuilds leaves the cache and sends the page as it should exactly when the
table, the page and the memory allow it. -/
theorem rebuild_right_iff {d : Disk} {e : ℕ → Outcome} {k : ℕ} {start count : ℤ} {granted : Bool}
    {memory : Allocations} {now : Tm} (hne : d.shareFileList ≠ 0)
    (hpairs : (d.shareFileList.map fun r => (r.md5, r.filename)).Nodup)
    (hnul : ∀ r ∈ d.shareFileList, (0 : UInt8) ∉ r.md5 ∧ (0 : UInt8) ∉ r.filename)
    (hpv : ∀ r ∈ d.shareFileList, IsInt r.pv) (hmem : ∀ i, memory i ≠ none)
    (he : ∀ i, NoFail (e i)) (hk : e 3 = .ok k) (hb : TakesRebuild k d)
    (hstart : 0 ≤ start ∧ start < 2 ^ 31) (hcount : 1 ≤ count ∧ count < 2 ^ 31) :
    Rebuilt memory now d.shareFileList start count
        ((getRankingFilelistIn granted start count).run Cmd.exec e d).1
        ((getRankingFilelistIn granted start count).run Cmd.exec e d).2.redis ↔
      Rebuildable granted d.shareFileList start count := by
  obtain ⟨h0, hs⟩ := hstart
  obtain ⟨h1, hc⟩ := hcount
  obtain ⟨hf, hnone, hread⟩ := getRankingFilelist_rebuilds granted hne he hk hb h0 hs h1 hc
  have hreadable := readable_of_short hnul
  have hsent : ∀ l, IsRanking d.shareFileList l →
      (Sent memory now (.ranking (page l start count)) ↔
        FitsLog (.ranking (page l start count))) := by
    intro l hl
    exact sent_page_iff hmem hl fun r hr => HandlerEffects.natAbs_of_isInt (hpv r hr)
  constructor
  · intro h
    have hshort := fun r hr => formatted_iff.mp (h.formatted r hr)
    have hid : Identified d.shareFileList := ⟨hpairs.of_map, distinct_of_members h.members⟩
    obtain ⟨l', -, hl'⟩ := h.listed
    have hgranted : granted = true := by
      by_contra hno
      rw [hnone (Bool.eq_false_iff.mpr hno)] at hl'
      cases hl'
    have hshown := fun l hl => hread hgranted hid (hreadable hshort) l hl
    have hpage := fun l hl => (page_listed_iff hl h0 hs h1 hc (hshown l hl)).mp h.listed
    obtain ⟨l, hl⟩ := exists_isRanking d.shareFileList
    refine ⟨hgranted, hshort, hid.distinct, (hpage l hl).1, fun l hl => (hpage l hl).2,
      fun l hl => (hsent l hl).mp ?_⟩
    have ho := page_listed_eq hl h0 (hpage l hl).1 (hshown l hl) hl'
    have hsends := h.sent
    rw [ho] at hsends
    exact hsends
  · intro h
    have hid : Identified d.shareFileList := ⟨hpairs.of_map, h.distinct⟩
    obtain ⟨l, hl⟩ := exists_isRanking d.shareFileList
    have ho := hread h.granted hid (hreadable h.short) l hl
    have hlisted := (page_listed_iff hl h0 hs h1 hc ho).mpr ⟨h.reached, h.scored l hl⟩
    refine ⟨?_, ?_, names_iff hid hf, hlisted, ?_⟩
    · intro r hr
      exact formatted_iff.mpr (h.short r hr)
    · exact pairs_eq hid hf.cached (complete_of_lists hid hf.cached hf.lists)
    · obtain ⟨l', -, hl'⟩ := hlisted
      rw [page_listed_eq hl h0 h.reached ho hl']
      exact (hsent l hl).mpr (h.fits l hl)

def twoShares (md5₁ filename₁ md5₂ filename₂ : CString) : Disk :=
  { emptyDisk with
    shareFileList := {⟨cstr "u", md5₁, [], filename₁, 1⟩, ⟨cstr "u", md5₂, [], filename₂, 2⟩}
    userFileCount := {⟨shareCountKey, 2⟩} }

theorem twoShares_rebuilds (md5₁ filename₁ md5₂ filename₂ : CString) :
    TakesRebuild 0 (twoShares md5₁ filename₁ md5₂ filename₂) := by
  refine ⟨.inl rfl, 2, [], ?_, ?_⟩
  · change listing 0 (({⟨shareCountKey, 2⟩} : Multiset UserCount).filter _ |>.map _) = _
    decide
  · change (2 : ℤ) ≠ (0 : ℕ)
    decide

theorem rebuild_right_two_shares :
    ∃ e : ℕ → Outcome, (∀ i, NoFail (e i)) ∧ e 3 = .ok 0 ∧
      TakesRebuild 0 (twoShares (cstr "1") (cstr "a") (cstr "2") (cstr "b")) ∧
      Rebuilt (fun _ => some fun _ => 0) ⟨2026, 2, 28, 23, 59, 59⟩
        (twoShares (cstr "1") (cstr "a") (cstr "2") (cstr "b")).shareFileList 0 1
        ((getRankingFilelistIn true 0 1).run Cmd.exec e
          (twoShares (cstr "1") (cstr "a") (cstr "2") (cstr "b"))).1
        ((getRankingFilelistIn true 0 1).run Cmd.exec e
          (twoShares (cstr "1") (cstr "a") (cstr "2") (cstr "b"))).2.redis := by
  have he : ∀ i : ℕ, NoFail ((fun _ => .ok 0 : ℕ → Outcome) i) := fun _ => by simp [NoFail]
  have hb := twoShares_rebuilds (cstr "1") (cstr "a") (cstr "2") (cstr "b")
  refine ⟨fun _ => .ok 0, he, rfl, hb, ?_⟩
  refine (rebuild_right_iff (by decide) (by decide) (by decide) (by decide)
    (fun _ => Option.some_ne_none _) he rfl hb (by decide) (by decide)).mpr ?_
  have hmem : ∀ {l : List DiskState.ShareFile}, IsRanking
      (twoShares (cstr "1") (cstr "a") (cstr "2") (cstr "b")).shareFileList l → ∀ r ∈ l,
        r = ⟨cstr "u", cstr "1", [], cstr "a", 1⟩ ∨ r = ⟨cstr "u", cstr "2", [], cstr "b", 2⟩ := by
    intro l hl r hr
    have hshare : r ∈ (twoShares (cstr "1") (cstr "a") (cstr "2") (cstr "b")).shareFileList := by
      rw [← hl.all]
      exact Multiset.mem_coe.mpr hr
    simpa [twoShares] using hshare
  constructor
  · rfl
  · decide
  · decide
  · decide
  · intro l hl r hr
    rcases hmem hl r (List.mem_of_mem_drop (List.mem_of_mem_take hr)) with rfl | rfl <;> decide
  · intro l hl
    cases l with
    | nil => exact fitsLog_of_text rfl (by decide +kernel)
    | cons r l =>
      rcases hmem hl r List.mem_cons_self with rfl | rfl
      · exact fitsLog_of_text rfl (by decide +kernel)
      · exact fitsLog_of_text rfl (by decide +kernel)

/-- The md5 `a` with the name `bc`, and the md5 `ab` with the name `c`. -/
theorem rebuild_merges_shares :
    ((twoShares (cstr "a") (cstr "bc") (cstr "ab") (cstr "c")).shareFileList.map
      fun r => (r.md5, r.filename)).Nodup ∧
    TakesRebuild 0 (twoShares (cstr "a") (cstr "bc") (cstr "ab") (cstr "c")) ∧
    ∃ e : ℕ → Outcome, (∀ i, NoFail (e i)) ∧ e 3 = .ok 0 ∧
      zsetPairs ((getRankingFilelistIn true 0 2).run Cmd.exec e
        (twoShares (cstr "a") (cstr "bc") (cstr "ab") (cstr "c"))).2.redis = [(1, cstr "abc")] ∧
      ((getRankingFilelistIn true 0 2).run Cmd.exec e
        (twoShares (cstr "a") (cstr "bc") (cstr "ab") (cstr "c"))).1 = some [(cstr "bc", 1)] := by
  refine ⟨by decide, twoShares_rebuilds _ _ _ _, fun _ => .ok 0, fun _ => by simp [NoFail], rfl,
    ?_, ?_⟩
  · decide
  · decide

end RankingRebuilds
