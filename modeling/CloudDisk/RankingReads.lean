import CloudDisk.PrintedReplies
import CloudDisk.RankingCache

/-! # Reading the ranking

`get_ranking_filelist` trusts the cache when it has as many entries as the share counter
says, and fills it anew otherwise. Since a cached entry is never wrong, the right number of
entries means that all of them are there. The page is logged before it is sent. -/
namespace RankingReads

open ByteStrings CommandPrograms RowTables SortedSets DiskState DiskHandlers HandlerRules
  HandlerEffects DiskCalls ReferenceCounts ShareLedger CacheEntries RankingCache RequestLoops
  PrintedReplies
open HmsetCommands (Allocations)
open LogMessages (Tm)

def rankPair (r : DiskState.ShareFile) : ℤ × CString := (r.pv, fileid r)

/-- The shares by `pv` descending, equal ones by the id descending. -/
structure IsRanking (shares : Shares) (l : List DiskState.ShareFile) : Prop where
  all : (l : Multiset DiskState.ShareFile) = shares
  sorted : l.Pairwise fun a b => toLex (rankPair b) ≤ toLex (rankPair a)

theorem exists_isRanking (shares : Shares) : ∃ l, IsRanking shares l := by
  induction shares using Quot.inductionOn with
  | h l =>
    refine ⟨l.insertionSort fun a b => toLex (rankPair b) ≤ toLex (rankPair a), ?_, ?_⟩
    · exact Multiset.coe_eq_coe.mpr (List.perm_insertionSort _ l)
    · have : Std.Total fun a b : DiskState.ShareFile => toLex (rankPair b) ≤ toLex (rankPair a) :=
        ⟨fun a b => le_total _ _⟩
      have : IsTrans DiskState.ShareFile
          fun a b => toLex (rankPair b) ≤ toLex (rankPair a) :=
        ⟨fun _ _ _ hab hbc => hbc.trans hab⟩
      exact List.pairwise_insertionSort _ l

structure Identified (shares : Shares) : Prop where
  nodup : shares.Nodup
  distinct : ∀ r ∈ shares, ∀ q ∈ shares, fileid r = fileid q → r = q

/-- The id and the name pass through the buffers of the reader as they are. -/
structure Readable (r : DiskState.ShareFile) : Prop where
  short : (fileid r).length < valuesIdSize
  md5 : (0 : UInt8) ∉ r.md5
  filename : (0 : UInt8) ∉ r.filename

def Complete (shares : Shares) (s : Redis) : Prop := ∀ r ∈ shares, rankPair r ∈ zsetPairs s

section Contents
variable {d : Disk} {s : Redis} {shares : Shares}

theorem shares_nodup (h : Ledger d) : d.shareFileList.Nodup := by
  apply Multiset.nodup_iff_le.mpr
  intro r hle
  have hone := h.once r.user r.md5 r.filename
  have htwo := Multiset.card_le_card (Multiset.filter_le_filter
    (fun q => DiskState.ShareFile.isRow r.user r.md5 r.filename q) hle)
  simp only [DiskState.ShareFile.isRow, decide_eq_true_eq] at htwo
  rw [Multiset.filter_cons_of_pos _ (by simp), Multiset.filter_cons_of_pos _ (by simp)] at htwo
  simp only [Multiset.filter_zero, Multiset.card_cons, Multiset.card_zero] at htwo
  simp only [countWhere, rowsWhere, DiskState.ShareFile.isRow, decide_eq_true_eq] at hone
  omega

theorem rank_identified (h : RankInv d) : Identified d.shareFileList :=
  ⟨shares_nodup h.ledger, h.distinct⟩

theorem rank_readable (h : RankInv d) {r : DiskState.ShareFile} (hr : r ∈ d.shareFileList) :
    Readable r := by
  obtain ⟨⟨hm, hm0⟩, hf, hf0⟩ := h.fits r hr
  refine ⟨?_, hm0, hf0⟩
  simp only [fileid, List.length_append, valuesIdSize]
  omega

theorem rankPairs_nodup (h : Identified shares) : (shares.map rankPair).Nodup := by
  refine h.nodup.map_on fun r hr q hq heq => ?_
  exact h.distinct r hr q hq (congrArg Prod.snd heq)

theorem zsetPairs_members_nodup (s : Redis) : ((zsetPairs s).map Prod.snd).Nodup := by
  unfold zsetPairs
  split
  · exact SortedSet.pairs_members_nodup _
  · exact List.nodup_nil

theorem zsetPairs_nodup (s : Redis) : (zsetPairs s).Nodup :=
  List.Nodup.of_map Prod.snd (zsetPairs_members_nodup s)

theorem cached_le (h : Cached shares s) :
    (zsetPairs s : Multiset (ℤ × CString)) ≤ shares.map rankPair := by
  apply (Multiset.le_iff_subset (Multiset.coe_nodup.mpr (zsetPairs_nodup s))).mpr
  rintro ⟨p, id⟩ hp
  obtain ⟨r, hr, hid, hpv, -⟩ := h.right p id (Multiset.mem_coe.mp hp)
  exact Multiset.mem_map.mpr ⟨r, hr, by rw [rankPair, hid, hpv]⟩

theorem complete_of_length (h : Cached shares s)
    (hlen : (zsetPairs s).length = Multiset.card shares) : Complete shares s := by
  have heq : (zsetPairs s : Multiset (ℤ × CString)) = shares.map rankPair :=
    Multiset.eq_of_le_of_card_le (cached_le h) (by simp [hlen])
  intro r hr
  have : rankPair r ∈ (zsetPairs s : Multiset (ℤ × CString)) :=
    heq ▸ Multiset.mem_map_of_mem rankPair hr
  exact Multiset.mem_coe.mp this

theorem pairs_eq (h : Identified shares) (hc : Cached shares s) (hall : Complete shares s) :
    (zsetPairs s : Multiset (ℤ × CString)) = shares.map rankPair := by
  have hge : shares.map rankPair ≤ (zsetPairs s : Multiset (ℤ × CString)) := by
    apply (Multiset.le_iff_subset (rankPairs_nodup h)).mpr
    intro q hq
    obtain ⟨r, hr, rfl⟩ := Multiset.mem_map.mp hq
    exact Multiset.mem_coe.mpr (hall r hr)
  exact le_antisymm (cached_le hc) hge

theorem pairs_perm (h : Identified shares) (hc : Cached shares s) (hall : Complete shares s)
    {l : List DiskState.ShareFile} (hl : IsRanking shares l) :
    (zsetPairs s).Perm (l.map rankPair) := by
  have heq := pairs_eq h hc hall
  rw [← hl.all, Multiset.map_coe] at heq
  exact Multiset.coe_eq_coe.mp heq

theorem zset_ranking (h : Identified shares) (hne : shares ≠ 0) (hc : Cached shares s)
    (hall : Complete shares s) {l : List DiskState.ShareFile} (hl : IsRanking shares l) :
    ∃ z, s filePublicZset = some (.zset z) ∧ z.pairs = (l.map rankPair).reverse := by
  obtain ⟨r, hr⟩ := Multiset.exists_mem_of_ne_zero hne
  have hmem := hall r hr
  rcases hc.kinds.zset with hz | ⟨z, hz⟩
  · simp [zsetPairs, hz] at hmem
  · refine ⟨z, hz, SortedSet.pairs_eq_of_perm ?_ ?_⟩
    · have := pairs_perm h hc hall hl
      rw [zsetPairs, hz] at this
      exact this.trans (List.reverse_perm _).symm
    · rw [List.map_reverse, List.pairwise_reverse, List.map_map, List.pairwise_map]
      exact hl.sorted

theorem nameOf_complete (h : Identified shares) (hc : Cached shares s)
    (hall : Complete shares s) {r : DiskState.ShareFile} (hr : r ∈ shares) :
    nameOf s (fileid r) = some r.filename := by
  obtain ⟨q, hq, hid, -, hname⟩ := hc.right _ _ (hall r hr)
  rw [h.distinct q hq r hr hid] at hname
  exact hname

end Contents

/-! ## The commands of the reader -/

section Commands
variable {α : Type} {d : Disk} {Q : α → Disk → Prop}

theorem spec_ropZsetZcard {f : ℤ → Handler α}
    (h : d.redis filePublicZset = none ∨ ∃ z, d.redis filePublicZset = some (.zset z))
    (hs : Spec Cmd.exec NoFail (f (zsetPairs d.redis).length) d Q) :
    Spec Cmd.exec NoFail (ropZsetZcard filePublicZset >>= f) d Q := by
  apply spec_call
  intro o ho
  cases o with
  | fail => exact NoFail.elim ho
  | ok k =>
    rcases h with hz | ⟨z, hz⟩
    · simp only [zsetPairs, hz] at hs
      simp only [Cmd.exec, RedisCmd.exec, hz]
      exact hs
    · simp only [zsetPairs, hz, SortedSet.pairs, List.length_map] at hs
      simp only [Cmd.exec, RedisCmd.exec, hz]
      exact hs

theorem spec_ropDelKey {key : CString} {f : ℤ → Handler α}
    (hs : ∀ n, Spec Cmd.exec NoFail (f n)
      { d with redis := Function.update d.redis key none } Q) :
    Spec Cmd.exec NoFail (ropDelKey key >>= f) d Q := by
  apply spec_call
  intro o ho
  cases o with
  | fail => exact NoFail.elim ho
  | ok k => exact hs _

theorem spec_ropHashGet {id name : CString} {f : Option CString → Handler α}
    (h : Kinds d.redis) (hname : nameOf d.redis id = some name)
    (hshort : name.length ≤ valuesIdSize) (hnul : (0 : UInt8) ∉ name)
    (hs : Spec Cmd.exec NoFail (f (some name)) d Q) :
    Spec Cmd.exec NoFail (ropHashGet fileNameHash id >>= f) d Q := by
  apply spec_call
  intro o ho
  cases o with
  | fail => exact NoFail.elim ho
  | ok k =>
    rcases h.hash with hh | ⟨fields, hh⟩
    · simp [nameOf, hh] at hname
    · simp only [nameOf, hh] at hname
      have hread : untilNul (name.take valuesIdSize) = name := by
        rw [List.take_of_length_le hshort, untilNul_of_notMem hnul]
      simp only [Cmd.exec, RedisCmd.exec, hh, hname]
      rw [← hread] at hs
      exact hs

theorem spec_ropZsetGetScore {z : SortedSet} {id : CString} {p : ℤ} {f : ℤ → Handler α}
    (hz : d.redis filePublicZset = some (.zset z)) (hp : (p, id) ∈ z.pairs)
    (hs : Spec Cmd.exec NoFail (f p) d Q) :
    Spec Cmd.exec NoFail (ropZsetGetScore filePublicZset id >>= f) d Q := by
  apply spec_call
  intro o ho
  cases o with
  | fail => exact NoFail.elim ho
  | ok k =>
    simp only [Cmd.exec, RedisCmd.exec, hz, SortedSet.score?_eq_some.mpr hp]
    exact hs

/-- A score of minus one is taken for a failure. -/
theorem spec_rankingItems (h : Kinds d.redis) {z : SortedSet}
    (hz : d.redis filePublicZset = some (.zset z)) :
    ∀ l : List DiskState.ShareFile, (∀ r ∈ l, Readable r) →
      (∀ r ∈ l, nameOf d.redis (fileid r) = some r.filename) → (∀ r ∈ l, rankPair r ∈ z.pairs) →
      Spec Cmd.exec NoFail (rankingItems (l.map fileid)) d fun o d' =>
        o = (if ∃ r ∈ l, r.pv = -1 then none else some (l.map fun r => (r.filename, r.pv))) ∧
          d' = d := by
  intro l hread hnames hpairs
  induction l with
  | nil => exact spec_ret ⟨by simp, rfl⟩
  | cons r l ih =>
    have hr := hread r List.mem_cons_self
    have hshort : r.filename.length ≤ valuesIdSize := by
      have := hr.short
      rw [fileid, List.length_append] at this
      omega
    refine spec_ropHashGet h (hnames r List.mem_cons_self) hshort hr.filename ?_
    refine spec_ropZsetGetScore hz (hpairs r List.mem_cons_self) ?_
    by_cases hpv : r.pv = -1
    · rw [if_pos hpv]
      exact spec_ret ⟨by simp [hpv], rfl⟩
    · rw [if_neg hpv]
      have hrest := ih (fun q hq => hread q (List.mem_cons_of_mem _ hq))
        (fun q hq => hnames q (List.mem_cons_of_mem _ hq))
        fun q hq => hpairs q (List.mem_cons_of_mem _ hq)
      refine spec_bind (hrest.mono ?_)
      rintro o d' ⟨rfl, rfl⟩
      by_cases hsome : ∃ q ∈ l, q.pv = -1
      · rw [if_pos hsome]
        exact spec_ret ⟨by simp [hpv, hsome], rfl⟩
      · rw [if_neg hsome]
        exact spec_ret ⟨by simp [hpv, hsome], rfl⟩

theorem revrange_eq {z : SortedSet} {ids : List CString} {start stop : ℤ}
    (hids : z.entries.map Entry.member = ids.reverse) (h0 : 0 ≤ start) :
    z.revrange start stop = (ids.drop start.toNat).take
      ((if stop < 0 then ids.length + stop else stop) - start + 1).toNat := by
  have hlen : z.card = ids.length := by
    have := congrArg List.length hids
    simpa [SortedSet.card] using this
  unfold SortedSet.revrange
  rw [hids, List.reverse_reverse, hlen]
  simp only [if_neg (not_lt.mpr h0)]
  generalize (if stop < 0 then (ids.length : ℤ) + stop else stop) = last
  by_cases hout : last < start ∨ (ids.length : ℤ) ≤ start
  · rw [if_pos hout]
    rcases hout with hout | hout
    · rw [Int.toNat_of_nonpos (by omega), List.take_zero]
    · rw [List.drop_eq_nil_of_le (by omega), List.take_nil]
  · rw [if_neg hout]
    by_cases hend : (ids.length : ℤ) ≤ last
    · rw [if_pos hend, List.take_of_length_le, List.take_of_length_le]
      · rw [List.length_drop]
        omega
      · rw [List.length_drop]
        omega
    · rw [if_neg hend]

/-- The pages a client can ask for without leaving the range of `int`. -/
structure ValidPage (start count : ℤ) : Prop where
  start_nonneg : 0 ≤ start
  count_pos : 1 ≤ count
  count_int : count < 2 ^ 31
  end_int : start + count ≤ 2 ^ 31

/-- How many entries of a page are shown: the last position is computed as an `int`, and
one that has wrapped around counts from the end of the `n` entries. -/
def shownCount (n : ℕ) (start count : ℤ) : ℕ :=
  if start + count ≤ 2 ^ 31 then count.toNat else min count.toNat (n + count - 2 ^ 32).toNat

theorem toInt32_wrapped {n : ℤ} (h0 : 2 ^ 31 ≤ n) (h1 : n < 2 ^ 32) : toInt32 n = n - 2 ^ 32 := by
  have hmod : toInt32 (n - 2 ^ 32 + ((2 ^ 32 : ℕ) : ℤ)) = toInt32 (n - 2 ^ 32) :=
    Int.add_bmod_right _ _
  have hsame : n - 2 ^ 32 + ((2 ^ 32 : ℕ) : ℤ) = n := by omega
  rw [hsame] at hmod
  rw [hmod]
  exact Int.bmod_eq_of_le (by omega) (by omega)

theorem toInt32_page {start count : ℤ} (h1 : 1 ≤ count)
    (hc : count < 2 ^ 31) : toInt32 (toInt32 (start + count - 1) - start + 1) = count := by
  unfold toInt32
  rw [show Int.bmod (start + count - 1) (2 ^ 32) - start + 1 =
    Int.bmod (start + count - 1) (2 ^ 32) + (1 - start) by omega, Int.bmod_add_bmod,
    show start + count - 1 + (1 - start) = count by omega]
  exact toInt32_eq (by omega) hc

theorem revrange_page {z : SortedSet} {ids : List CString} {start count : ℤ}
    (hids : z.entries.map Entry.member = ids.reverse) (h0 : 0 ≤ start) (hs : start < 2 ^ 31)
    (h1 : 1 ≤ count) (hc : count < 2 ^ 31) :
    (z.revrange start (toInt32 (start + count - 1))).take count.toNat =
      (ids.drop start.toNat).take (shownCount ids.length start count) := by
  rw [revrange_eq hids h0, List.take_take]
  congr 1
  unfold shownCount
  by_cases hend : start + count ≤ 2 ^ 31
  · rw [if_pos hend, toInt32_eq (by omega) (by omega), if_neg (by omega)]
    omega
  · rw [if_neg hend, toInt32_wrapped (by omega) (by omega), if_pos (by omega)]
    omega

theorem spec_ropZsetZrevrange {z : SortedSet} {l : List DiskState.ShareFile}
    (hz : d.redis filePublicZset = some (.zset z)) (hpairs : z.pairs = (l.map rankPair).reverse)
    (hl : ∀ r ∈ l, Readable r) {start count : ℤ} (h0 : 0 ≤ start) (hstart : start < 2 ^ 31)
    (h1 : 1 ≤ count) (hcount : count < 2 ^ 31) {f : Option (List CString) → Handler α}
    (hs : Spec Cmd.exec NoFail
      (f (some (((l.drop start.toNat).take (shownCount l.length start count)).map fileid))) d Q) :
    Spec Cmd.exec NoFail
      (ropZsetZrevrange filePublicZset start (toInt32 (start + count - 1)) >>= f) d Q := by
  have hids : z.entries.map Entry.member = (l.map fileid).reverse := by
    have := congrArg (List.map Prod.snd) hpairs
    simpa [SortedSet.pairs, List.map_reverse, Function.comp_def, rankPair] using this
  have hread : ∀ r ∈ l, untilNul ((fileid r).take (valuesIdSize - 1)) = fileid r := by
    intro r hr
    have hshort := (hl r hr).short
    rw [List.take_of_length_le (by omega), untilNul_of_notMem]
    simp [fileid, (hl r hr).md5, (hl r hr).filename]
  have hkept : (((l.map fileid).drop start.toNat).take (shownCount l.length start count)).map
      (fun s => untilNul (s.take (valuesIdSize - 1))) =
      ((l.drop start.toNat).take (shownCount l.length start count)).map fileid := by
    rw [← List.map_drop, ← List.map_take, List.map_map]
    refine List.map_congr_left fun r hr => hread r ?_
    exact List.mem_of_mem_drop (List.mem_of_mem_take hr)
  apply spec_call
  intro o ho
  cases o with
  | fail => exact NoFail.elim ho
  | ok k =>
    simp only [Cmd.exec, RedisCmd.exec, hz]
    change Spec Cmd.exec NoFail (f (some ((if
      toInt32 (toInt32 (start + count - 1) - start + 1) < 0
      then z.revrange start (toInt32 (start + count - 1))
      else (z.revrange start (toInt32 (start + count - 1))).take
        (toInt32 (toInt32 (start + count - 1) - start + 1)).toNat).map
          fun s => untilNul (s.take (valuesIdSize - 1))))) d Q
    rw [toInt32_page h1 hcount, if_neg (by omega),
      revrange_page hids h0 hstart h1 hcount, List.length_map, hkept]
    exact hs

end Commands

/-! ## Filling the cache anew -/

def shareCells (r : DiskState.ShareFile) : List Cell := [.str r.md5, .str r.filename, .int r.pv]

def Lists (s : Redis) (id : CString) : Prop := ∃ p, (p, id) ∈ zsetPairs s

theorem lists_put {s : Redis} {k l : ℕ} {score : ℤ} {member filename id : CString} (hs : Kinds s) :
    Lists ((RedisCmd.hset fileNameHash member filename).exec l
      ((RedisCmd.zadd filePublicZset score member).exec k s).2).2 id ↔
      id = member ∨ Lists s id := by
  have hkinds : Kinds ((RedisCmd.zadd filePublicZset score member).exec k s).2 :=
    (zadd_only hs).kinds hs
  simp only [Lists, (hset_only hkinds).zsetPairs, mem_zadd hs]
  constructor
  · rintro ⟨p, ⟨hid, -⟩ | ⟨-, hp⟩⟩
    · exact .inl hid
    · exact .inr ⟨p, hp⟩
  · intro h
    by_cases hid : id = member
    · exact ⟨score, .inl ⟨hid, rfl⟩⟩
    · obtain ⟨p, hp⟩ := h.resolve_left hid
      exact ⟨p, .inr ⟨hid, hp⟩⟩

/-- Every name in the hash is the name of a share, under its id. -/
def Named (shares : Shares) (s : Redis) : Prop :=
  ∀ id name, nameOf s id = some name → ∃ r ∈ shares, fileid r = id ∧ r.filename = name

theorem named_put {shares : Shares} {s : Redis} {k l : ℕ} {r : DiskState.ShareFile} (hs : Kinds s)
    (hr : r ∈ shares) (hn : Named shares s) :
    Named shares ((RedisCmd.hset fileNameHash (fileid r) r.filename).exec l
      ((RedisCmd.zadd filePublicZset r.pv (fileid r)).exec k s).2).2 := by
  have hzadd : ZsetOnly s ((RedisCmd.zadd filePublicZset r.pv (fileid r)).exec k s).2 :=
    zadd_only hs
  intro id name hname
  rw [nameOf_hset (hzadd.kinds hs), hzadd.nameOf] at hname
  by_cases hid : id = fileid r
  · rw [if_pos hid, Option.some.injEq] at hname
    exact ⟨r, hr, hid.symm, hname⟩
  · rw [if_neg hid] at hname
    exact hn id name hname

section Refill
variable {α : Type} {shares : Shares} {f : Bool → Handler α} {Q : α → Disk → Prop}

theorem spec_refillRanking (rows : List (List Cell)) (d : Disk)
    (hrows : ∀ row ∈ rows, ∃ r ∈ shares, row = shareCells r) (hc : Cached shares d.redis)
    (hn : Named shares d.redis)
    (h : ∀ redis, Cached shares redis → Named shares redis →
      (∀ r, shareCells r ∈ rows → Lists redis (fileid r)) →
      (∀ id, Lists d.redis id → Lists redis id) →
      Spec Cmd.exec NoFail (f true) { d with redis } Q) :
    Spec Cmd.exec NoFail (refillRanking rows >>= f) d Q := by
  induction rows generalizing d with
  | nil => exact h d.redis hc hn (fun r hr => absurd hr List.not_mem_nil) fun _ hid => hid
  | cons row rows ih =>
    obtain ⟨r, hr, rfl⟩ := hrows row List.mem_cons_self
    have hstep : refillRanking (shareCells r :: rows) =
        ropZsetAdd filePublicZset r.pv (fileid r) >>= fun _ =>
          ropHashSet fileNameHash (fileid r) r.filename >>= fun _ => refillRanking rows := rfl
    rw [hstep, CommandPrograms.bind_assoc]
    refine spec_ropWantsOne (fun k _ _ => ?_) NoFail.elim
    rw [CommandPrograms.bind_assoc]
    refine spec_ropHashSet (fun l _ => ?_) NoFail.elim
    have hput := cached_put (k := k) (l := l) hc.kinds hr fun p id hp _ => hc.right p id hp
    refine ih _ (fun row hrow => hrows row (List.mem_cons_of_mem _ hrow)) hput
      (named_put hc.kinds hr hn) ?_
    intro redis hredis hnamed hlisted hkept
    refine h redis hredis hnamed ?_ fun id hid => hkept id ((lists_put hc.kinds).mpr (.inr hid))
    intro q hq
    rcases List.mem_cons.mp hq with hq | hq
    · refine hkept _ ((lists_put hc.kinds).mpr (.inl ?_))
      simp only [shareCells, List.cons.injEq, Cell.str.injEq] at hq
      rw [fileid, fileid, hq.1, hq.2.1]
    · exact hlisted q hq

theorem complete_of_lists (h : Identified shares) {s : Redis} (hc : Cached shares s)
    (hall : ∀ r ∈ shares, Lists s (fileid r)) : Complete shares s := by
  intro r hr
  obtain ⟨p, hp⟩ := hall r hr
  obtain ⟨q, hq, hid, hpv, -⟩ := hc.right p _ hp
  obtain rfl := h.distinct q hq r hr hid
  rw [rankPair, hpv]
  exact hp

theorem spec_rankShares {d : Disk} {g : Reply → Handler α}
    (hs : ∀ rows, (∀ row, row ∈ rows ↔ ∃ r ∈ d.shareFileList, shareCells r = row) →
      Spec Cmd.exec NoFail (g (.rows rows)) d Q) :
    Spec Cmd.exec NoFail (perform (.query .rankShares) >>= g) d Q := by
  apply spec_call
  intro o ho
  cases o with
  | fail => exact NoFail.elim ho
  | ok k =>
    apply hs _
    intro row
    rw [List.mem_insertionSort, mem_listing, Multiset.mem_map]
    rfl

theorem spec_rebuildRanking {d : Disk}
    (hnone : ∀ redis, Cached d.shareFileList redis → d.shareFileList = 0 →
      Spec Cmd.exec NoFail (f false) { d with redis } Q)
    (hfull : ∀ redis, Cached d.shareFileList redis → Named d.shareFileList redis →
      (∀ r ∈ d.shareFileList, Lists redis (fileid r)) →
      Spec Cmd.exec NoFail (f true) { d with redis } Q) :
    Spec Cmd.exec NoFail (rebuildRanking >>= f) d Q := by
  unfold rebuildRanking
  rw [CommandPrograms.bind_assoc]
  apply spec_ropDelKey
  intro _
  rw [CommandPrograms.bind_assoc]
  apply spec_ropDelKey
  intro _
  let s : Redis := Function.update (Function.update d.redis filePublicZset none) fileNameHash none
  have hz : s filePublicZset = none :=
    (Function.update_of_ne keys_ne _ _).trans (Function.update_self _ _ _)
  have hcached : Cached d.shareFileList s :=
    cached_none ⟨.inl hz, .inl (Function.update_self _ _ _)⟩ hz
  rw [CommandPrograms.bind_assoc]
  apply spec_rankShares
  intro rows hmem
  cases rows with
  | nil =>
    refine hnone s hcached (Multiset.eq_zero_of_forall_notMem fun r hr => ?_)
    exact absurd ((hmem _).mpr ⟨r, hr, rfl⟩) List.not_mem_nil
  | cons row rest =>
    refine spec_refillRanking (row :: rest) { d with redis := s } ?_ hcached ?_ ?_
    · intro row hrow
      obtain ⟨r, hr, rfl⟩ := (hmem row).mp hrow
      exact ⟨r, hr, rfl⟩
    · intro id name hname
      simp [nameOf, s] at hname
    · intro redis hredis hnamed hlisted _
      apply hfull redis hredis hnamed
      intro r hr
      exact hlisted r ((hmem _).mpr ⟨r, hr, rfl⟩)

end Refill

/-! ## The reader as a whole -/

section Reader
variable {d : Disk} {start count : ℤ}

/-- The end of `get_ranking_filelist`, once the cache is trusted. -/
def readPage (start count : ℤ) : Handler (Option (List (CString × ℤ))) := do
  match ← ropZsetZrevrange filePublicZset start (toInt32 (start + count - 1)) with
  | none => return none
  | some value => rankingItems value

/-- However the reader goes on, it goes on from a right cache, and from a complete one
when there is anything to read. -/
theorem spec_getRankingFilelist {granted : Bool} {Q : Option (List (CString × ℤ)) → Disk → Prop}
    (h : RankInv d)
    (hempty : ∀ redis, Cached d.shareFileList redis → d.shareFileList = 0 →
      Q none { d with redis })
    (hread : ∀ redis, Cached d.shareFileList redis → Complete d.shareFileList redis →
      Spec Cmd.exec NoFail (if count < 0 then return none else
        if !granted then return none else readPage start count) { d with redis } Q) :
    Spec Cmd.exec NoFail (getRankingFilelistIn granted start count) d Q := by
  unfold getRankingFilelistIn
  refine spec_ropConnect ?_ NoFail.elim
  refine spec_msqlConn ?_ NoFail.elim
  apply spec_setNames
  intro _
  refine spec_selectUserCount ?_ ?_ NoFail.elim
  · intro r hr hu
    have hcount : r.count = Multiset.card d.shareFileList := (h.ledger.counter.of_mem hr hu).2
    refine spec_ropZsetZcard h.cached.kinds.zset ?_
    rw [if_neg (by omega)]
    by_cases hlen : ((zsetPairs d.redis).length : ℤ) = (Cell.int r.count).atoi
    · simp only [ne_eq, hlen, not_true_eq_false, if_false]
      refine hread d.redis h.cached (complete_of_length h.cached ?_)
      simp only [Cell.atoi, hcount] at hlen
      omega
    · simp only [ne_eq, hlen, not_false_eq_true, if_true]
      apply spec_rebuildRanking
      · intro redis hc h0
        exact spec_ret (hempty redis hc h0)
      · intro redis hc _ hlisted
        exact hread redis hc (complete_of_lists (rank_identified h) hc hlisted)
  · intro hn
    exact spec_ret (hempty d.redis h.cached (h.ledger.no_shares hn))

/-- The page `start .. start + count - 1` of a ranking, as it is printed. -/
def page (l : List DiskState.ShareFile) (start count : ℤ) : List (CString × ℤ) :=
  ((l.drop start.toNat).take count.toNat).map fun r => (r.filename, r.pv)

theorem sent_page_iff {memory : Allocations} {now : Tm} {shares : Shares}
    {l : List DiskState.ShareFile} {start count : ℤ} (hmem : ∀ i, memory i ≠ none)
    (hl : IsRanking shares l) (hpv : ∀ r ∈ shares, r.pv.natAbs < 10 ^ 15) :
    Sent memory now (.ranking (page l start count)) ↔ FitsLog (.ranking (page l start count)) := by
  apply sent_ranking_iff hmem
  intro i hi
  obtain ⟨r, hr, rfl⟩ := List.mem_map.mp hi
  apply hpv
  rw [← hl.all]
  exact Multiset.mem_coe.mpr (List.mem_of_mem_drop (List.mem_of_mem_take hr))

def shown (l : List DiskState.ShareFile) (start count : ℤ) : Option (List (CString × ℤ)) :=
  let rows := (l.drop start.toNat).take (shownCount l.length start count)
  if ∃ r ∈ rows, r.pv = -1 then none else some (rows.map fun r => (r.filename, r.pv))

theorem spec_readPage {redis : Redis} (h : Identified d.shareFileList)
    (hread : ∀ r ∈ d.shareFileList, Readable r) (hne : d.shareFileList ≠ 0)
    (hc : Cached d.shareFileList redis) (hall : Complete d.shareFileList redis)
    {l : List DiskState.ShareFile} (hl : IsRanking d.shareFileList l) (h0 : 0 ≤ start)
    (hs : start < 2 ^ 31) (h1 : 1 ≤ count) (h2 : count < 2 ^ 31) :
    Spec Cmd.exec NoFail (readPage start count) { d with redis } fun o d' =>
      o = shown l start count ∧ d' = { d with redis } := by
  have hmem : ∀ r ∈ l, r ∈ d.shareFileList := by
    intro r hr
    rw [← hl.all]
    exact Multiset.mem_coe.mpr hr
  obtain ⟨z, hz, hpairs⟩ := zset_ranking h hne hc hall hl
  have hrows : ∀ r ∈ (l.drop start.toNat).take (shownCount l.length start count), r ∈ l :=
    fun r hr => List.mem_of_mem_drop (List.mem_of_mem_take hr)
  refine spec_ropZsetZrevrange hz hpairs (fun r hr => hread r (hmem r hr)) h0 hs h1 h2 ?_
  apply spec_rankingItems hc.kinds hz _
  · intro r hr
    exact hread r (hmem r (hrows r hr))
  · intro r hr
    exact nameOf_complete h hc hall (hmem r (hrows r hr))
  · intro r hr
    rw [hpairs, List.mem_reverse]
    exact List.mem_map_of_mem (hrows r hr)

theorem getRankingFilelist_page (h : RankInv d) (hne : d.shareFileList ≠ 0)
    {l : List DiskState.ShareFile} (hl : IsRanking d.shareFileList l)
    (hpage : ValidPage start count) :
    Spec Cmd.exec NoFail (getRankingFilelistIn true start count) d fun o _ =>
      o = some (page l start count) := by
  have h1 := hpage.count_pos
  have hend := hpage.end_int
  refine spec_getRankingFilelist h (fun _ _ h0 => absurd h0 hne) fun redis hc hall => ?_
  rw [if_neg (by omega), if_neg (by decide)]
  refine (spec_readPage (rank_identified h) (fun r hr => rank_readable h hr) hne hc hall hl
    hpage.start_nonneg (by omega) h1 hpage.count_int).mono ?_
  rintro o d' ⟨rfl, -⟩
  have hpv : ¬ ∃ r ∈ (l.drop start.toNat).take count.toNat, r.pv = -1 := by
    rintro ⟨r, hr, hpv⟩
    have hmem : r ∈ d.shareFileList := by
      rw [← hl.all]
      exact Multiset.mem_coe.mpr (List.mem_of_mem_drop (List.mem_of_mem_take hr))
    have := (h.pv r hmem).1
    omega
  simp only [shown, shownCount, if_pos hend, if_neg hpv]
  rfl

def ReadOnly (c : Cmd) : Prop := ∀ o e, (Cmd.exec o c e).2 = e

theorem readOnly_redis {c : RedisCmd} (hc : ∀ k s, (c.exec k s).2 = s) : ReadOnly (.redis c) := by
  intro o e
  cases o with
  | fail => rfl
  | ok k => simp only [Cmd.exec, hc]

theorem rankingItems_readOnly (ids : List CString) : (rankingItems ids).All ReadOnly := by
  have hget : ∀ id, (ropHashGet fileNameHash id).All ReadOnly := by
    refine fun id => ⟨readOnly_redis fun k s => ?_, fun r => by cases r <;> trivial⟩
    simp only [RedisCmd.exec]
    split <;> rfl
  have hscore : ∀ id, (ropZsetGetScore filePublicZset id).All ReadOnly := by
    refine fun id => ⟨readOnly_redis fun k s => ?_, fun r => by cases r <;> trivial⟩
    simp only [RedisCmd.exec]
    split <;> rfl
  induction ids with
  | nil => trivial
  | cons id ids ih =>
    apply all_bind (hget id)
    intro o
    cases o with
    | none => trivial
    | some name =>
      refine all_bind (hscore id) fun score => all_ite trivial (all_bind ih fun o => ?_)
      cases o <;> trivial

theorem readPage_readOnly : (readPage start count).All ReadOnly := by
  have hrange : (ropZsetZrevrange filePublicZset start (toInt32 (start + count - 1))).All
      ReadOnly := by
    refine ⟨readOnly_redis fun k s => ?_, fun r => by cases r <;> trivial⟩
    simp only [RedisCmd.exec]
    split <;> rfl
  apply all_bind hrange
  intro o
  cases o with
  | none => trivial
  | some value => exact rankingItems_readOnly value

theorem getRankingFilelist_keeps {granted : Bool} (h : RankInv d) :
    Spec Cmd.exec NoFail (getRankingFilelistIn granted start count) d fun _ d' => RankInv d' := by
  refine spec_getRankingFilelist h (fun redis hc _ => h.recache hc) fun redis hc _ => ?_
  refine spec_all (P := ReadOnly) (I := RankInv) (fun c hc o e he => by rwa [hc o e]) ?_
    (h.recache hc)
  exact all_ite trivial (all_ite trivial readPage_readOnly)

end Reader

/-! ## Whole runs -/

/-- What can happen to the disk between two reads of the ranking. -/
inductive Event where
  | call (c : Call)
  | pvFile (md5 filename : CString)
  | getRankingFilelist (granted : Bool) (start count : ℤ)
  | loseZset
  | loseHash

def Event.run (e : ℕ → Outcome) : Event → Disk → Disk
  | .call c, d => (c.handler.run Cmd.exec e (c.arrive d)).2
  | .pvFile md5 filename, d => ((pvFileIn toInt32 md5 filename).run Cmd.exec e d).2
  | .getRankingFilelist granted start count, d =>
    ((getRankingFilelistIn granted start count).run Cmd.exec e d).2
  | .loseZset, d => { d with redis := Function.update d.redis filePublicZset none }
  | .loseHash, d => { d with redis := Function.update d.redis fileNameHash none }

inductive Happens (Allowed : Disk → Event → Prop) : Disk → Prop where
  | start (d : Disk) (h : TablesEmpty d) (hz : d.redis filePublicZset = none)
      (hh : d.redis fileNameHash = none) : Happens Allowed d
  | next (d : Disk) (v : Event) (e : ℕ → Outcome) (hd : Happens Allowed d) (hv : Allowed d v)
      (he : ∀ i, NoFail (e i)) : Happens Allowed (v.run e d)

/-- Files are shared, withdrawn and deleted by a user who has the row. -/
def Owner (d : Disk) : Event → Prop
  | .call (.shareFile _ user md5 filename) => ∃ r ∈ d.userFileList, r.isRow user md5 filename
  | .call (.cancelShareFile user md5 filename) =>
    ∃ r ∈ d.userFileList, r.isRow user md5 filename
  | .call (.delFile user md5 filename) => ∃ r ∈ d.userFileList, r.isRow user md5 filename
  | _ => True

/-- The events that keep the cache right. The names may only be lost together with, or
after, the sorted set: nothing restores a name while the sizes agree. -/
def Keeps (d : Disk) : Event → Prop
  | .call c => ShareLedger.Allowed d c ∧
    match c with
    | .shareFile _ _ md5 filename => ShareKeeps d md5 filename
    | .delFile user md5 filename => DelKeeps d user md5 filename
    | _ => True
  | .pvFile md5 filename => PvKeeps d md5 filename
  | .getRankingFilelist _ _ _ => True
  | .loseZset => True
  | .loseHash => d.redis filePublicZset = none

section Runs
variable {d d' : Disk}

theorem rank_call {c : Call} {n : ℤ} (h : RankInv d) (hk : Keeps d (.call c))
    (he : c.Effect (c.arrive d) n d') : RankInv d' := by
  obtain ⟨ha, hk⟩ := hk
  have hl := ledger_call h.ledger ha he
  cases c with
  | upload now user md5 filename size fileid url =>
    cases he with
    | stored t ht => exact h.sameShares hl rfl rfl
  | dealMd5 now user md5 filename =>
    cases he with
    | unknown _ => exact h
    | owned _ _ _ => exact h
    | added r hr hm hn t ht => exact h.sameShares hl rfl rfl
  | saveFile now user md5 filename =>
    cases he with
    | owned _ _ _ => exact h
    | unknown _ => exact h
    | added r hr hm hn t ht => exact h.sameShares hl rfl rfl
  | shareFile now user md5 filename => exact rank_shareFile h ha hk he
  | cancelShareFile user md5 filename => exact rank_cancelShareFile h ha he
  | delFile user md5 filename => exact rank_delFile h ha hk he

theorem rank_event {v : Event} {e : ℕ → Outcome} (h : RankInv d) (hk : Keeps d v)
    (he : ∀ i, NoFail (e i)) : RankInv (v.run e d) := by
  cases v with
  | call c => exact rank_call h hk (c.handler_effect (c.arrive d) e he)
  | pvFile md5 filename => exact rank_pvFile h hk (pvFileIn_effect md5 filename toInt32 d e he)
  | getRankingFilelist granted start count => exact getRankingFilelist_keeps h e he
  | loseZset =>
    refine h.recache (cached_none ⟨.inl (Function.update_self _ _ _), ?_⟩
      (Function.update_self _ _ _))
    rw [Function.update_of_ne keys_ne.symm]
    exact h.cached.kinds.hash
  | loseHash =>
    have hz : Function.update d.redis fileNameHash none filePublicZset = none :=
      (Function.update_of_ne keys_ne _ _).trans hk
    exact h.recache (cached_none ⟨.inl hz, .inl (Function.update_self _ _ _)⟩ hz)

theorem rank_happens (h : Happens Keeps d) : RankInv d := by
  induction h with
  | start d h hz hh =>
    refine ⟨ledger_empty h, ?_, ?_, ?_, cached_none ⟨.inl hz, .inl hh⟩ hz⟩
    all_goals simp [h.shareFileList]
  | next d v e _ hv he ih => exact rank_event ih hv he

end Runs

/-- Every page whose text fits the log is sent, and is a page of the list of shares in ranking
order. -/
def RanksRight (d : Disk) : Prop :=
  d.shareFileList ≠ 0 → ∃ l, IsRanking d.shareFileList l ∧
    ∀ (memory : Allocations) (now : Tm) (start count : ℤ), (∀ i, memory i ≠ none) →
      ValidPage start count → FitsLog (.ranking (page l start count)) →
      Spec Cmd.exec NoFail (getRankingFilelistIn true start count) d fun o _ =>
        o = some (page l start count) ∧ Sent memory now (filesReply .ranking o)

theorem ranks_right_run {d : Disk} (h : Happens Keeps d) : RanksRight d := by
  intro hne
  have hinv := rank_happens h
  obtain ⟨l, hl⟩ := exists_isRanking d.shareFileList
  refine ⟨l, hl, fun memory now start count hmem hpage hfits => ?_⟩
  refine (getRankingFilelist_page hinv hne hl hpage).mono ?_
  rintro o - rfl
  refine ⟨rfl, (sent_page_iff hmem hl fun r hr => ?_).mpr hfits⟩
  have hpv := hinv.pv r hr
  omega

theorem ranks_right_one_view : ∃ d, Happens Keeps d ∧ d.shareFileList ≠ 0 ∧ RanksRight d := by
  have hok : ∀ _ : ℕ, NoFail (.ok 0) := fun _ => by simp [NoFail]
  have h0 : Happens Keeps emptyDisk := .start _ emptyDisk_tables rfl rfl
  have h1 := h0.next _ (.call (.upload [] [97] [1] [102] 9 [7] [])) (fun _ => .ok 0)
    ⟨⟨by decide, by simp [Shared, emptyDisk]⟩, trivial⟩ hok
  have h2 := h1.next _ (.call (.shareFile [] [97] [1] [102])) (fun _ => .ok 0)
    ⟨fun _ _ => ⟨⟨[97], [1], [], [102], 0, 0⟩, by decide, by decide⟩,
      ⟨⟨by decide, by decide⟩, by decide, by decide⟩, by decide, by decide⟩ hok
  have h3 := h2.next _ (.pvFile [1] [102]) (fun _ => .ok 0)
    ⟨fun _ => .inr (by decide), by decide⟩ hok
  have h4 := h3.next _ .loseZset (fun _ => .ok 0) trivial hok
  exact ⟨_, h4, by decide, ranks_right_run h4⟩

/-- A viewed share falls out of the cache and is shared again by its owner: it is put back
with the score zero, and as the sizes agree the ranking shows that. -/
theorem ranks_wrong_shared_again : ∃ d, Happens Owner d ∧ ¬ RanksRight d := by
  have hok : ∀ _ : ℕ, NoFail (.ok 0) := fun _ => by simp [NoFail]
  have h0 : Happens Owner emptyDisk := .start _ emptyDisk_tables rfl rfl
  have h1 := h0.next _ (.call (.upload [] [97] [1] [102] 9 [7] [])) (fun _ => .ok 0) trivial hok
  have h2 := h1.next _ (.call (.shareFile [] [97] [1] [102])) (fun _ => .ok 0)
    ⟨⟨[97], [1], [], [102], 0, 0⟩, by decide, by decide⟩ hok
  have h3 := h2.next _ (.pvFile [1] [102]) (fun _ => .ok 0) trivial hok
  have h4 := h3.next _ .loseZset (fun _ => .ok 0) trivial hok
  have h5 := h4.next _ (.call (.shareFile [] [97] [1] [102])) (fun _ => .ok 0)
    ⟨⟨[97], [1], [], [102], 1, 0⟩, by decide, by decide⟩ hok
  refine ⟨_, h5, fun hright => ?_⟩
  obtain ⟨l, hl, hpages⟩ := hright (by decide)
  have hall := hl.all
  rw [show Disk.shareFileList _ = {⟨[97], [1], [], [102], 1⟩} by decide,
    Multiset.coe_eq_singleton] at hall
  subst hall
  have hread := hpages (fun _ => some fun _ => 0) ⟨2026, 2, 28, 23, 59, 59⟩ 0 1
    (fun _ => Option.some_ne_none _) ⟨by decide, by decide, by decide, by decide⟩
    (fitsLog_of_text rfl (by decide +kernel)) (fun _ => .ok 0) hok
  exact absurd hread.1 (by decide)

end RankingReads
