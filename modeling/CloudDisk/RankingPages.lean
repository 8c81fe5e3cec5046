import CloudDisk.CheckedCode
import CloudDisk.RankingReads
import CloudDisk.RequestLoops

/-! # The bounds of a page

The numbers of `get_ranking_filelist` and `rop_zset_zrevrange`: the size of the array, the last
position of the page, and how many entries are copied into the array. The client chooses `start`
and `count`, and cJSON delivers any two of type `int`. An addition that leaves the range is a
fault here; where there is none, the handler of the ranking computes the same. -/
namespace RankingPages

open ByteStrings CheckedCode DiskHandlers RankingReads

def sizeT (n : ℤ) : ℕ := (n % 2 ^ 64).toNat

/-- `calloc(count, VALUES_ID_SIZE)`, with what memory there is. -/
def allocates (memory : Bool) (count : ℤ) : Bool :=
  memory && decide (sizeT count * valuesIdSize < 2 ^ 64)

/-- `(reply->elements > count) ? count : reply->elements`: both sides are compared and chosen as
`size_t`, and the result is an `int` again. -/
def maxCount (elements : ℕ) (count : ℤ) : ℤ :=
  toInt32 (if sizeT count < elements then sizeT count else elements)

/-- How many entries are written, and `*get_num`; the reply is an array or it is not. -/
def ropZsetZrevrangeCounts (reply : Option ℕ) (fromPos endPos : ℤ) : Checked (ℕ × ℤ) := do
  let count ← asInt ((← asInt (endPos - fromPos)) + 1)
  match reply with
  | none => return (0, 0)
  | some elements => return ((maxCount elements count).toNat, maxCount elements count)

/-- The same of the whole function, or nothing without the array. -/
def getRankingFilelistCounts (memory : Bool) (reply : Option ℕ) (start count : ℤ) :
    Checked (Option (ℕ × ℤ)) :=
  if allocates memory count then do
    let endPos ← asInt ((← asInt (start + count)) - 1)
    let counts ← ropZsetZrevrangeCounts reply start endPos
    return some counts
  else pure none

section Counts
variable {memory : Bool} {reply : Option ℕ} {elements : ℕ} {start count : ℤ}

theorem sizeT_nonneg (h0 : 0 ≤ count) (h : IsInt count) : (sizeT count : ℤ) = count := by
  obtain ⟨-, hlt⟩ := h
  rw [sizeT, Int.emod_eq_of_lt h0 (by omega), Int.toNat_of_nonneg h0]

theorem sizeT_neg (hneg : count < 0) (h : IsInt count) : (sizeT count : ℤ) = 2 ^ 64 + count := by
  obtain ⟨hle, -⟩ := h
  have hmod : count % 2 ^ 64 = 2 ^ 64 + count := by
    rw [← Int.add_emod_left (2 ^ 64) count]
    exact Int.emod_eq_of_lt (by omega) (by omega)
  rw [sizeT, hmod, Int.toNat_of_nonneg (by omega)]

theorem allocates_iff (h : IsInt count) :
    allocates memory count = true ↔ memory = true ∧ 0 ≤ count := by
  have hlt := h.2
  rw [allocates, Bool.and_eq_true, decide_eq_true_iff]
  apply and_congr_right
  intro _
  constructor
  · intro hsize
    by_contra hneg
    have hbig := sizeT_neg (not_le.mp hneg) h
    have hle := h.1
    rw [valuesIdSize] at hsize
    omega
  · intro h0
    have hsmall := sizeT_nonneg h0 h
    rw [valuesIdSize]
    omega

theorem maxCount_eq (h0 : 0 ≤ count) (h : IsInt count) :
    maxCount elements count = min (elements : ℤ) count := by
  have hsize := sizeT_nonneg h0 h
  have hlt := h.2
  have hmin : (if sizeT count < elements then (sizeT count : ℤ) else elements) =
      min (elements : ℤ) count := by
    split <;> omega
  rw [maxCount, hmin]
  exact toInt32_eq (by omega) (by omega)

theorem returns_counts (h0 : 0 ≤ count) (h : IsInt count) {Q : ℕ × ℤ → Prop} :
    Returns (ropZsetZrevrangeCounts reply start (start + count - 1)) Q ↔
      Q ((min ((reply.getD 0 : ℕ) : ℤ) count).toNat, min ((reply.getD 0 : ℕ) : ℤ) count) := by
  have hlt := h.2
  have hsub : start + count - 1 - start = count - 1 := by omega
  have hadd : count - 1 + 1 = count := by omega
  have hone : IsInt (count - 1) := ⟨by omega, by omega⟩
  rw [ropZsetZrevrangeCounts, returns_bind, returns_asInt, hsub, returns_bind, returns_asInt, hadd]
  simp only [hone, h, true_and]
  cases reply with
  | none =>
    have hnone : min (((none : Option ℕ).getD 0 : ℕ) : ℤ) count = 0 := min_eq_left h0
    rw [hnone]
    exact returns_pure
  | some elements =>
    simp only [maxCount_eq h0 h]
    exact returns_pure

theorem rankingCounts_none (h : IsInt count) (hnone : ¬ (memory = true ∧ 0 ≤ count)) :
    getRankingFilelistCounts memory reply start count = .ok none := by
  rw [getRankingFilelistCounts, if_neg ((allocates_iff h).not.mpr hnone)]
  rfl

theorem returns_rankingCounts (h : IsInt count) (h0 : 0 ≤ count) {Q : Option (ℕ × ℤ) → Prop} :
    Returns (getRankingFilelistCounts true reply start count) Q ↔
      (-2 ^ 31 < start + count ∧ start + count < 2 ^ 31) ∧
        Q (some ((min ((reply.getD 0 : ℕ) : ℤ) count).toNat,
          min ((reply.getD 0 : ℕ) : ℤ) count)) := by
  have hrange : IsInt (start + count) ∧ IsInt (start + count - 1) ↔
      -2 ^ 31 < start + count ∧ start + count < 2 ^ 31 := by
    rw [IsInt, IsInt]
    omega
  rw [getRankingFilelistCounts, if_pos ((allocates_iff h).mpr ⟨rfl, h0⟩), returns_bind,
    returns_asInt, returns_bind, returns_asInt, returns_bind, returns_counts h0 h, returns_pure,
    ← and_assoc, hrange]

end Counts

/-- The two sums stay in the range of `int` and no more is written or reported than fits the
array, exactly when the position behind the page is in the range and is not its lower end.
Without an array neither sum is computed. -/
theorem rankingPage_iff (memory : Bool) (reply : Option ℕ) (start count : ℤ)
    (hcount : IsInt count) :
    Returns (getRankingFilelistCounts memory reply start count)
      (fun r => ∀ written getNum, r = some (written, getNum) →
        (written : ℤ) ≤ count ∧ 0 ≤ getNum ∧ getNum ≤ count) ↔
    (memory = true → 0 ≤ count → -2 ^ 31 < start + count ∧ start + count < 2 ^ 31) := by
  by_cases halloc : memory = true ∧ 0 ≤ count
  · obtain ⟨rfl, h0⟩ := halloc
    rw [returns_rankingCounts hcount h0]
    constructor
    · rintro ⟨hrange, -⟩ _ _
      exact hrange
    · intro h
      refine ⟨h rfl h0, ?_⟩
      intro written getNum hsome
      cases hsome
      omega
  · rw [rankingCounts_none hcount halloc, returns_ok]
    constructor
    · intro _ hmemory h0
      exact (halloc ⟨hmemory, h0⟩).elim
    · intro _ written getNum hsome
      cases hsome

/-- The first ten entries of a set with three members. -/
theorem rankingPage_ten :
    Returns (getRankingFilelistCounts true (some 3) 0 10)
      (fun r => ∀ written getNum, r = some (written, getNum) →
        (written : ℤ) ≤ 10 ∧ 0 ≤ getNum ∧ getNum ≤ 10) :=
  (rankingPage_iff true (some 3) 0 10 (by decide)).mpr fun _ _ => ⟨by decide, by decide⟩

/-- A body from which `start` and `count` are the largest `int` and 2. -/
theorem rankingPage_overflow :
    ((RequestLoops.getInfo RequestLoops.sharefilesFields
        (cstr "\x7b\"start\":2147483647,\"count\":2\x7d")).written.map
      fun write => ((write ⟨[], 0, 0⟩).start, (write ⟨[], 0, 0⟩).count)) = some (2147483647, 2) ∧
    getRankingFilelistCounts true (some 3) 2147483647 2 = .error .overflow := by
  decide +kernel

/-- Where nothing overflows, the handler asks for the same positions and keeps as many entries of
the reply as are counted here. -/
theorem ropZsetZrevrange_counts {start count : ℤ} (hcount : IsInt count) (h0 : 0 ≤ count)
    (hrange : -2 ^ 31 < start + count ∧ start + count < 2 ^ 31) (key : CString)
    (l : List CString) :
    ∃ next kept, ropZsetZrevrange key start (toInt32 (start + count - 1)) =
        .call (.redis (.zrevrange key start (start + count - 1))) next ∧
      next (.array l) = .ret (some kept) ∧
      getRankingFilelistCounts true (some l.length) start count =
        .ok (some (kept.length, (kept.length : ℤ))) := by
  have hpos : toInt32 (start + count - 1) = start + count - 1 :=
    Int.bmod_eq_of_le (by omega) (by omega)
  have hlen : toInt32 (start + count - 1 - start + 1) = count := by
    rw [show start + count - 1 - start + 1 = count by omega]
    exact toInt32_eq h0 hcount.2
  rw [hpos]
  refine ⟨_, _, rfl, rfl, ?_⟩
  rw [eq_ok_iff, returns_rankingCounts hcount h0, hlen, if_neg (by omega), List.length_map,
    List.length_take, Option.getD_some]
  refine ⟨hrange, ?_⟩
  congr 2 <;> omega

end RankingPages
