import CloudDisk.ByteStrings
import Mathlib.Algebra.Order.Ring.Nat
import Mathlib.Data.Prod.Lex
import Mathlib.Data.List.Sort
import Mathlib.Data.List.Nodup

/-! # Sorted sets as `t_zset.c` keeps them

A sorted set is ordered by score and then by bytes. A small one is a ziplist, a large
one a skiplist whose nodes have random heights; the lexicographic commands walk these
structures and only make sense when all scores are equal, which nothing enforces.
Heights are therefore part of the value. Scores are integers here. -/
namespace SortedSets

open ByteStrings

structure Entry where
  score : ℤ
  member : CString
  level : ℕ
  deriving DecidableEq, Repr

def Entry.key (e : Entry) : ℤ ×ₗ CString := toLex (e.score, e.member)

inductive Encoding where
  | ziplist
  | skiplist
  deriving DecidableEq, Repr

structure SortedSet where
  encoding : Encoding
  entries : List Entry
  sorted : (entries.map Entry.key).Pairwise (· ≤ ·)
  distinct : (entries.map Entry.member).Nodup
  linked : encoding = .skiplist → ∀ e ∈ entries, 0 < e.level

def maxLevel : ℕ := 32
def maxZiplistEntries : ℕ := 128
def maxZiplistValue : ℕ := 64

/-- Height of the `i`-th node created while one command runs, for a random seed `k`. -/
def nodeLevel (k i : ℕ) : ℕ := 1 + k / maxLevel ^ i % maxLevel

def place (e : Entry) (l : List Entry) : List Entry :=
  l.orderedInsert (fun a b => a.key ≤ b.key) e

def without (member : CString) (l : List Entry) : List Entry :=
  l.filter fun e => e.member ≠ member

/-- `zsetConvert` inserts the entries of a ziplist into a new skiplist one by one. -/
def relevel (k : ℕ) : ℕ → List Entry → List Entry
  | _, [] => []
  | i, e :: l => { e with level := nodeLevel k i } :: relevel k (i + 1) l

/-- The test of `zslUpdateScore`: the node may stay when its neighbours allow it. -/
def keepsPlace (score : ℤ) (member : CString) (l : List Entry) : Bool :=
  (l.takeWhile (fun e => e.member ≠ member)).getLast?.all (fun e => e.score < score) &&
    (l.dropWhile (fun e => e.member ≠ member)).tail.head?.all (fun e => score < e.score)

@[simp] theorem relevel_key (k i : ℕ) (l : List Entry) :
    (relevel k i l).map Entry.key = l.map Entry.key := by
  induction l generalizing i with
  | nil => rfl
  | cons e l ih => simp [relevel, Entry.key, ih]

@[simp] theorem relevel_member (k i : ℕ) (l : List Entry) :
    (relevel k i l).map Entry.member = l.map Entry.member := by
  induction l generalizing i with
  | nil => rfl
  | cons e l ih => simp [relevel, ih]

theorem nodeLevel_pos (k i : ℕ) : 0 < nodeLevel k i :=
  Nat.lt_of_lt_of_le Nat.one_pos (Nat.le_add_right _ _)

theorem relevel_linked (k i : ℕ) (l : List Entry) : ∀ e ∈ relevel k i l, 0 < e.level := by
  induction l generalizing i with
  | nil => simp [relevel]
  | cons a l ih =>
    intro e he
    rcases List.mem_cons.mp he with rfl | he
    · exact nodeLevel_pos k i
    · exact ih _ e he

theorem place_perm (e : Entry) (l : List Entry) : (place e l).Perm (e :: l) :=
  List.perm_orderedInsert _ e l

theorem place_sorted {e : Entry} {l : List Entry}
    (h : (l.map Entry.key).Pairwise (· ≤ ·)) :
    ((place e l).map Entry.key).Pairwise (· ≤ ·) := by
  rw [List.pairwise_map] at h ⊢
  have : Std.Total fun a b : Entry => a.key ≤ b.key := ⟨fun a b => le_total a.key b.key⟩
  have : IsTrans Entry fun a b : Entry => a.key ≤ b.key := ⟨fun _ _ _ => le_trans⟩
  exact h.orderedInsert e l

theorem without_sorted {member : CString} {l : List Entry}
    (h : (l.map Entry.key).Pairwise (· ≤ ·)) :
    ((without member l).map Entry.key).Pairwise (· ≤ ·) :=
  h.sublist (List.filter_sublist.map _)

theorem without_distinct {member : CString} {l : List Entry}
    (h : (l.map Entry.member).Nodup) : ((without member l).map Entry.member).Nodup :=
  h.sublist (List.filter_sublist.map _)

theorem notMem_without (member : CString) (l : List Entry) :
    member ∉ (without member l).map Entry.member := by
  simp [without]

theorem place_distinct {e : Entry} {l : List Entry} (h : (l.map Entry.member).Nodup)
    (hn : e.member ∉ l.map Entry.member) : ((place e l).map Entry.member).Nodup := by
  rw [((place_perm e l).map Entry.member).nodup_iff]
  exact List.nodup_cons.mpr ⟨hn, h⟩

namespace SortedSet

def score? (z : SortedSet) (member : CString) : Option ℤ :=
  (z.entries.find? fun e => e.member = member).map Entry.score

def card (z : SortedSet) : ℕ := z.entries.length

/-- The set under an absent key; the first member decides the encoding. -/
def fresh (member : CString) : SortedSet where
  encoding := if maxZiplistValue < member.length then .skiplist else .ziplist
  entries := []
  sorted := List.Pairwise.nil
  distinct := List.nodup_nil
  linked := by simp

def rescore (k : ℕ) (score : ℤ) (z : SortedSet) (old : Entry) (h : old ∈ z.entries) :
    SortedSet where
  encoding := z.encoding
  entries := place
    { score, member := old.member,
      level := if z.encoding = .ziplist ∨ keepsPlace score old.member z.entries
        then old.level else nodeLevel k 0 }
    (without old.member z.entries)
  sorted := place_sorted (without_sorted z.sorted)
  distinct := place_distinct (without_distinct z.distinct) (notMem_without _ _)
  linked := by
    intro henc e he
    rcases List.mem_cons.mp ((place_perm _ _).mem_iff.mp he) with rfl | he
    · dsimp only
      split
      · exact z.linked henc old h
      · exact nodeLevel_pos k 0
    · exact z.linked henc e (List.mem_of_mem_filter he)

/-- A new member; a ziplist that grows past either limit becomes a skiplist. -/
def insertNew (k : ℕ) (score : ℤ) (z : SortedSet) (member : CString)
    (h : member ∉ z.entries.map Entry.member) : SortedSet :=
  if henc : z.encoding = .skiplist then
    { encoding := .skiplist
      entries := place ⟨score, member, nodeLevel k 0⟩ z.entries
      sorted := place_sorted z.sorted
      distinct := place_distinct z.distinct h
      linked := by
        intro _ e he
        rcases List.mem_cons.mp ((place_perm _ _).mem_iff.mp he) with rfl | he
        · exact nodeLevel_pos k 0
        · exact z.linked henc e he }
  else if maxZiplistEntries < z.card + 1 ∨ maxZiplistValue < member.length then
    { encoding := .skiplist
      entries := relevel k 0 (place ⟨score, member, 0⟩ z.entries)
      sorted := by rw [relevel_key]; exact place_sorted z.sorted
      distinct := by rw [relevel_member]; exact place_distinct z.distinct h
      linked := fun _ => relevel_linked _ _ _ }
  else
    { encoding := .ziplist
      entries := place ⟨score, member, 0⟩ z.entries
      sorted := place_sorted z.sorted
      distinct := place_distinct z.distinct h
      linked := by simp }

/-- `zsetAdd` without flags: add a member or change its score. -/
def add (k : ℕ) (score : ℤ) (member : CString) (z : SortedSet) : SortedSet :=
  match h : z.entries.find? fun e => e.member = member with
  | some old => if old.score = score then z
    else z.rescore k score old (List.mem_of_find?_eq_some h)
  | none => z.insertNew k score member (by simpa using h)

/-- `zsetDel`. The encoding never goes back. -/
def remove (member : CString) (z : SortedSet) : SortedSet where
  encoding := z.encoding
  entries := without member z.entries
  sorted := without_sorted z.sorted
  distinct := without_distinct z.distinct
  linked := fun henc e he => z.linked henc e (List.mem_of_mem_filter he)

/-- `ZREVRANGE`: negative positions count from the end, the end is inclusive. -/
def revrange (start stop : ℤ) (z : SortedSet) : List CString :=
  let len : ℤ := z.card
  let start := if start < 0 then len + start else start
  let stop := if stop < 0 then len + stop else stop
  let start := if start < 0 then 0 else start
  if stop < start ∨ len ≤ start then []
  else ((z.entries.map Entry.member).reverse.drop start.toNat).take
    ((if len ≤ stop then len - 1 else stop) - start + 1).toNat

end SortedSet

section Lexicographic
variable (lo hi : CString)

/-- `zzlIsInLexRange` and `zslIsInLexRange` look at the two ends only. -/
def isInLexRange (l : List Entry) : Bool :=
  ¬ hi < lo ∧ l.getLast?.any (fun e => lo ≤ e.member) ∧ l.head?.any (fun e => e.member ≤ hi)

/-- From `zzlFirstInLexRange` on, the elements that `zlexcountCommand` visits. -/
def ziplistLexCount (l : List Entry) : ℕ :=
  if isInLexRange lo hi l then
    match l.dropWhile fun e => e.member < lo with
    | [] => 0
    | e :: rest => if e.member ≤ hi then
        ((e :: rest).takeWhile fun e => e.member ≤ hi).length else 0
  else 0

end Lexicographic

/-- One level of a skiplist walk: follow the forward pointers of height above `i` while
the node ahead satisfies `p`. The list is what lies ahead of the current node. -/
def walk (p : Entry → Bool) (i : ℕ) : ℕ → List Entry → List Entry
  | 0, ahead => ahead
  | fuel + 1, ahead =>
    match ahead.dropWhile fun e => e.level ≤ i with
    | [] => ahead
    | e :: rest => if p e then walk p i fuel rest else ahead

def descend (p : Entry → Bool) : ℕ → List Entry → List Entry
  | 0, ahead => ahead
  | i + 1, ahead => descend p i (walk p i ahead.length ahead)

section Lexicographic
variable (lo hi : CString)

/-- Rank of `zslFirstInLexRange`, counted from one. -/
def skiplistFirstRank (l : List Entry) : Option ℕ :=
  if isInLexRange lo hi l then
    let ahead := descend (fun e => e.member < lo) maxLevel l
    match ahead with
    | [] => none
    | e :: _ => if e.member ≤ hi then some (l.length - ahead.length + 1) else none
  else none

/-- Rank of `zslLastInLexRange`. -/
def skiplistLastRank (l : List Entry) : Option ℕ :=
  if isInLexRange lo hi l then
    let passed := l.length - (descend (fun e => e.member ≤ hi) maxLevel l).length
    match (l.take passed).getLast? with
    | none => none
    | some e => if lo ≤ e.member then some passed else none
  else none

/-- The counter of the source is unsigned and answered as a signed number, so a
difference that would be negative is answered as that negative number. -/
def skiplistLexCount (l : List Entry) : ℤ :=
  match skiplistFirstRank lo hi l with
  | none => 0
  | some first =>
    let count : ℤ := l.length - (first - 1)
    match skiplistLastRank lo hi l with
    | none => count
    | some last => count - (l.length - last)

/-- `zlexcount key [lo [hi` -/
def SortedSet.lexCount (z : SortedSet) : ℤ :=
  match z.encoding with
  | .ziplist => ziplistLexCount lo hi z.entries
  | .skiplist => skiplistLexCount lo hi z.entries

end Lexicographic

namespace SortedSet

/-- What the other commands can observe: scores and members in order. -/
def pairs (z : SortedSet) : List (ℤ × CString) := z.entries.map fun e => (e.score, e.member)

theorem pairs_place (e : Entry) (l : List Entry) :
    ((place e l).map fun e => (e.score, e.member)).Perm
      ((e.score, e.member) :: l.map fun e => (e.score, e.member)) :=
  (place_perm e l).map _

private theorem relevel_pairs (k i : ℕ) (l : List Entry) :
    ((relevel k i l).map fun e => (e.score, e.member)) = l.map fun e => (e.score, e.member) := by
  induction l generalizing i with
  | nil => rfl
  | cons e l ih => simp [relevel, ih]

theorem pairs_insertNew (k : ℕ) (score : ℤ) (z : SortedSet) (member : CString)
    (h : member ∉ z.entries.map Entry.member) :
    (z.insertNew k score member h).pairs.Perm ((score, member) :: z.pairs) := by
  unfold insertNew pairs
  split
  · exact pairs_place _ _
  · split
    · rw [relevel_pairs]; exact pairs_place _ _
    · exact pairs_place _ _

theorem pairs_remove (member : CString) (z : SortedSet) :
    (z.remove member).pairs = z.pairs.filter fun q => q.2 ≠ member := by
  simp only [pairs, remove, without, List.filter_map]
  rfl

theorem pairs_rescore (k : ℕ) (score : ℤ) (z : SortedSet) (old : Entry)
    (h : old ∈ z.entries) :
    (z.rescore k score old h).pairs.Perm ((score, old.member) :: (z.remove old.member).pairs) :=
  pairs_place _ _

theorem mem_pairs {z : SortedSet} {s : ℤ} {m : CString} :
    (s, m) ∈ z.pairs ↔ ∃ e ∈ z.entries, e.score = s ∧ e.member = m := by
  simp [pairs]

theorem pairs_functional {z : SortedSet} {s t : ℤ} {m : CString}
    (hs : (s, m) ∈ z.pairs) (ht : (t, m) ∈ z.pairs) : s = t := by
  obtain ⟨a, ha, rfl, rfl⟩ := mem_pairs.mp hs
  obtain ⟨b, hb, rfl, hm⟩ := mem_pairs.mp ht
  rw [List.inj_on_of_nodup_map z.distinct hb ha hm]

theorem mem_pairs_remove {member m : CString} {s : ℤ} {z : SortedSet} :
    (s, m) ∈ (z.remove member).pairs ↔ (s, m) ∈ z.pairs ∧ m ≠ member := by
  simp [pairs_remove]

theorem mem_pairs_add {k : ℕ} {score s : ℤ} {member m : CString} {z : SortedSet} :
    (s, m) ∈ (z.add k score member).pairs ↔
      (m = member ∧ s = score) ∨ (m ≠ member ∧ (s, m) ∈ z.pairs) := by
  unfold add
  split
  next old h =>
    have hold : old ∈ z.entries := List.mem_of_find?_eq_some h
    have hm : old.member = member := by simpa using List.find?_some h
    subst hm
    split
    next hs =>
      have hin : (score, old.member) ∈ z.pairs := mem_pairs.mpr ⟨old, hold, hs, rfl⟩
      by_cases hmm : m = old.member
      · subst hmm
        simp only [ne_eq, not_true_eq_false, false_and, or_false, true_and]
        exact ⟨fun h => pairs_functional h hin, fun h => h ▸ hin⟩
      · simp [hmm]
    next hs =>
      rw [(pairs_rescore k score z old hold).mem_iff, List.mem_cons, mem_pairs_remove]
      simp only [Prod.mk.injEq]
      tauto
  next h =>
    have hn : member ∉ z.entries.map Entry.member := by simpa using h
    rw [(pairs_insertNew k score z member hn).mem_iff, List.mem_cons]
    simp only [Prod.mk.injEq]
    by_cases hmm : m = member
    · subst hmm
      have : (s, m) ∉ z.pairs := by
        intro hp
        obtain ⟨e, he, -, hm⟩ := mem_pairs.mp hp
        exact hn (List.mem_map.mpr ⟨e, he, hm⟩)
      tauto
    · tauto

theorem score?_eq_some {z : SortedSet} {m : CString} {s : ℤ} :
    z.score? m = some s ↔ (s, m) ∈ z.pairs := by
  unfold score?
  rw [mem_pairs]
  constructor
  · intro h
    obtain ⟨e, he, rfl⟩ := Option.map_eq_some_iff.mp h
    exact ⟨e, List.mem_of_find?_eq_some he, rfl, by simpa using List.find?_some he⟩
  · rintro ⟨e, he, rfl, rfl⟩
    cases hf : z.entries.find? fun a => a.member = e.member with
    | none => simpa using List.find?_eq_none.mp hf e he
    | some a =>
      have ham : a.member = e.member := by simpa using List.find?_some hf
      rw [List.inj_on_of_nodup_map z.distinct (List.mem_of_find?_eq_some hf) he ham]
      rfl

theorem pairs_members_nodup (z : SortedSet) : (z.pairs.map Prod.snd).Nodup := by
  simpa [pairs, Function.comp_def] using z.distinct

theorem pairs_sorted (z : SortedSet) : (z.pairs.map toLex).Pairwise (· ≤ ·) := by
  rw [show z.pairs.map toLex = z.entries.map Entry.key by
    simp [pairs, Function.comp_def, Entry.key]]
  exact z.sorted

theorem pairs_eq_of_perm {z : SortedSet} {l : List (ℤ × CString)} (h : z.pairs.Perm l)
    (hl : (l.map toLex).Pairwise (· ≤ ·)) : z.pairs = l := by
  have := (h.map toLex).eq_of_pairwise (fun _ _ _ _ => le_antisymm) z.pairs_sorted hl
  exact List.map_injective_iff.mpr toLex.injective this

end SortedSet

/-! ## A member that is absent is counted zero times -/

private theorem walk_zero_stops {p : Entry → Bool} {l : List Entry} {fuel : ℕ}
    (hl : ∀ e ∈ l, 0 < e.level) (hf : l.length ≤ fuel) :
    ∀ e rest, walk p 0 fuel l = e :: rest → p e = false := by
  induction fuel generalizing l with
  | zero =>
    intro e rest h
    have : l = [] := List.length_eq_zero_iff.mp (Nat.le_zero.mp hf)
    simp [walk, this] at h
  | succ fuel ih =>
    intro e rest h
    cases l with
    | nil => simp [walk] at h
    | cons a l =>
      have ha : ¬ a.level ≤ 0 := Nat.not_le.mpr (hl a (by simp))
      simp only [walk, List.dropWhile_cons, ha, decide_false, Bool.false_eq_true,
        if_false] at h
      split at h
      · exact ih (fun e he => hl e (List.mem_cons_of_mem _ he))
          (by simpa using hf) e rest h
      · cases h
        simp_all

theorem walk_suffix (p : Entry → Bool) (i fuel : ℕ) (l : List Entry) :
    walk p i fuel l <:+ l := by
  induction fuel generalizing l with
  | zero => exact List.suffix_refl l
  | succ fuel ih =>
    unfold walk
    split
    · exact List.suffix_refl l
    next e rest h =>
      split
      · have hs : e :: rest <:+ l := h ▸ List.dropWhile_suffix _
        exact (ih rest).trans ((List.suffix_cons e rest).trans hs)
      · exact List.suffix_refl l

theorem descend_stops {p : Entry → Bool} {n : ℕ} {l : List Entry}
    (hl : ∀ e ∈ l, 0 < e.level) :
    ∀ e rest, descend p (n + 1) l = e :: rest → p e = false ∧ e ∈ l := by
  induction n generalizing l with
  | zero =>
    intro e rest h
    have hs := walk_suffix p 0 l.length l
    refine ⟨walk_zero_stops hl le_rfl e rest h, hs.subset ?_⟩
    rw [show walk p 0 l.length l = e :: rest from h]
    simp
  | succ n ih =>
    intro e rest h
    have hs := walk_suffix p (n + 1) l.length l
    have := ih (fun a ha => hl a (hs.subset ha)) e rest h
    exact ⟨this.1, hs.subset this.2⟩

theorem SortedSet.lexCount_absent {z : SortedSet} {m : CString}
    (h : ∀ s, (s, m) ∉ z.pairs) : z.lexCount m m = 0 := by
  have hne : ∀ e ∈ z.entries, ¬ (e.member < m) → e.member ≤ m → False := by
    intro e he hlt hle
    have : e.member = m := le_antisymm hle (not_lt.mp hlt)
    exact h e.score (SortedSet.mem_pairs.mpr ⟨e, he, rfl, this⟩)
  unfold lexCount
  cases henc : z.encoding with
  | ziplist =>
    simp only [ziplistLexCount]
    split
    · split
      · rfl
      next e rest hd =>
        have he : e ∈ z.entries :=
          (List.dropWhile_suffix _).subset (show e ∈ z.entries.dropWhile _ by rw [hd]; simp)
        have hlt : ¬ e.member < m := by
          have := List.head_dropWhile_not (fun e : Entry => decide (e.member < m))
            (l := z.entries) (by rw [hd]; simp)
          simpa [hd] using this
        rw [if_neg fun hle => hne e he hlt hle]
        rfl
    · rfl
  | skiplist =>
    have hfirst : skiplistFirstRank m m z.entries = none := by
      unfold skiplistFirstRank
      split
      · dsimp only
        split
        · rfl
        next e rest hd =>
          obtain ⟨hp, he⟩ := descend_stops (n := 31) (z.linked henc) e rest hd
          rw [if_neg fun hle => hne e he (by simpa using hp) hle]
      · rfl
    simp [skiplistLexCount, hfirst]

end SortedSets
