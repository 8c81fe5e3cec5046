import CloudDisk.DiskState

/-! # The two cache keys

`FILE_PUBLIC_ZSET` and `FILE_NAME_HASH` seen as the score and the name they give to a file
id. Encodings and heights do not show; what a command answers to `zlexcount` does depend on
them and is not part of this view. -/
namespace CacheEntries

open ByteStrings DiskState SortedSets

def zsetPairs (s : Redis) : List (ℤ × CString) :=
  match s filePublicZset with
  | some (.zset z) => z.pairs
  | _ => []

def nameOf (s : Redis) (id : CString) : Option CString :=
  match s fileNameHash with
  | some (.hash fields) => fields.lookup id
  | _ => none

/-- The keys hold values of the kinds that the handlers write. -/
structure Kinds (s : Redis) : Prop where
  zset : s filePublicZset = none ∨ ∃ z, s filePublicZset = some (.zset z)
  hash : s fileNameHash = none ∨ ∃ fields, s fileNameHash = some (.hash fields)

theorem keys_ne : filePublicZset ≠ fileNameHash := by decide

section Update
variable {s s' : Redis}

/-- At most the sorted set changes, and it stays one. -/
def ZsetOnly (s s' : Redis) : Prop :=
  ∃ v, (v = none ∨ ∃ z, v = some (RedisValue.zset z)) ∧ s' = Function.update s filePublicZset v

/-- At most the name hash changes, and it stays one. -/
def HashOnly (s s' : Redis) : Prop :=
  ∃ v, (v = none ∨ ∃ fields, v = some (RedisValue.hash fields)) ∧
    s' = Function.update s fileNameHash v

theorem ZsetOnly.kinds (hs : ZsetOnly s s') (h : Kinds s) : Kinds s' := by
  obtain ⟨v, hv, rfl⟩ := hs
  constructor
  · rw [Function.update_self]
    exact hv
  · rw [Function.update_of_ne keys_ne.symm]
    exact h.hash

theorem ZsetOnly.nameOf (hs : ZsetOnly s s') (id : CString) : nameOf s' id = nameOf s id := by
  obtain ⟨v, -, rfl⟩ := hs
  simp only [CacheEntries.nameOf, Function.update_of_ne keys_ne.symm]

theorem HashOnly.kinds (hs : HashOnly s s') (h : Kinds s) : Kinds s' := by
  obtain ⟨v, hv, rfl⟩ := hs
  constructor
  · rw [Function.update_of_ne keys_ne]
    exact h.zset
  · rw [Function.update_self]
    exact hv

theorem HashOnly.zsetPairs (hs : HashOnly s s') : zsetPairs s' = zsetPairs s := by
  obtain ⟨v, -, rfl⟩ := hs
  simp only [CacheEntries.zsetPairs, Function.update_of_ne keys_ne]

end Update

section SortedSetCommands
variable {s : Redis} {k : ℕ} {score p : ℤ} {member id : CString}

theorem mem_zadd (h : Kinds s) :
    (p, id) ∈ zsetPairs ((RedisCmd.zadd filePublicZset score member).exec k s).2 ↔
      (id = member ∧ p = score) ∨ (id ≠ member ∧ (p, id) ∈ zsetPairs s) := by
  rcases h.zset with hz | ⟨z, hz⟩
  · have hfresh : (p, id) ∉ (SortedSet.fresh member).pairs := List.not_mem_nil
    simp [RedisCmd.exec, zsetPairs, hz, SortedSet.mem_pairs_add, hfresh]
  · simp [RedisCmd.exec, zsetPairs, hz, SortedSet.mem_pairs_add]

theorem zadd_only (h : Kinds s) :
    ZsetOnly s ((RedisCmd.zadd filePublicZset score member).exec k s).2 := by
  rcases h.zset with hz | ⟨z, hz⟩
  · simp only [RedisCmd.exec, hz]
    exact ⟨_, .inr ⟨_, rfl⟩, rfl⟩
  · simp only [RedisCmd.exec, hz]
    exact ⟨_, .inr ⟨_, rfl⟩, rfl⟩

theorem mem_zincrby (h : Kinds s) (hm : (score, member) ∈ zsetPairs s) :
    (p, id) ∈ zsetPairs ((RedisCmd.zincrby filePublicZset member).exec k s).2 ↔
      (id = member ∧ p = score + 1) ∨ (id ≠ member ∧ (p, id) ∈ zsetPairs s) := by
  rcases h.zset with hz | ⟨z, hz⟩
  · simp [zsetPairs, hz] at hm
  · have hs : z.score? member = some score := by
      rw [SortedSet.score?_eq_some]
      simpa [zsetPairs, hz] using hm
    simp [RedisCmd.exec, zsetPairs, hz, hs, SortedSet.mem_pairs_add]

theorem zincrby_only (h : Kinds s) :
    ZsetOnly s ((RedisCmd.zincrby filePublicZset member).exec k s).2 := by
  rcases h.zset with hz | ⟨z, hz⟩
  · simp only [RedisCmd.exec, hz]
    exact ⟨_, .inr ⟨_, rfl⟩, rfl⟩
  · simp only [RedisCmd.exec, hz]
    exact ⟨_, .inr ⟨_, rfl⟩, rfl⟩

private theorem pairs_keepZset (z : SortedSet) (t : Redis) :
    zsetPairs (Function.update t filePublicZset (keepZset z)) = z.pairs := by
  simp only [zsetPairs, Function.update_self, keepZset]
  by_cases h0 : z.card = 0
  · have hnil : z.entries = [] := List.length_eq_zero_iff.mp h0
    simp [h0, SortedSet.pairs, hnil]
  · simp [h0]

theorem mem_zrem (h : Kinds s) :
    (p, id) ∈ zsetPairs ((RedisCmd.zrem filePublicZset member).exec k s).2 ↔
      id ≠ member ∧ (p, id) ∈ zsetPairs s := by
  rcases h.zset with hz | ⟨z, hz⟩
  · simp [RedisCmd.exec, zsetPairs, hz]
  · simp only [RedisCmd.exec, hz, pairs_keepZset, SortedSet.mem_pairs_remove]
    simp [zsetPairs, hz, and_comm]

theorem zrem_only (h : Kinds s) :
    ZsetOnly s ((RedisCmd.zrem filePublicZset member).exec k s).2 := by
  rcases h.zset with hz | ⟨z, hz⟩
  · refine ⟨none, .inl rfl, ?_⟩
    simp only [RedisCmd.exec, hz]
    rw [← hz, Function.update_eq_self]
  · refine ⟨keepZset (z.remove member), ?_, by simp only [RedisCmd.exec, hz]⟩
    unfold keepZset
    split
    · exact .inl rfl
    · exact .inr ⟨_, rfl⟩

end SortedSetCommands

section HashCommands
variable {s : Redis} {k : ℕ} {field value id : CString}

private theorem lookup_filter_ne (fields : List (CString × CString)) :
    (fields.filter fun q => q.1 ≠ field).lookup id =
      if id = field then none else fields.lookup id := by
  induction fields with
  | nil => simp
  | cons q fields ih =>
    obtain ⟨a, b⟩ := q
    by_cases ha : a = field
    · subst ha
      simp only [ne_eq, not_true_eq_false, decide_false, Bool.false_eq_true, not_false_eq_true,
        List.filter_cons_of_neg]
      rw [ih]
      by_cases hid : id = a
      · simp [hid]
      · simp [hid, List.lookup_cons, beq_eq_false_iff_ne.mpr hid]
    · rw [List.filter_cons_of_pos (by simpa using ha), List.lookup_cons, List.lookup_cons, ih]
      by_cases hid : id = a
      · subst hid
        simp [ha]
      · simp [beq_eq_false_iff_ne.mpr hid]

theorem nameOf_hset (h : Kinds s) :
    nameOf ((RedisCmd.hset fileNameHash field value).exec k s).2 id =
      if id = field then some value else nameOf s id := by
  rcases h.hash with hh | ⟨fields, hh⟩
  · by_cases hid : id = field
    · simp [RedisCmd.exec, nameOf, hh, hid]
    · simp [RedisCmd.exec, nameOf, hh, hid, List.lookup_cons, beq_eq_false_iff_ne.mpr hid]
  · simp only [RedisCmd.exec, nameOf, hh, Function.update_self, hashSet, List.lookup_cons,
      lookup_filter_ne]
    by_cases hid : id = field
    · simp [hid]
    · simp [hid, beq_eq_false_iff_ne.mpr hid]

theorem hset_only (h : Kinds s) :
    HashOnly s ((RedisCmd.hset fileNameHash field value).exec k s).2 := by
  rcases h.hash with hh | ⟨fields, hh⟩
  · simp only [RedisCmd.exec, hh]
    exact ⟨_, .inr ⟨_, rfl⟩, rfl⟩
  · simp only [RedisCmd.exec, hh]
    exact ⟨_, .inr ⟨_, rfl⟩, rfl⟩

private theorem nameOf_keepHash (fields : List (CString × CString)) (t : Redis) :
    nameOf (Function.update t fileNameHash (keepHash fields)) id = fields.lookup id := by
  simp only [nameOf, Function.update_self, keepHash]
  by_cases hl : fields = []
  · simp [hl]
  · simp [hl]

theorem nameOf_hdel (h : Kinds s) :
    nameOf ((RedisCmd.hdel fileNameHash field).exec k s).2 id =
      if id = field then none else nameOf s id := by
  rcases h.hash with hh | ⟨fields, hh⟩
  · simp [RedisCmd.exec, nameOf, hh]
  · simp only [RedisCmd.exec, hh]
    rw [nameOf_keepHash, lookup_filter_ne]
    simp [nameOf, hh]

theorem hdel_only (h : Kinds s) :
    HashOnly s ((RedisCmd.hdel fileNameHash field).exec k s).2 := by
  rcases h.hash with hh | ⟨fields, hh⟩
  · refine ⟨none, .inl rfl, ?_⟩
    simp only [RedisCmd.exec, hh]
    rw [← hh, Function.update_eq_self]
  · refine ⟨keepHash (fields.filter fun q => q.1 ≠ field), ?_, by simp only [RedisCmd.exec, hh]⟩
    unfold keepHash
    split
    · exact .inl rfl
    · exact .inr ⟨_, rfl⟩

end HashCommands

/-! ## One file id, whatever the keys hold -/

def scoreOf (s : Redis) (id : CString) : Option ℤ :=
  match s filePublicZset with
  | some (.zset z) => z.score? id
  | _ => none

theorem scoreOf_eq_some {s : Redis} {id : CString} {p : ℤ} :
    scoreOf s id = some p ↔ (p, id) ∈ zsetPairs s := by
  unfold scoreOf zsetPairs
  split
  · exact SortedSet.score?_eq_some
  · simp

section SingleId
variable {s : Redis} {k : ℕ} {score : ℤ} {field value id : CString}

theorem scoreOf_zadd (hz : s filePublicZset = none ∨ ∃ z, s filePublicZset = some (.zset z)) :
    scoreOf ((RedisCmd.zadd filePublicZset score id).exec k s).2 id = some score := by
  rcases hz with hz | ⟨z, hz⟩
  · simp [scoreOf, RedisCmd.exec, hz, SortedSet.score?_eq_some, SortedSet.mem_pairs_add]
  · simp [scoreOf, RedisCmd.exec, hz, SortedSet.score?_eq_some, SortedSet.mem_pairs_add]

theorem scoreOf_congr {s' : Redis} (h : s' filePublicZset = s filePublicZset) :
    scoreOf s' id = scoreOf s id := by
  simp only [scoreOf, h]

theorem nameOf_congr {s' : Redis} (h : s' fileNameHash = s fileNameHash) :
    nameOf s' id = nameOf s id := by
  simp only [nameOf, h]

theorem hset_zset_key :
    ((RedisCmd.hset fileNameHash field value).exec k s).2 filePublicZset = s filePublicZset := by
  simp only [RedisCmd.exec]
  split <;> simp [Function.update_of_ne keys_ne]

theorem hdel_zset_key :
    ((RedisCmd.hdel fileNameHash field).exec k s).2 filePublicZset = s filePublicZset := by
  simp only [RedisCmd.exec]
  split <;> simp [Function.update_of_ne keys_ne]

theorem zrem_hash_key :
    ((RedisCmd.zrem filePublicZset field).exec k s).2 fileNameHash = s fileNameHash := by
  simp only [RedisCmd.exec]
  split <;> simp [Function.update_of_ne keys_ne.symm]

theorem zrem_answers_one :
    ((RedisCmd.zrem filePublicZset id).exec k s).1 = .integer 1 ↔ (scoreOf s id).isSome := by
  simp only [RedisCmd.exec, scoreOf]
  cases hs : s filePublicZset with
  | none => simp
  | some v => cases v <;> simp [Option.isSome_iff_ne_none]

theorem hdel_answers_one :
    ((RedisCmd.hdel fileNameHash id).exec k s).1 = .integer 1 ↔ (nameOf s id).isSome := by
  simp only [RedisCmd.exec, nameOf]
  cases hs : s fileNameHash with
  | none => simp
  | some v => cases v <;> simp

theorem scoreOf_zrem : scoreOf ((RedisCmd.zrem filePublicZset id).exec k s).2 id = none := by
  by_contra hsome
  obtain ⟨p, hp⟩ := Option.ne_none_iff_exists'.mp hsome
  rw [scoreOf_eq_some] at hp
  cases hs : s filePublicZset with
  | none => simp [RedisCmd.exec, hs, zsetPairs] at hp
  | some v =>
    cases v with
    | zset z =>
      simp only [RedisCmd.exec, hs, pairs_keepZset, SortedSet.mem_pairs_remove] at hp
      exact hp.2 rfl
    | string v => simp [RedisCmd.exec, hs, zsetPairs] at hp
    | hash fields => simp [RedisCmd.exec, hs, zsetPairs] at hp

theorem nameOf_hdel_self : nameOf ((RedisCmd.hdel fileNameHash id).exec k s).2 id = none := by
  cases hs : s fileNameHash with
  | none => simp [RedisCmd.exec, hs, nameOf]
  | some v =>
    cases v with
    | hash fields =>
      simp only [RedisCmd.exec, hs]
      rw [nameOf_keepHash, lookup_filter_ne, if_pos rfl]
    | string v => simp [RedisCmd.exec, hs, nameOf]
    | zset z => simp [RedisCmd.exec, hs, nameOf]

end SingleId

end CacheEntries
