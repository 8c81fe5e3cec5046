import CloudDisk.HandlerRules
import CloudDisk.SqlFormats
import Mathlib.Logic.Relation
import Mathlib.Tactic.IntervalCases

/-! # Login tokens in the key space of the cache

`set_token` stores the token under the bare user name, next to the two keys of the share cache.
The other handlers write to those two keys only, and never a string. So tokens and cache stay
apart exactly as long as no user is called like one of the keys. -/
namespace SessionTokens

open ByteStrings CommandPrograms DiskState DiskHandlers HandlerRules SqlFormats

/-! ## Issuing a token -/

def hexDigit (n : ℕ) : UInt8 := UInt8.ofNat (if n < 10 then 48 + n else 87 + n)

/-- `%02x` for each byte. -/
def hexText (bytes : List UInt8) : CString :=
  bytes.flatMap fun b => [hexDigit (b.toNat / 16), hexDigit (b.toNat % 16)]

def ropSetexString (key value : CString) : Handler ℤ := do
  match ← perform (.redis (.setex key value)) with
  | .done => return 0
  | _ => return -1

/-- The md5 sum of the encrypted and encoded text, or nothing when `DesEnc` fails. -/
abbrev Digest := CString → Option (Vector UInt8 16)

/-- The result and what `token` holds in the end; `rand` gives the four random numbers. -/
def setToken (digest : Digest) (user : CString) (rand : Fin 4 → ℕ) : Handler (ℤ × CString) := do
  if !(← ropConnectdbNopwd) then return (-1, [])
  let tmp := sprintf (units (cstr "%s%d%d%d%d"))
    (.str user :: (List.ofFn rand).map fun n : ℕ => .int ((n % 1000 : ℕ) : ℤ))
  match digest tmp with
  | none => return (-1, [])
  | some decrypt =>
    let token := hexText decrypt.toList
    let ret ← ropSetexString user token
    return (ret, token)

theorem all_setToken {P : Cmd → Prop} {digest : Digest} {user : CString} {rand : Fin 4 → ℕ}
    (hredis : P .redisConnect) (hset : ∀ token, P (.redis (.setex user token))) :
    (setToken digest user rand).All P := by
  refine all_bind (all_ropConnect hredis) fun _ => all_ite trivial ?_
  dsimp only
  split
  · trivial
  · exact all_bind ⟨hset _, fun r => by cases r <;> trivial⟩ fun _ => trivial

theorem hexDigit_ne_zero {n : ℕ} (h : n < 16) : hexDigit n ≠ 0 := by
  interval_cases n <;> decide

theorem untilNul_hexText (bytes : List UInt8) : untilNul (hexText bytes) = hexText bytes := by
  apply untilNul_of_notMem
  intro h
  obtain ⟨b, -, hb⟩ := List.mem_flatMap.mp h
  have hlt := b.toNat_lt
  have hhigh : hexDigit (b.toNat / 16) ≠ 0 := hexDigit_ne_zero (by omega)
  have hlow : hexDigit (b.toNat % 16) ≠ 0 := hexDigit_ne_zero (by omega)
  rcases List.mem_cons.mp hb with heq | hb
  · exact hhigh heq.symm
  · exact hlow (List.mem_singleton.mp hb).symm

/-! ## Strings in Redis -/

section Frame
variable {s : Redis} {u v key : CString} {x : Option RedisValue} {d : Disk}

theorem update_string_iff (hs : ∀ w, s key ≠ some (.string w)) (hx : ∀ w, x ≠ some (.string w)) :
    Function.update s key x u = some (.string v) ↔ s u = some (.string v) := by
  by_cases hu : u = key
  · subst hu
    rw [Function.update_self]
    exact iff_of_false (hx v) (hs v)
  · rw [Function.update_of_ne hu]

theorem keepZset_ne_string (z : SortedSets.SortedSet) (w : CString) :
    keepZset z ≠ some (.string w) := by
  unfold keepZset
  split <;> simp

theorem keepHash_ne_string (fields : List (CString × CString)) (w : CString) :
    keepHash fields ≠ some (.string w) := by
  unfold keepHash
  split <;> simp

theorem cacheCmd_strings {c : RedisCmd} {k : ℕ} (hc : CacheCmd c)
    (hkey : ∀ {key}, CacheKey key → ∀ w, s key ≠ some (.string w)) :
    (c.exec k s).2 u = some (.string v) ↔ s u = some (.string v) := by
  cases c with
  | get key => exact hc.elim
  | setex key value => exact hc.elim
  | del key => exact update_string_iff (hkey hc) (by simp)
  | zadd key score member =>
    simp only [RedisCmd.exec]
    split
    · exact update_string_iff (hkey hc) (by simp)
    · exact update_string_iff (hkey hc) (by simp)
    · rfl
  | zincrby key member =>
    simp only [RedisCmd.exec]
    split
    · exact update_string_iff (hkey hc) (by simp)
    · exact update_string_iff (hkey hc) (by simp)
    · rfl
  | zrem key member =>
    simp only [RedisCmd.exec]
    split
    · rfl
    · exact update_string_iff (hkey hc) (keepZset_ne_string _)
    · rfl
  | hset key field value =>
    simp only [RedisCmd.exec]
    split
    · exact update_string_iff (hkey hc) (by simp)
    · exact update_string_iff (hkey hc) (by simp)
    · rfl
  | hdel key field =>
    simp only [RedisCmd.exec]
    split
    · rfl
    · exact update_string_iff (hkey hc) (keepHash_ne_string _)
    · rfl
  | zlexcount key lo hi => simp only [RedisCmd.exec]; split <;> rfl
  | zcard key => simp only [RedisCmd.exec]; split <;> rfl
  | zrevrange key start stop => simp only [RedisCmd.exec]; split <;> rfl
  | zscore key member => simp only [RedisCmd.exec]; split <;> rfl
  | hget key field => simp only [RedisCmd.exec]; split <;> rfl

end Frame

/-! ## Histories -/

/-- The state, and for each user the token of the last login that succeeded. -/
structure World where
  disk : Disk
  last : CString → Option CString

/-- The strings in Redis are the tokens, and no user has a name of the cache. -/
structure Tokens (w : World) : Prop where
  stored : ∀ u v, w.disk.redis u = some (.string v) ↔ w.last u = some v
  readable : ∀ u v, w.last u = some v → untilNul v = v
  apart : ∀ key, CacheKey key → w.last key = none

inductive TokenCall where
  | setToken (user : CString) (rand : Fin 4 → ℕ)
  | verifyToken (user token : CString)
  | shareFile (now user md5 filename : CString)
  | cancelShareFile (user md5 filename : CString)
  | delFile (user md5 filename : CString)
  | getRankingFilelist (start count : ℤ)

def after {α : Type} (p : Handler α) (e : ℕ → Outcome) (w : World) : World :=
  { w with disk := (p.run Cmd.exec e w.disk).2 }

def TokenCall.run (digest : Digest) (e : ℕ → Outcome) (w : World) : TokenCall → World
  | .setToken user rand =>
    let r := (SessionTokens.setToken digest user rand).run Cmd.exec e w.disk
    ⟨r.2, if r.1.1 = 0 then Function.update w.last user (some r.1.2) else w.last⟩
  | .verifyToken user token => after (DiskHandlers.verifyToken user token) e w
  | .shareFile now user md5 filename => after (DiskHandlers.shareFile now user md5 filename) e w
  | .cancelShareFile user md5 filename => after (DiskHandlers.cancelShareFile user md5 filename) e w
  | .delFile user md5 filename => after (DiskHandlers.delFile user md5 filename) e w
  | .getRankingFilelist start count => after (DiskHandlers.getRankingFilelist start count) e w

/-- Nobody logs in under the name of a key of the cache. -/
def TokenCall.Apart : TokenCall → Prop
  | .setToken user _ => ¬ CacheKey user
  | _ => True

def Step (digest : Digest) (w w' : World) : Prop :=
  ∃ c e, TokenCall.Apart c ∧ w' = c.run digest e w

section Steps
variable {digest : Digest} {w : World} {e : ℕ → Outcome}

theorem Tokens.no_string (h : Tokens w) {key : CString} (hk : CacheKey key) (v : CString) :
    w.disk.redis key ≠ some (.string v) := by
  rw [Ne, h.stored, h.apart key hk]
  simp

def Tokenless : Cmd → Prop
  | .redis c => CacheCmd c ∨ ∃ key, c = .get key
  | _ => True

theorem tokenless_keeps {last : CString → Option CString} (c : Cmd) (hc : Tokenless c) (o : Outcome)
    (d : Disk) (h : Tokens ⟨d, last⟩) : Tokens ⟨(Cmd.exec o c d).2, last⟩ := by
  have hredis : ∀ d' : Disk, (∀ u v, d'.redis u = some (.string v) ↔ d.redis u = some (.string v)) →
      Tokens ⟨d', last⟩ :=
    fun d' hd => ⟨fun u v => (hd u v).trans (h.stored u v), h.readable, h.apart⟩
  cases o with
  | fail => exact h
  | ok k =>
    cases c with
    | mysqlConnect => exact h
    | redisConnect => exact h
    | fdfsDelete fileid =>
      simp only [Cmd.exec]
      split
      · exact hredis _ fun _ _ => .rfl
      · exact h
    | query q =>
      simp only [Cmd.exec]
      cases q.result k d with
      | none => exact h
      | some rs =>
        apply hredis _
        intro u v
        cases q <;> rfl
    | redis c =>
      apply hredis _
      intro u v
      rcases hc with hc | ⟨key, rfl⟩
      · exact cacheCmd_strings hc fun hk => h.no_string hk
      · simp only [Cmd.exec, RedisCmd.exec]
        split <;> rfl

theorem tokenless_plumbing : Plumbing Tokenless :=
  ⟨trivial, trivial, trivial, fun _ => trivial, fun _ h => .inl h⟩

theorem after_tokenless {α : Type} {p : Handler α} (hp : p.All Tokenless) (h : Tokens w) :
    Tokens (after p e w) := by
  have hspec : Spec Cmd.exec AnyOutcome p w.disk fun _ d' => Tokens ⟨d', w.last⟩ :=
    spec_all tokenless_keeps hp h
  exact hspec e fun _ => trivial

theorem tokenless_verifyToken {user token : CString} : (verifyToken user token).All Tokenless := by
  refine all_bind (all_ropConnect trivial) fun _ => all_ite trivial ?_
  refine all_bind ⟨.inr ⟨_, rfl⟩, fun r => by cases r <;> trivial⟩ fun o => ?_
  cases o <;> trivial

/-- A login that succeeds writes its token under the name of the user, and nothing else. -/
theorem setToken_effect (digest : Digest) (user : CString) (rand : Fin 4 → ℕ) (d : Disk) :
    Spec Cmd.exec AnyOutcome (setToken digest user rand) d fun r d' =>
      (r.1 = 0 ∧ untilNul r.2 = r.2 ∧
        d' = { d with redis := Function.update d.redis user (some (.string r.2)) }) ∨
      (r.1 ≠ 0 ∧ d' = d) := by
  unfold setToken
  refine spec_ropConnect ?_ fun _ => spec_ret (.inr ⟨by decide, rfl⟩)
  rw [if_neg (by simp)]
  dsimp only
  split
  · exact spec_ret (.inr ⟨by decide, rfl⟩)
  · apply spec_call
    intro o _
    cases o with
    | fail => exact spec_ret (.inr ⟨by simp, rfl⟩)
    | ok k => exact spec_ret (.inl ⟨rfl, untilNul_hexText _, rfl⟩)

theorem setToken_keeps {user : CString} {rand : Fin 4 → ℕ} (hu : ¬ CacheKey user) (h : Tokens w) :
    Tokens ((TokenCall.setToken user rand).run digest e w) := by
  have heffect := setToken_effect digest user rand w.disk e fun _ => trivial
  rcases hr : (setToken digest user rand).run Cmd.exec e w.disk with ⟨⟨ret, token⟩, d'⟩
  simp only [TokenCall.run, hr] at heffect ⊢
  rcases heffect with ⟨rfl, htoken, rfl⟩ | ⟨hret, rfl⟩
  · simp only [if_true]
    refine ⟨fun u v => ?_, fun u v hv => ?_, fun key hk => ?_⟩
    · by_cases hne : u = user
      · subst hne
        simp
      · simp only [Function.update_of_ne hne]
        exact h.stored u v
    · by_cases hne : u = user
      · subst hne
        simp only [Function.update_self, Option.some.injEq] at hv
        exact hv ▸ htoken
      · simp only [Function.update_of_ne hne] at hv
        exact h.readable u v hv
    · have hne : key ≠ user := fun heq => hu (heq ▸ hk)
      simp only [Function.update_of_ne hne]
      exact h.apart key hk
  · simp only [hret, if_false]
    exact h

theorem step_tokens {w w' : World} (h : Tokens w) (hs : Step digest w w') : Tokens w' := by
  obtain ⟨c, e, hc, rfl⟩ := hs
  have hp := tokenless_plumbing
  cases c with
  | setToken user rand => exact setToken_keeps hc h
  | verifyToken user token => exact after_tokenless tokenless_verifyToken h
  | shareFile now user md5 filename =>
    exact after_tokenless (all_shareFile hp trivial trivial trivial) h
  | cancelShareFile user md5 filename =>
    exact after_tokenless (all_cancelShareFile hp trivial trivial) h
  | delFile user md5 filename =>
    refine after_tokenless (all_delFile hp trivial trivial trivial ?_) h
    exact all_delFileReference trivial (fun _ => trivial) trivial trivial fun _ => trivial
  | getRankingFilelist start count => exact after_tokenless (all_getRankingFilelist hp trivial) h

theorem run_tokens {w₀ w : World} (h₀ : Tokens w₀) (h : Relation.ReflTransGen (Step digest) w₀ w) :
    Tokens w := by
  induction h with
  | refl => exact h₀
  | tail _ hs ih => exact step_tokens ih hs

theorem verify_iff (h : Tokens w) (user token : CString) :
    Spec Cmd.exec NoFail (verifyToken user token) w.disk fun n _ =>
      n = 0 ↔ w.last user = some token := by
  unfold verifyToken
  refine spec_ropConnect ?_ fun hf => hf.elim
  rw [if_neg (by simp)]
  apply spec_call
  intro o ho
  cases o with
  | fail => exact ho.elim
  | ok k =>
    simp only [Cmd.exec, RedisCmd.exec]
    have hnone : (∀ v, w.disk.redis user ≠ some (.string v)) → w.last user ≠ some token :=
      fun hno hl => hno token ((h.stored user token).mpr hl)
    cases hv : w.disk.redis user with
    | none => exact spec_ret (iff_of_false (by decide) (hnone (by simp [hv])))
    | some x =>
      cases x with
      | zset z => exact spec_ret (iff_of_false (by decide) (hnone (by simp [hv])))
      | hash fields => exact spec_ret (iff_of_false (by decide) (hnone (by simp [hv])))
      | string v =>
        have hl := (h.stored user v).mp hv
        apply spec_ret
        rw [hl, h.readable user v hl]
        by_cases heq : token = v <;> simp [heq, eq_comm]

theorem setToken_apart {user : CString} (rand : Fin 4 → ℕ) (hu : ¬ CacheKey user) (d : Disk) :
    Spec Cmd.exec AnyOutcome (setToken digest user rand) d fun _ d' =>
      ∀ key, CacheKey key → d'.redis key = d.redis key := by
  refine (setToken_effect digest user rand d).mono fun r d' hr key hk => ?_
  rcases hr with ⟨-, -, rfl⟩ | ⟨-, rfl⟩
  · have hne : key ≠ user := fun heq => hu (heq ▸ hk)
    exact Function.update_of_ne hne _ _
  · rfl

end Steps

theorem tokens_apart (digest : Digest) {w₀ w : World} (h₀ : Tokens w₀)
    (h : Relation.ReflTransGen (Step digest) w₀ w) :
    (∀ user token, Spec Cmd.exec NoFail (verifyToken user token) w.disk fun n _ =>
      n = 0 ↔ w.last user = some token) ∧
    ∀ user rand, ¬ CacheKey user → Spec Cmd.exec AnyOutcome (setToken digest user rand) w.disk
      fun _ d' => d'.redis filePublicZset = w.disk.redis filePublicZset ∧
        d'.redis fileNameHash = w.disk.redis fileNameHash := by
  refine ⟨verify_iff (run_tokens h₀ h), fun user rand hu => ?_⟩
  refine (setToken_apart rand hu w.disk).mono fun _ d' hd => ?_
  exact ⟨hd _ (.inl rfl), hd _ (.inr rfl)⟩

/-- Somebody has shared something; the cache is still empty. -/
def freshWorld : World :=
  ⟨{ fileInfo := 0, userFileList := 0, shareFileList := 0,
     userFileCount := {⟨shareCountKey, 1⟩}, storage := ∅, redis _ := none }, fun _ => none⟩

theorem freshWorld_tokens : Tokens freshWorld :=
  ⟨fun _ _ => by simp [freshWorld], fun _ _ h => by simp [freshWorld] at h, fun _ _ => rfl⟩

def zeroDigest : Digest := fun _ => some (Vector.replicate 16 0)

def login (user : CString) (w : World) : World :=
  (TokenCall.setToken user fun _ => 0).run zeroDigest (fun _ => .ok 0) w

def zeroToken : CString := List.replicate 32 48

/-- User `a` logs in and the ranking is rebuilt. -/
theorem tokens_apart_ranking : ∃ w, Relation.ReflTransGen (Step zeroDigest) freshWorld w ∧
    w.last [97] = some zeroToken ∧
    Spec Cmd.exec NoFail (verifyToken [97] zeroToken) w.disk fun n _ => n = 0 := by
  have hname : ¬ CacheKey [97] := by
    rintro (h | h) <;> exact absurd h (by decide +kernel)
  have hlogin : Step zeroDigest freshWorld (login [97] freshWorld) :=
    ⟨.setToken [97] fun _ => 0, fun _ => .ok 0, hname, rfl⟩
  have hrun := (Relation.ReflTransGen.single hlogin).tail
    ⟨.getRankingFilelist 0 9, fun _ => .ok 0, trivial, rfl⟩
  have hlast : (login [97] freshWorld).last [97] = some zeroToken := by decide +kernel
  refine ⟨_, hrun, hlast, ?_⟩
  exact ((tokens_apart zeroDigest freshWorld_tokens hrun).1 _ _).mono fun _ _ h => h.mpr hlast

/-- The login of a user called `FILE_PUBLIC_ZSET` puts a string in the place of the sorted set,
and the token of a user called `FILE_NAME_HASH` does not survive the next ranking. -/
theorem tokens_not_apart :
    (login filePublicZset freshWorld).disk.redis filePublicZset = some (.string zeroToken) ∧
    freshWorld.disk.redis filePublicZset = none ∧
    (login fileNameHash freshWorld).last fileNameHash = some zeroToken ∧
    ((verifyToken fileNameHash zeroToken).run Cmd.exec (fun _ => .ok 0)
      ((TokenCall.getRankingFilelist 0 9).run zeroDigest (fun _ => .ok 0)
        (login fileNameHash freshWorld)).disk).1 = -1 := by
  have hstored : (login filePublicZset freshWorld).disk.redis filePublicZset =
      some (.string zeroToken) := by rfl
  exact ⟨hstored, rfl, by decide +kernel⟩

end SessionTokens
