import CloudDisk.DiskState
import CloudDisk.RedisFormats

/-! # The commands of the disk on the connection to Redis

The functions of `redis_op.c` that the programs call, with their formats. Whatever the strings
are, the server receives the commands that the model of the server executes. -/
namespace RedisCommands

open ByteStrings CheckedCode SqlFormats DiskState RedisRequests RedisFormats

/-! ## The calls -/

/-- The format and the values of `redisCommand`. A token is stored for 86400 seconds. -/
def call : RedisCmd → CString × List VaArg
  | .zlexcount key lo hi => (cstr "zlexcount %s [%s [%s", [.str key, .str lo, .str hi])
  | .zadd key score member => (cstr "ZADD %s %ld %s", [.str key, .int score, .str member])
  | .zincrby key member => (cstr "ZINCRBY %s 1 %s", [.str key, .str member])
  | .zrem key member => (cstr "ZREM %s %s", [.str key, .str member])
  | .zcard key => (cstr "ZCARD %s", [.str key])
  | .zrevrange key start stop => (cstr "ZREVRANGE %s %d %d", [.str key, .int start, .int stop])
  | .zscore key member => (cstr "ZSCORE %s %s", [.str key, .str member])
  | .hset key field value => (cstr "hset %s %s %s", [.str key, .str field, .str value])
  | .hget key field => (cstr "hget %s %s", [.str key, .str field])
  | .hdel key field => (cstr "hdel %s %s", [.str key, .str field])
  | .del key => (cstr "DEL %s", [.str key])
  | .get key => (cstr "get %s", [.str key])
  | .setex key value => (cstr "setex %s %u %s", [.str key, .int 86400, .str value])

def words : RedisCmd → List Word
  | .zlexcount key lo hi =>
    [literal (cstr "zlexcount"), [.str key], [.byte 91, .str lo], [.byte 91, .str hi]]
  | .zadd key score member => [literal (cstr "ZADD"), [.str key], [.long score], [.str member]]
  | .zincrby key member =>
    [literal (cstr "ZINCRBY"), [.str key], literal (cstr "1"), [.str member]]
  | .zrem key member => [literal (cstr "ZREM"), [.str key], [.str member]]
  | .zcard key => [literal (cstr "ZCARD"), [.str key]]
  | .zrevrange key start stop =>
    [literal (cstr "ZREVRANGE"), [.str key], [.decimal start], [.decimal stop]]
  | .zscore key member => [literal (cstr "ZSCORE"), [.str key], [.str member]]
  | .hset key field value => [literal (cstr "hset"), [.str key], [.str field], [.str value]]
  | .hget key field => [literal (cstr "hget"), [.str key], [.str field]]
  | .hdel key field => [literal (cstr "hdel"), [.str key], [.str field]]
  | .del key => [literal (cstr "DEL"), [.str key]]
  | .get key => [literal (cstr "get"), [.str key]]
  | .setex key value => [literal (cstr "setex"), [.str key], [.unsigned 86400], [.str value]]

theorem call_eq (c : RedisCmd) : call c = (formatOf (words c), (words c).flatMap Word.args) := by
  cases c <;> rfl

theorem words_plain (c : RedisCmd) : ∀ w ∈ words c, w ≠ [] ∧ ∀ p ∈ w, p.Plain := by
  have hall : (words c).all (fun w => !w.isEmpty && w.all fun p => decide p.Plain) = true := by
    cases c <;> rfl
  intro w hw
  have hword := List.all_eq_true.mp hall w hw
  simp only [Bool.and_eq_true, Bool.not_eq_true', List.isEmpty_eq_false_iff, List.all_eq_true,
    decide_eq_true_eq] at hword
  exact hword

def argv (c : RedisCmd) : List CString := (words c).map Word.text

/-! ## The server -/

def tolower (b : UInt8) : UInt8 := if 65 ≤ b ∧ b ≤ 90 then b + 32 else b

def lexBound (s : CString) : Option CString := if s.head? = some 91 then some s.tail else none

/-- A score that is a whole number; up to 2^53 they are doubles. -/
def score (s : CString) : Option ℤ :=
  (string2ll s).bind fun n => if n.natAbs ≤ 2 ^ 53 then some n else none

/-- How the server reads a command: by its name, in any case, and the number of its arguments. -/
def lookup : List CString → Option RedisCmd
  | [name, key] =>
    if name.map tolower = cstr "zcard" then some (.zcard key)
    else if name.map tolower = cstr "del" then some (.del key)
    else if name.map tolower = cstr "get" then some (.get key)
    else none
  | [name, key, a] =>
    if name.map tolower = cstr "zrem" then some (.zrem key a)
    else if name.map tolower = cstr "zscore" then some (.zscore key a)
    else if name.map tolower = cstr "hget" then some (.hget key a)
    else if name.map tolower = cstr "hdel" then some (.hdel key a)
    else none
  | [name, key, a, b] =>
    if name.map tolower = cstr "zlexcount" then do
      return .zlexcount key (← lexBound a) (← lexBound b)
    else if name.map tolower = cstr "zadd" then do return .zadd key (← score a) b
    else if name.map tolower = cstr "zincrby" then
      if string2ll a = some 1 then some (.zincrby key b) else none
    else if name.map tolower = cstr "zrevrange" then
      do return .zrevrange key (← string2ll a) (← string2ll b)
    else if name.map tolower = cstr "hset" then some (.hset key a b)
    else if name.map tolower = cstr "setex" then
      if string2ll a = some 86400 then some (.setex key b) else none
    else none
  | _ => none

/-- The numbers that the programs can pass: scores that are exact, and positions. -/
def InRange : RedisCmd → Prop
  | .zadd _ n _ => n.natAbs ≤ 2 ^ 53
  | .zrevrange _ start stop => IsInt start ∧ IsInt stop
  | _ => True

theorem text_str (s : CString) : Word.text [.str s] = s := by simp [Word.text, Piece.text]

theorem lexBound_text (s : CString) : lexBound (Word.text [.byte 91, .str s]) = some s := by
  simp [lexBound, Word.text, Piece.text]

theorem string2ll_decimal {n : ℤ} (h : IsInt n) : string2ll (Word.text [.decimal n]) = some n := by
  have htext : Word.text [.decimal n] = intText n := by simp [Word.text, Piece.text]
  rw [htext, string2ll_intText (by have := h.1; omega) (by have := h.2; omega)]

theorem score_long {n : ℤ} (h : n.natAbs ≤ 2 ^ 53) : score (Word.text [.long n]) = some n := by
  have htext : Word.text [.long n] = intText n := by simp [Word.text, Piece.text]
  rw [htext, score, string2ll_intText (by omega) (by omega), Option.bind_some, if_pos h]

theorem lookup_argv {c : RedisCmd} (h : InRange c) : lookup (argv c) = some c := by
  cases c <;> simp only [argv, words, List.map_cons, List.map_nil, text_literal, text_str,
    lookup] <;>
    repeat' first | rw [if_pos (by decide)] | rw [if_neg (by decide)]
  case zlexcount key lo hi => rw [lexBound_text, lexBound_text]; rfl
  case zadd key n member => rw [score_long h]; rfl
  case zrevrange key start stop => rw [string2ll_decimal h.1, string2ll_decimal h.2]; rfl

/-! ## The connection -/

/-- `redisAppendCommand` for one command after the other; `fresh` are the bytes of the blocks. -/
def appendAll (P : Printf) (fresh : ℕ → ℕ → UInt8) :
    List UInt8 → List RedisCmd → Checked (Option (List UInt8))
  | obuf, [] => pure (some obuf)
  | obuf, c :: commands => do
    match ← redisvFormatCommand P (fresh commands.length) (call c).1 (call c).2 with
    | .command bytes => appendAll P fresh (obuf ++ bytes) commands
    | _ => return none

section Connection
variable (P : Printf) {c : RedisCmd} {commands : List RedisCmd}

theorem redisvFormatCommand_call (fresh : ℕ → UInt8)
    (h : (request (argv c)).length ≤ protoMaxBulkLen) :
    redisvFormatCommand P fresh (call c).1 (call c).2 = .ok (.command (request (argv c))) := by
  have hbound : protoMaxBulkLen + 1 < 2 ^ 31 := by decide
  have hloop := formatLoop_words (P := P) (words c) (words_plain c) []
  have hbuild : Returns (buildCommand fresh (argv c)) _ := buildCommand_spec fresh (by omega)
  rw [call_eq, redisvFormatCommand, Words.empty, hloop]
  exact eq_ok_iff.mpr hbuild

theorem appendAll_eq (fresh : ℕ → ℕ → UInt8)
    (h : ∀ c ∈ commands, (request (argv c)).length ≤ protoMaxBulkLen) (obuf : List UInt8) :
    appendAll P fresh obuf commands =
      .ok (some (obuf ++ (commands.map argv).flatMap request)) := by
  induction commands generalizing obuf with
  | nil => simp [appendAll, pure, Except.pure]
  | cons c commands ih =>
    obtain ⟨hc, hcommands⟩ := List.forall_mem_cons.mp h
    simp only [appendAll, redisvFormatCommand_call P _ hc, bind, Except.bind, ih hcommands,
      List.map_cons, List.flatMap_cons, List.append_assoc]

theorem argv_sendable (h : (request (argv c)).length ≤ protoMaxBulkLen) : Sendable (argv c) where
  some_argument := by cases c <;> exact List.cons_ne_nil _ _
  count := by cases c <;> exact Nat.le_of_ble_eq_true rfl
  sizes arg harg := by
    obtain ⟨front, back, heq⟩ := List.append_of_mem harg
    rw [heq] at h
    simp only [request, bulk, List.flatMap_append, List.flatMap_cons, List.length_cons,
      List.length_append] at h
    omega

/-- However the network cuts what the client sends, the server executes the commands of the
program, in their order and each of them once, with the strings and numbers that were passed. -/
theorem commands_received (fresh : ℕ → ℕ → UInt8)
    (processInlineBuffer : Client → List UInt8 → (Client × List UInt8) × Bool)
    (h : ∀ c ∈ commands, InRange c ∧ (request (argv c)).length ≤ protoMaxBulkLen) :
    ∃ stream, appendAll P fresh [] commands = .ok (some stream) ∧
      ∀ pieces : List (List UInt8), pieces.flatten <+: stream →
        (executed processInlineBuffer pieces).map lookup <+: commands.map some ∧
          (pieces.flatten = stream →
            (executed processInlineBuffer pieces).map lookup = commands.map some) := by
  have hread : (commands.map argv).map lookup = commands.map some := by
    rw [List.map_map]
    exact List.map_congr_left fun c hc => lookup_argv (h c hc).1
  have hsendable : ∀ a ∈ commands.map argv, Sendable a := by
    intro a ha
    obtain ⟨c, hc, rfl⟩ := List.mem_map.mp ha
    exact argv_sendable (h c hc).2
  refine ⟨_, appendAll_eq P fresh (fun c hc => (h c hc).2) [], fun pieces hpieces => ?_⟩
  rw [List.nil_append] at hpieces ⊢
  obtain ⟨hfirst, hall⟩ := executed_requests processInlineBuffer hsendable hpieces
  rw [← hread]
  exact ⟨hfirst.map lookup, fun hwhole => congrArg (List.map lookup) (hall hwhole)⟩

/-- A name with a blank, a percent sign and the end of a line, sent byte by byte. -/
theorem commands_received_bytes :
    ∃ stream, appendAll plainPrintf (fun _ _ => 0) []
        [.hset [107] [102] [97, 32, 37, 115, 13, 10], .zadd [107] (-3) []] = .ok (some stream) ∧
      (executed (fun c buffer => ((c, buffer), false)) (stream.map fun b => [b])).map lookup =
        [some (.hset [107] [102] [97, 32, 37, 115, 13, 10]), some (.zadd [107] (-3) [])] := by
  have hcommands : ∀ c ∈ [RedisCmd.hset [107] [102] [97, 32, 37, 115, 13, 10],
      .zadd [107] (-3) []], InRange c ∧ (request (argv c)).length ≤ protoMaxBulkLen := by
    simp only [List.forall_mem_cons, List.not_mem_nil, false_imp_iff, implies_true, and_true]
    exact ⟨⟨trivial, by decide⟩, show (-3 : ℤ).natAbs ≤ 2 ^ 53 by decide, by decide⟩
  obtain ⟨stream, hstream, hread⟩ := commands_received plainPrintf (fun _ _ => 0)
    (fun c buffer => ((c, buffer), false)) hcommands
  have hflat : (stream.map fun b => [b]).flatten = stream := by
    rw [← List.flatMap_def, List.flatMap_singleton']
  exact ⟨stream, hstream, (hread _ ⟨[], (List.append_nil _).trans hflat⟩).2 hflat⟩

end Connection
end RedisCommands
