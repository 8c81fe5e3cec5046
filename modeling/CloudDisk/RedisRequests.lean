import CloudDisk.ChunkedStreams
import CloudDisk.MyFilesPage

/-! # The requests on a connection to Redis

A command travels as an array of bulk strings: the number of its arguments, and each argument
behind its length. The server reads whatever part of the stream has arrived, keeps in the client
what it knows of a command that is not complete, and executes each command as soon as it is. -/
namespace RedisRequests

open ByteStrings SqlFormats JsonBodies MyFilesPage ChunkedStreams

def bulk (arg : CString) : List UInt8 :=
  36 :: (natText arg.length ++ 13 :: 10 :: (arg ++ [13, 10]))

def request (argv : List CString) : List UInt8 :=
  42 :: (natText argv.length ++ 13 :: 10 :: argv.flatMap bulk)

/-! ## Numbers -/

def ullongMax : ℕ := 2 ^ 64 - 1

def restDigits : ℕ → List UInt8 → Option ℕ
  | v, [] => some v
  | v, b :: l =>
    if isDigit b then
      if ullongMax / 10 < v then none
      else if ullongMax - (b.toNat - 48) < 10 * v then none
      else restDigits (10 * v + (b.toNat - 48)) l
    else none

def magnitude : List UInt8 → Option ℕ
  | [] => none
  | b :: l => if 49 ≤ b ∧ b ≤ 57 then restDigits (b.toNat - 48) l else none

def string2ll (s : List UInt8) : Option ℤ :=
  if s = [48] then some 0
  else if s.head? = some 45 then
    (magnitude s.tail).bind fun v => if 2 ^ 63 < v then none else some (-(v : ℤ))
  else
    (magnitude s).bind fun v => if 2 ^ 63 - 1 < v then none else some (v : ℤ)

theorem le_foldl_digits (l : List UInt8) (v : ℕ) :
    v ≤ l.foldl (fun n b => 10 * n + (b.toNat - 48)) v := by
  induction l generalizing v with
  | nil => exact le_rfl
  | cons b l ih =>
    have hnext := ih (10 * v + (b.toNat - 48))
    simp only [List.foldl_cons]
    omega

theorem restDigits_eq {l : List UInt8} {v : ℕ} (hl : ∀ b ∈ l, isDigit b)
    (hv : l.foldl (fun n b => 10 * n + (b.toNat - 48)) v ≤ ullongMax) :
    restDigits v l = some (l.foldl (fun n b => 10 * n + (b.toNat - 48)) v) := by
  induction l generalizing v with
  | nil => rfl
  | cons b l ih =>
    obtain ⟨hb, hl⟩ := List.forall_mem_cons.mp hl
    rw [List.foldl_cons] at hv ⊢
    have hnext := le_foldl_digits l (10 * v + (b.toNat - 48))
    have hfirst : ¬ ullongMax / 10 < v := by omega
    have hsecond : ¬ ullongMax - (b.toNat - 48) < 10 * v := by omega
    rw [restDigits, if_pos hb, if_neg hfirst, if_neg hsecond, ih hl hv]

theorem magnitude_natText {n : ℕ} (h0 : n ≠ 0) (h : n ≤ ullongMax) :
    magnitude (natText n) = some n := by
  have hdecimal := decimal_natText n
  have hhead := natText_head (n := n)
  have hdigits : ∀ b ∈ natText n, isDigit b := fun b hb => (natText_bytes hb).1
  obtain ⟨b, l, hl⟩ := List.exists_cons_of_ne_nil (natText_ne_nil n)
  rw [hl] at hdecimal hhead hdigits ⊢
  obtain ⟨hb, hl'⟩ := List.forall_mem_cons.mp hdigits
  have hrange : 48 ≤ b ∧ b ≤ 57 := of_decide_eq_true hb
  have hb0 : b ≠ 48 := by
    rintro rfl
    rw [hhead rfl] at hdecimal
    exact h0 hdecimal.symm
  have hfirst : 49 ≤ b ∧ b ≤ 57 := by
    refine ⟨?_, hrange.2⟩
    have hne : b.toNat ≠ 48 := fun h => hb0 (UInt8.toNat_inj.mp h)
    have hle : 48 ≤ b.toNat := UInt8.le_iff_toNat_le.mp hrange.1
    exact UInt8.le_iff_toNat_le.mpr (show 49 ≤ b.toNat by omega)
  rw [decimal, List.foldl_cons, Nat.mul_zero, Nat.zero_add] at hdecimal
  rw [magnitude, if_pos hfirst, restDigits_eq hl' (hdecimal ▸ h), hdecimal]

theorem string2ll_intText {n : ℤ} (hlo : -2 ^ 63 ≤ n) (hhi : n < 2 ^ 63) :
    string2ll (intText n) = some n := by
  have hhead : ∀ k, (natText k).head? ≠ some 45 := by
    intro k h
    exact (natText_bytes (List.mem_of_mem_head? h)).2.2.1 rfl
  by_cases hneg : n < 0
  · have hmag := magnitude_natText (n := n.natAbs) (by omega) (by unfold ullongMax; omega)
    have hrange : ¬ 2 ^ 63 < n.natAbs := by omega
    rw [intText, if_pos hneg, string2ll, if_neg (by simp), if_pos List.head?_cons, List.tail_cons,
      hmag, Option.bind_some, if_neg hrange]
    congr 1
    omega
  · rw [intText, if_neg hneg]
    by_cases h0 : n = 0
    · subst h0
      decide
    · have hmag := magnitude_natText (n := n.natAbs) (by omega) (by unfold ullongMax; omega)
      have hrange : ¬ 2 ^ 63 - 1 < n.natAbs := by omega
      have hne : natText n.natAbs ≠ [48] := by
        intro h
        have hdecimal := decimal_natText n.natAbs
        rw [h, show decimal [48] = 0 by decide] at hdecimal
        omega
      rw [string2ll, if_neg hne, if_neg (hhead _), hmag, Option.bind_some, if_neg hrange]
      congr 1
      omega

theorem string2ll_natText {n : ℕ} (h : n < 2 ^ 63) : string2ll (natText n) = some (n : ℤ) :=
  string2ll_intText (n := n) (by omega) (by omega)

/-! ## The server -/

inductive Line where
  | incomplete
  | tooBig
  | line (text rest : List UInt8)

/-- `strchr(querybuf, '\r')`, which does not look behind a NUL. -/
def findCr : List UInt8 → Option ℕ
  | [] => none
  | b :: l => if b = 13 then some 0 else if b = 0 then none else (findCr l).map (· + 1)

def protoInlineMaxSize : ℕ := 64 * 1024

/-- What both lengths are read from; the `\n` is skipped and not looked at. -/
def readLine (buffer : List UInt8) : Line :=
  match findCr buffer with
  | none => if protoInlineMaxSize < buffer.length then .tooBig else .incomplete
  | some i =>
    if buffer.length < i + 2 then .incomplete else .line (buffer.take i) (buffer.drop (i + 2))

inductive ReqType where
  | inline
  | multibulk
  deriving DecidableEq

/-- `closing` is the flag CLIENT_CLOSE_AFTER_REPLY, which a protocol error sets. -/
structure Client where
  reqtype : Option ReqType
  multibulklen : ℕ
  bulklen : Option ℕ
  argv : List CString
  closing : Bool
  deriving DecidableEq

def protoMaxBulkLen : ℕ := 512 * 1024 * 1024

def Client.protocolError (c : Client) : Client := { c with closing := true }

/-- The part of the loop for `bulklen == -1`. Without a length the loop ends. -/
def bulkLength (c : Client) (buffer : List UInt8) : (Client × List UInt8) × Option ℕ :=
  match c.bulklen with
  | some n => ((c, buffer), some n)
  | none =>
    match readLine buffer with
    | .incomplete => ((c, buffer), none)
    | .tooBig => ((c.protocolError, buffer), none)
    | .line text rest =>
      if text.head? ≠ some 36 then ((c.protocolError, buffer), none)
      else
        match string2ll text.tail with
        | none => ((c.protocolError, buffer), none)
        | some ll =>
          if ll < 0 ∨ protoMaxBulkLen < ll then ((c.protocolError, buffer), none)
          else (({ c with bulklen := some ll.toNat }, rest), some ll.toNat)

/-- `while (multibulklen)`. The two bytes behind an argument are skipped. -/
def bulkLoop : ℕ → Client → List UInt8 → (Client × List UInt8) × Bool
  | 0, c, buffer => ((c, buffer), true)
  | k + 1, c, buffer =>
    match bulkLength c buffer with
    | (kept, none) => (kept, false)
    | ((c, buffer), some n) =>
      if buffer.length < n + 2 then ((c, buffer), false)
      else
        bulkLoop k
          { c with argv := c.argv ++ [buffer.take n], bulklen := none, multibulklen := k }
          (buffer.drop (n + 2))

/-- The result is true for C_OK. -/
def processMultibulkBuffer (c : Client) (buffer : List UInt8) : (Client × List UInt8) × Bool :=
  if c.multibulklen = 0 then
    match readLine buffer with
    | .incomplete => ((c, buffer), false)
    | .tooBig => ((c.protocolError, buffer), false)
    | .line text rest =>
      match string2ll text.tail with
      | none => ((c.protocolError, buffer), false)
      | some ll =>
        if 1024 * 1024 < ll then ((c.protocolError, buffer), false)
        else if ll ≤ 0 then ((c, rest), true)
        else bulkLoop ll.toNat { c with multibulklen := ll.toNat, argv := [] } rest
  else bulkLoop c.multibulklen c buffer

def resetClient (c : Client) : Client :=
  { c with reqtype := none, multibulklen := 0, bulklen := none, argv := [] }

def newClient : Client := ⟨none, 0, none, [], false⟩

/-- Determine the request type when it is unknown. -/
def Client.detect (c : Client) (buffer : List UInt8) : Client :=
  if c.reqtype = none then
    { c with reqtype := some (if buffer.head? = some 42 then .multibulk else .inline) }
  else c

/-- A complete command is executed, unless it is empty, and the client is reset. -/
def execute (r : (Client × List UInt8) × Bool) :
    (Client × List UInt8) × Option (List (List CString)) :=
  if r.2 then ((resetClient r.1.1, r.1.2), some (if r.1.1.argv = [] then [] else [r.1.1.argv]))
  else (r.1, none)

section Server
variable (processInlineBuffer : Client → List UInt8 → (Client × List UInt8) × Bool)

/-- A round of `processInputBuffer`. -/
def inputRound : Round Client UInt8 (List CString) := fun c buffer =>
  if c.closing then ((c, buffer), none)
  else
    let c := c.detect buffer
    execute (if c.reqtype = some .inline then processInlineBuffer c buffer
      else processMultibulkBuffer c buffer)

/-- The commands that are executed when the stream is read in these pieces. -/
def executed (pieces : List (List UInt8)) : List (List CString) :=
  (feed (inputRound processInlineBuffer) newClient [] pieces).2

end Server

/-! ## A line of the stream -/

theorem findCr_line {text : List UInt8} (h : ∀ b ∈ text, b ≠ 13 ∧ b ≠ 0) (l : List UInt8) :
    findCr (text ++ 13 :: l) = some text.length := by
  induction text with
  | nil => simp [findCr]
  | cons b text ih =>
    obtain ⟨⟨hcr, h0⟩, htext⟩ := List.forall_mem_cons.mp h
    rw [List.cons_append, findCr, if_neg hcr, if_neg h0, ih htext]
    rfl

theorem findCr_none {text : List UInt8} (h : ∀ b ∈ text, b ≠ 13 ∧ b ≠ 0) : findCr text = none := by
  induction text with
  | nil => rfl
  | cons b text ih =>
    obtain ⟨⟨hcr, h0⟩, htext⟩ := List.forall_mem_cons.mp h
    rw [findCr, if_neg hcr, if_neg h0, ih htext]
    rfl

section Reading
variable {buffer future tail text : List UInt8}

theorem readLine_spec (h : buffer ++ future = text ++ 13 :: 10 :: tail)
    (htext : ∀ b ∈ text, b ≠ 13 ∧ b ≠ 0) (hlen : text.length ≤ protoInlineMaxSize) :
    (readLine buffer = .incomplete ∧ future ≠ []) ∨
      ∃ rest, readLine buffer = .line text rest ∧ rest ++ future = tail := by
  have hlength : buffer.length + future.length = text.length + (tail.length + 2) := by
    simpa using congrArg List.length h
  have hmore : buffer.length < text.length + 2 → future ≠ [] := by
    rintro hshort rfl
    rw [List.length_nil] at hlength
    omega
  obtain ⟨mid, htake, hrest⟩ | ⟨mid, rfl, hrest⟩ := List.append_eq_append_iff.mp h
  · -- the buffer ends within the digits
    have hlength := congrArg List.length htake
    rw [List.length_append] at hlength
    have hclean : ∀ b ∈ buffer, b ≠ 13 ∧ b ≠ 0 := fun b hb =>
      htext b (htake ▸ List.mem_append_left mid hb)
    refine Or.inl ⟨?_, hmore (by omega)⟩
    rw [readLine, findCr_none hclean]
    exact if_neg (by omega)
  · cases mid with
    | nil =>
      refine Or.inl ⟨?_, hmore (by simp)⟩
      rw [List.append_nil, readLine, findCr_none htext]
      exact if_neg (by omega)
    | cons b mid =>
      obtain ⟨rfl, hbehind⟩ := List.cons.inj hrest
      rw [readLine, findCr_line htext]
      cases mid with
      | nil =>
        exact Or.inl ⟨if_pos (by simp), hmore (by simp)⟩
      | cons b' mid =>
        refine Or.inr ⟨mid, ?_, (List.cons.inj hbehind).2.symm⟩
        simp only [List.length_append, List.length_cons]
        rw [if_neg (by omega)]
        simp [List.drop_append]

theorem natText_line (n : ℕ) : ∀ b ∈ natText n, b ≠ 13 ∧ b ≠ 0 := by
  intro b hb
  obtain ⟨k, hk, rfl⟩ := mem_natText hb
  interval_cases k <;> decide

theorem natText_line_inj {n n' : ℕ} {s s' : List UInt8}
    (h : natText n ++ 13 :: s = natText n' ++ 13 :: s') : n = n' ∧ s = s' := by
  have htake : ∀ k t, (natText k ++ 13 :: t).takeWhile (· ≠ 13) = natText k := by
    intro k t
    rw [List.takeWhile_append_of_pos fun b hb => by simpa using (natText_line k b hb).1]
    simp
  have htext := congrArg (List.takeWhile (· ≠ 13)) h
  rw [htake, htake] at htext
  rw [htext, List.append_cancel_left_eq] at h
  refine ⟨?_, (List.cons.inj h).2⟩
  rw [← decimal_natText n, htext, decimal_natText]

theorem bulk_inj {arg arg' : CString} {s s' : List UInt8} (h : bulk arg ++ s = bulk arg' ++ s') :
    arg = arg' ∧ s = s' := by
  simp only [bulk, List.cons_append, List.append_assoc, List.cons.injEq, true_and] at h
  obtain ⟨hlength, hrest⟩ := natText_line_inj h
  obtain ⟨harg, htail⟩ := List.append_inj (List.cons.inj hrest).2 hlength
  exact ⟨harg, by simpa using htail⟩

theorem request_inj {argv argv' : List CString} (h : request argv = request argv') :
    argv = argv' := by
  obtain ⟨hlength, hargs⟩ := natText_line_inj (List.cons.inj h).2
  replace hargs := (List.cons.inj hargs).2
  clear h
  induction argv generalizing argv' with
  | nil => exact (List.length_eq_zero_iff.mp hlength.symm).symm
  | cons arg argv ih =>
    cases argv' with
    | nil => cases hlength
    | cons arg' argv' =>
      rw [List.flatMap_cons, List.flatMap_cons] at hargs
      obtain ⟨rfl, hrest⟩ := bulk_inj hargs
      rw [ih (Nat.succ.inj hlength) hrest]

theorem readLine_length {mark : UInt8} {n : ℕ} (hn : n < 2 ^ 63) (hmark : mark ≠ 13 ∧ mark ≠ 0)
    (h : buffer ++ future = mark :: (natText n ++ 13 :: 10 :: tail)) :
    (readLine buffer = .incomplete ∧ future ≠ []) ∨
      ∃ rest, readLine buffer = .line (mark :: natText n) rest ∧ rest ++ future = tail := by
  apply readLine_spec h (List.forall_mem_cons.mpr ⟨hmark, natText_line n⟩)
  have hdigits : (natText n).length ≤ 19 := length_natText_le (by decide) (by omega)
  have hsize : protoInlineMaxSize = 64 * 1024 := rfl
  rw [List.length_cons]
  omega

end Reading

/-! ## A request -/

structure Sendable (argv : List CString) : Prop where
  some_argument : argv ≠ []
  count : argv.length ≤ 1024 * 1024
  sizes : ∀ arg ∈ argv, arg.length ≤ protoMaxBulkLen

/-- In the middle of a request with these arguments: the stream still has the last of them, from
a length or from an argument on, and then the tail. -/
inductive Inside (tail : List UInt8) : Client → List UInt8 → List CString → Prop
  | length {seen args : List CString} (hne : args ≠ [])
      (hsizes : ∀ arg ∈ args, arg.length ≤ protoMaxBulkLen) :
      Inside tail ⟨some .multibulk, args.length, none, seen, false⟩ (args.flatMap bulk ++ tail)
        (seen ++ args)
  | argument {seen args : List CString} {arg : CString}
      (hsizes : ∀ arg ∈ args, arg.length ≤ protoMaxBulkLen) :
      Inside tail ⟨some .multibulk, args.length + 1, some arg.length, seen, false⟩
        (arg ++ 13 :: 10 :: (args.flatMap bulk ++ tail)) (seen ++ arg :: args)

/-- A request is read to its end, or its reader has to wait for the rest of it. -/
def Reads (future tail : List UInt8) (argv : List CString)
    (r : (Client × List UInt8) × Bool) : Prop :=
  (r.2 = true ∧ r.1.1 = ⟨some .multibulk, 0, none, argv, false⟩ ∧ r.1.2 ++ future = tail) ∨
    (r.2 = false ∧ future ≠ [] ∧ Inside tail r.1.1 (r.1.2 ++ future) argv)

section Loop
variable {buffer future tail : List UInt8} {seen args : List CString} {arg : CString}

theorem bulkLoop_argument (hsizes : ∀ arg ∈ args, arg.length ≤ protoMaxBulkLen)
    (hloop : ∀ {seen buffer}, buffer ++ future = args.flatMap bulk ++ tail →
      Reads future tail (seen ++ args)
        (bulkLoop args.length ⟨some .multibulk, args.length, none, seen, false⟩ buffer))
    (h : buffer ++ future = arg ++ 13 :: 10 :: (args.flatMap bulk ++ tail)) :
    Reads future tail (seen ++ arg :: args)
      (bulkLoop (args.length + 1)
        ⟨some .multibulk, args.length + 1, some arg.length, seen, false⟩ buffer) := by
  have hlength : buffer.length + future.length =
      arg.length + 2 + (args.flatMap bulk ++ tail).length := by
    rw [← List.length_append, h, List.length_append, List.length_cons, List.length_cons]
    omega
  simp only [bulkLoop, bulkLength]
  by_cases hshort : buffer.length < arg.length + 2
  · rw [if_pos hshort]
    refine Or.inr ⟨rfl, ?_, h ▸ .argument hsizes⟩
    rintro rfl
    rw [List.length_nil] at hlength
    omega
  · rw [if_neg hshort]
    have hle : arg.length + 2 ≤ buffer.length := Nat.le_of_not_lt hshort
    have htake : buffer.take arg.length = arg := by
      have heq := congrArg (List.take arg.length) h
      rwa [List.take_append_of_le_length (by omega), List.take_left] at heq
    have hdrop : buffer.drop (arg.length + 2) ++ future = args.flatMap bulk ++ tail := by
      have heq := congrArg (List.drop (arg.length + 2)) h
      rw [List.drop_append_of_le_length hle] at heq
      rw [heq, List.drop_append, List.drop_eq_nil_of_le (by omega), Nat.add_sub_cancel_left]
      rfl
    have hread := @hloop (seen ++ [arg]) _ hdrop
    rw [List.append_assoc] at hread
    rw [htake]
    exact hread

/-- By induction on the arguments that are still missing. -/
theorem bulkLoop_reads (args : List CString) :
    ∀ {seen : List CString} {buffer : List UInt8},
      (∀ arg ∈ args, arg.length ≤ protoMaxBulkLen) → buffer ++ future = args.flatMap bulk ++ tail →
      Reads future tail (seen ++ args)
        (bulkLoop args.length ⟨some .multibulk, args.length, none, seen, false⟩ buffer) := by
  induction args with
  | nil =>
    intro seen buffer _ h
    exact Or.inl ⟨rfl, by simp [bulkLoop], h⟩
  | cons arg args ih =>
    intro seen buffer hsizes h
    obtain ⟨harg, hargs⟩ := List.forall_mem_cons.mp hsizes
    have hmax : protoMaxBulkLen < 2 ^ 63 := by decide
    have hline : buffer ++ future =
        36 :: (natText arg.length ++
          13 :: 10 :: (arg ++ 13 :: 10 :: (args.flatMap bulk ++ tail))) := by
      rw [h, List.flatMap_cons, bulk]
      simp
    obtain ⟨hread, hmore⟩ | ⟨rest, hread, hrest⟩ :=
      readLine_length (show arg.length < 2 ^ 63 by omega) (by decide) hline
    · apply Or.inr
      simp only [List.length_cons, bulkLoop, bulkLength, hread]
      exact ⟨trivial, hmore, h ▸ .length (List.cons_ne_nil _ _) hsizes⟩
    · have hlast := @bulkLoop_argument _ _ _ seen _ _ hargs (ih hargs) hrest
      have hlimit : ¬ ((arg.length : ℤ) < 0 ∨ (protoMaxBulkLen : ℤ) < arg.length) := by omega
      simp only [List.length_cons, bulkLoop, bulkLength, hread, List.head?_cons, ne_eq,
        not_true_eq_false, if_false, List.tail_cons,
        string2ll_natText (show arg.length < 2 ^ 63 by omega), hlimit, Int.toNat_natCast]
      simp only [bulkLoop, bulkLength] at hlast
      exact hlast

theorem Inside.reads {c : Client} {argv : List CString}
    (h : Inside tail c (buffer ++ future) argv) :
    Reads future tail argv (processMultibulkBuffer c buffer) := by
  generalize hstream : buffer ++ future = stream at h
  cases h with
  | @length seen args hne hsizes =>
    have hk : args.length ≠ 0 := fun h0 => hne (List.length_eq_zero_iff.mp h0)
    rw [processMultibulkBuffer, if_neg hk]
    exact bulkLoop_reads args hsizes hstream
  | argument hsizes =>
    rw [processMultibulkBuffer, if_neg (Nat.succ_ne_zero _)]
    exact bulkLoop_argument hsizes (bulkLoop_reads _ hsizes) hstream

/-- At the head of a request the count may be incomplete; then nothing has changed. -/
theorem processMultibulkBuffer_request {argv : List CString} (hargv : Sendable argv)
    (h : buffer ++ future = request argv ++ tail) :
    processMultibulkBuffer ⟨some .multibulk, 0, none, [], false⟩ buffer =
        ((⟨some .multibulk, 0, none, [], false⟩, buffer), false) ∧ future ≠ [] ∨
      Reads future tail argv
        (processMultibulkBuffer ⟨some .multibulk, 0, none, [], false⟩ buffer) := by
  have hcount := hargv.count
  have hpos : 0 < argv.length := List.length_pos_iff.mpr hargv.some_argument
  have hline : buffer ++ future =
      42 :: (natText argv.length ++ 13 :: 10 :: (argv.flatMap bulk ++ tail)) := by
    rw [h, request]
    simp
  obtain ⟨hread, hmore⟩ | ⟨rest, hread, hrest⟩ :=
    readLine_length (show argv.length < 2 ^ 63 by omega) (by decide) hline
  · refine Or.inl ⟨?_, hmore⟩
    rw [processMultibulkBuffer, if_pos rfl, hread]
  · apply Or.inr
    have hloop := @bulkLoop_reads _ _ argv [] _ hargv.sizes hrest
    have hbig : ¬ (1024 * 1024 : ℤ) < argv.length := by omega
    have hsmall : ¬ (argv.length : ℤ) ≤ 0 := by omega
    simpa only [processMultibulkBuffer, if_pos, hread, List.tail_cons,
      string2ll_natText (show argv.length < 2 ^ 63 by omega), if_neg hbig, if_neg hsmall,
      Int.toNat_natCast, List.nil_append] using hloop

end Loop

/-! ## The stream -/

/-- What a client will execute of the stream that is still to be read. -/
inductive Expects : Client → List UInt8 → List (List CString) → Prop
  | idle {reqtype : Option ReqType} {commands : List (List CString)}
      (htype : reqtype ≠ some .inline) (hall : ∀ argv ∈ commands, Sendable argv) :
      Expects ⟨reqtype, 0, none, [], false⟩ (commands.flatMap request) commands
  | inside {c : Client} {stream : List UInt8} {argv : List CString}
      {commands : List (List CString)} (hall : ∀ argv ∈ commands, Sendable argv)
      (h : Inside (commands.flatMap request) c stream argv) : Expects c stream (argv :: commands)

section Stream
variable {processInlineBuffer : Client → List UInt8 → (Client × List UInt8) × Bool}
  {buffer future tail stream : List UInt8} {c : Client} {argv : List CString}
  {commands : List (List CString)}

theorem Inside.length_lt (h : Inside tail c stream argv) : tail.length < stream.length := by
  cases h with
  | @length seen args hne _ =>
    obtain ⟨arg, args, rfl⟩ := List.exists_cons_of_ne_nil hne
    rw [List.flatMap_cons, bulk]
    simp only [List.cons_append, List.length_cons, List.length_append]
    omega
  | argument _ =>
    simp only [List.length_cons, List.length_append]
    omega

theorem Inside.argv_ne_nil (h : Inside tail c stream argv) : argv ≠ [] := by
  cases h with
  | length hne _ => simp [hne]
  | argument _ => simp

theorem inputRound_inside (h : Inside tail c stream argv) (buffer : List UInt8) :
    inputRound processInlineBuffer c buffer = execute (processMultibulkBuffer c buffer) := by
  cases h <;> rfl

theorem inputRound_idle {reqtype : Option ReqType} (htype : reqtype ≠ some .inline)
    (hhead : buffer.head? = some 42) :
    inputRound processInlineBuffer ⟨reqtype, 0, none, [], false⟩ buffer =
      execute (processMultibulkBuffer ⟨some .multibulk, 0, none, [], false⟩ buffer) := by
  rcases reqtype with _ | _ | _
  · simp [inputRound, Client.detect, hhead]
  · exact absurd rfl htype
  · rfl

theorem execute_reads {r : (Client × List UInt8) × Bool} (hne : argv ≠ [])
    (hall : ∀ argv ∈ commands, Sendable argv)
    (h : Reads future (commands.flatMap request) argv r) :
    (execute r = (r.1, none) ∧ future ≠ [] ∧
        Expects r.1.1 (r.1.2 ++ future) (argv :: commands)) ∨
      (execute r = ((newClient, r.1.2), some [argv]) ∧
        r.1.2 ++ future = commands.flatMap request) := by
  obtain ⟨hok, hclient, hrest⟩ | ⟨hwait, hmore, hinside⟩ := h
  · refine Or.inr ⟨?_, hrest⟩
    rw [execute, if_pos hok, hclient, if_neg hne]
    rfl
  · refine Or.inl ⟨?_, hmore, .inside hall hinside⟩
    rw [execute, hwait]
    rfl

theorem inputRound_expects (hbuffer : buffer ≠ []) (h : Expects c (buffer ++ future) commands) :
    (∃ kept, inputRound processInlineBuffer c buffer = (kept, none) ∧ future ≠ [] ∧
        Expects kept.1 (kept.2 ++ future) commands) ∨
      ∃ argv later rest, commands = argv :: later ∧
        inputRound processInlineBuffer c buffer = ((newClient, rest), some [argv]) ∧
        rest.length < buffer.length ∧ Expects newClient (rest ++ future) later := by
  generalize hstream : buffer ++ future = stream at h
  cases h with
  | idle htype hall =>
    cases commands with
    | nil => exact absurd (List.append_eq_nil_iff.mp hstream).1 hbuffer
    | cons argv later =>
      obtain ⟨hargv, hlater⟩ := List.forall_mem_cons.mp hall
      obtain ⟨b, buffer, rfl⟩ := List.exists_cons_of_ne_nil hbuffer
      rw [List.flatMap_cons] at hstream
      obtain rfl : b = 42 := (List.cons.inj hstream).1
      have hlength := congrArg List.length hstream
      rw [inputRound_idle htype rfl]
      obtain ⟨hsame, hmore⟩ | hreads := processMultibulkBuffer_request hargv hstream
      · refine Or.inl ⟨(⟨some .multibulk, 0, none, [], false⟩, 42 :: buffer), ?_, hmore, ?_⟩
        · rw [hsame]
          rfl
        · rw [hstream, ← List.flatMap_cons]
          exact .idle (by decide) hall
      · obtain ⟨hwait, hmore, hkept⟩ | ⟨hgo, hrest⟩ :=
          execute_reads hargv.some_argument hlater hreads
        · exact Or.inl ⟨_, hwait, hmore, hkept⟩
        · refine Or.inr ⟨argv, later, _, rfl, hgo, ?_, hrest ▸ .idle (by decide) hlater⟩
          rw [← hrest] at hlength
          simp only [request, List.length_append, List.length_cons] at hlength ⊢
          omega
  | @inside _ _ argv later hlater hinside =>
    have hlength := hinside.length_lt
    subst hstream
    rw [inputRound_inside hinside]
    obtain ⟨hwait, hmore, hkept⟩ | ⟨hgo, hrest⟩ :=
      execute_reads hinside.argv_ne_nil hlater hinside.reads
    · exact Or.inl ⟨_, hwait, hmore, hkept⟩
    · refine Or.inr ⟨argv, later, _, rfl, hgo, ?_, hrest ▸ .idle (by decide) hlater⟩
      rw [← hrest] at hlength
      simp only [List.length_append] at hlength
      omega

theorem tracks_expects : Tracks (inputRound processInlineBuffer) Expects where
  waits hbuffer hI hround := by
    obtain ⟨kept, heq, hmore, hkept⟩ | ⟨argv, later, rest, rfl, heq, -, -⟩ :=
      inputRound_expects hbuffer hI
    · obtain rfl : kept = _ := congrArg Prod.fst (heq.symm.trans hround)
      exact ⟨hkept, fun hnil => absurd hnil hmore⟩
    · exact absurd (congrArg Prod.snd (heq.symm.trans hround)) (by simp)
  goes hbuffer hI hround := by
    obtain ⟨kept, heq, -, -⟩ | ⟨argv, later, rest, rfl, heq, hless, hlater⟩ :=
      inputRound_expects hbuffer hI
    · exact absurd (congrArg Prod.snd (heq.symm.trans hround)) (by simp)
    · obtain ⟨rfl, hout⟩ := Prod.mk.inj (heq.symm.trans hround)
      obtain rfl := Option.some.inj hout
      exact ⟨hless, later, rfl, hlater⟩
  ends := by
    intro c commands h
    generalize hstream : ([] : List UInt8) = stream at h
    cases h with
    | idle _ _ =>
      cases commands with
      | nil => rfl
      | cons argv later => exact absurd hstream (by simp [request])
    | inside _ hinside =>
      have hlength := hinside.length_lt
      rw [← hstream] at hlength
      exact absurd hlength (Nat.not_lt_zero _)

/-- The server executes the commands that were sent, in their order and each of them once,
however the network cuts the stream; of a part of the stream it executes the first commands. -/
theorem executed_requests (processInlineBuffer : Client → List UInt8 → (Client × List UInt8) × Bool)
    (hall : ∀ argv ∈ commands, Sendable argv) {pieces : List (List UInt8)}
    (hpieces : pieces.flatten <+: commands.flatMap request) :
    executed processInlineBuffer pieces <+: commands ∧
      (pieces.flatten = commands.flatMap request →
        executed processInlineBuffer pieces = commands) := by
  have hidle : Expects newClient (commands.flatMap request) commands := .idle (by decide) hall
  constructor
  · obtain ⟨future, hfuture⟩ := hpieces
    exact tracks_expects.feed_part (hfuture ▸ hidle)
  · intro hwhole
    exact tracks_expects.feed_all (hwhole ▸ hidle)

end Stream
end RedisRequests
