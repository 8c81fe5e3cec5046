import CloudDisk.ByteBuffers
import CloudDisk.RequestFields

/-! # The buffers of a request

The loops of login, md5, files and filesop receive a request in the same way: as many bytes as
`CONTENT_LENGTH` says are read into a buffer of 4096, and members of the JSON text in it are
copied with `strcpy` into arrays that `main` declares. Here this is done byte by byte. Neither
the length nor the type or the length of a member is looked at before. -/
namespace RequestBuffers

open ByteStrings CheckedCode ByteBuffers CommandPrograms DiskState DiskHandlers JsonBodies
  RequestLoops RequestFields
open LogMessages (mesgSize)

inductive Loop where
  | login
  | md5
  | files
  | filesop

/-- The members that `get_login_info`, `get_md5_info`, `get_user_json_info` and `get_json_info`
copy, in their order, and the sizes of the arrays they are given. -/
def Loop.destinations : Loop → List (CString × ℕ)
  | .login => [(cstr "user", 512), (cstr "pwd", 512)]
  | .md5 => [(cstr "user", 128), (cstr "md5", 256), (cstr "fileName", 128), (cstr "token", 256)]
  | .files => [(cstr "user", userNameLen), (cstr "token", tokenLen)]
  | .filesop => [(cstr "user", userNameLen), (cstr "md5", md5Len), (cstr "filename", fileNameLen),
      (cstr "token", tokenLen)]

/-! ## Reception -/

/-- The field `valuestring`, a null pointer in every item but a string. -/
def valuestring : Json → Option CString
  | .string s => some s
  | _ => none

/-- `strcpy(dest, child->valuestring)`. -/
def copyMember (size : ℕ) (child : Json) : Checked (Buffer size) :=
  match valuestring child with
  | none => throw .nullPointer
  | some s => (Buffer.zeroed size).strcpy s

/-- The strings in the arrays after the copies, up to the first member that is missing. -/
def copyMembers : List (CString × ℕ) → Json → Checked (List CString)
  | [], _ => pure []
  | (name, size) :: rest, root =>
    match getObjectItem root name with
    | none => pure []
    | some child => do
      let dest ← copyMember size child
      let s ← dest.text
      return s :: (← copyMembers rest root)

/-- The bytes that `fread` stores. -/
def received (r : Request) : List UInt8 := r.body.take r.len.toNat

/-- A round up to the last copy. A request without data, one of which nothing can be read and
one that is not JSON end without a copy. -/
def receive (destinations : List (CString × ℕ)) (r : Request) : Checked (List CString) := do
  if r.len ≤ 0 then return []
  else if r.body = [] then return []
  else
    let buf ← (Buffer.zeroed bufSize).write 0 (received r)
    let text ← buf.text
    match cJsonParse text with
    | none => return []
    | some root => copyMembers destinations root

/-- Every member that is reached, because all those before it are there, is a string that
fits. -/
def Copied (destinations : List (CString × ℕ)) (root : Json) : Prop :=
  ∀ before name size after, destinations = before ++ (name, size) :: after →
    (∀ field ∈ before, (getObjectItem root field.1).isSome) →
    ∀ child, getObjectItem root name = some child → ∃ s, child = .string s ∧ s.length < size

/-- There is also room for the NUL behind the bytes of the request. -/
structure Fits (destinations : List (CString × ℕ)) (r : Request) : Prop where
  room : (received r).length < bufSize
  strings : ∀ root, cJsonParse (untilNul (received r)) = some root → Copied destinations root

/-! ## Copies -/

section Copies
variable {root : Json} {destinations : List (CString × ℕ)}

theorem copied_nil : Copied [] root := by
  intro before name size after h
  simp at h

theorem copied_absent {name : CString} {size : ℕ} (h : getObjectItem root name = none) :
    Copied ((name, size) :: destinations) root := by
  intro before name' size' after heq hbefore child hchild
  cases before with
  | nil =>
    obtain ⟨heq, -⟩ := List.cons.inj heq
    rw [(Prod.mk.inj heq).1, hchild] at h
    cases h
  | cons field before =>
    have hfield := hbefore field List.mem_cons_self
    rw [← (List.cons.inj heq).1, h] at hfield
    cases hfield

theorem copied_cons {name : CString} {size : ℕ} {child : Json}
    (h : getObjectItem root name = some child) :
    Copied ((name, size) :: destinations) root ↔
      (∃ s, child = .string s ∧ s.length < size) ∧ Copied destinations root := by
  constructor
  · intro hall
    refine ⟨hall [] name size destinations rfl (by simp) child h, ?_⟩
    intro before name' size' after heq hbefore
    apply hall ((name, size) :: before) name' size' after (by rw [heq, List.cons_append])
    intro field hfield
    rcases List.mem_cons.mp hfield with rfl | hfield
    · rw [h]
      rfl
    · exact hbefore field hfield
  · rintro ⟨hchild, hall⟩ before name' size' after heq hbefore child' hchild'
    cases before with
    | nil =>
      obtain ⟨heq, -⟩ := List.cons.inj heq
      obtain ⟨rfl, rfl⟩ := Prod.mk.inj heq
      obtain rfl : child = child' := Option.some.inj (h.symm.trans hchild')
      exact hchild
    | cons field before =>
      refine hall before name' size' after (List.cons.inj heq).2 ?_ child' hchild'
      exact fun q hq => hbefore q (List.mem_cons_of_mem field hq)

theorem returns_copyMember {size : ℕ} {child : Json} {Q : Buffer size → Prop} :
    Returns (copyMember size child) Q ↔
      ∃ s, child = .string s ∧ s.length < size ∧ Q ((Buffer.zeroed size).overlay 0 (s ++ [0])) := by
  cases child with
  | string s => simp [copyMember, valuestring, Buffer.returns_strcpy]
  | _ => simp [copyMember, valuestring]

theorem returns_copyMembers :
    Returns (copyMembers destinations root) (fun _ => True) ↔ Copied destinations root := by
  induction destinations with
  | nil => exact iff_of_true (returns_pure.mpr trivial) copied_nil
  | cons field rest ih =>
    obtain ⟨name, size⟩ := field
    cases h : getObjectItem root name with
    | none =>
      simp only [copyMembers, h]
      exact iff_of_true (returns_pure.mpr trivial) (copied_absent h)
    | some child =>
      rw [copied_cons h, ← ih]
      simp only [copyMembers, h, returns_bind, returns_copyMember, returns_pure]
      constructor
      · rintro ⟨s, rfl, hs, htext⟩
        rw [Buffer.text_strcpy hs, returns_pure] at htext
        exact ⟨⟨s, rfl, hs⟩, htext⟩
      · rintro ⟨⟨s, rfl, hs⟩, hrest⟩
        refine ⟨s, rfl, hs, ?_⟩
        rw [Buffer.text_strcpy hs, returns_pure]
        exact hrest

end Copies

/-! ## Requests -/

section Requests
variable {r : Request} {destinations : List (CString × ℕ)}

theorem fits_iff : Fits destinations r ↔ (received r).length < bufSize ∧
    ∀ root, cJsonParse (untilNul (received r)) = some root → Copied destinations root :=
  ⟨fun h => ⟨h.room, h.strings⟩, fun h => ⟨h.1, h.2⟩⟩

theorem fits_of_nothing (h : received r = []) : Fits destinations r := by
  have hnone : cJsonParse (untilNul []) = none := by decide
  refine ⟨by rw [h]; decide, fun root hroot => ?_⟩
  rw [h, hnone] at hroot
  cases hroot

theorem received_nil (h : r.len ≤ 0 ∨ r.body = []) : received r = [] := by
  unfold received
  rcases h with h | h
  · rw [Int.toNat_of_nonpos h, List.take_zero]
  · rw [h, List.take_nil]

theorem returns_receive (hroom : (received r).length < bufSize) :
    Returns (receive destinations r) (fun _ => True) ↔ Fits destinations r := by
  by_cases hno : r.len ≤ 0 ∨ r.body = []
  · refine iff_of_true ?_ (fits_of_nothing (received_nil hno))
    rcases hno with hlen | hbody
    · simp [receive, hlen]
    · simp [receive, hbody]
  · obtain ⟨hlen, hbody⟩ := not_or.mp hno
    have hwrite : 0 + (received r).length ≤ bufSize := by omega
    rw [fits_iff, and_iff_right hroom]
    simp only [receive, hlen, hbody, if_false, returns_bind,
      Buffer.returns_write (Nat.zero_le bufSize), hwrite, true_and, Buffer.text_zeroed hroom,
      returns_pure]
    cases hparse : cJsonParse (untilNul (received r)) with
    | none => simp
    | some root =>
      simp only [Option.some.injEq, forall_eq']
      exact returns_copyMembers

end Requests

/-! ## The rounds of the loops

The model of the loops ends a process where the bytes would leave a buffer. -/

section Rounds
variable {M : Type} {r : Request} {root : Json} {fields : List (BodyField M)}
  {destinations : List (CString × ℕ)}

/-- A field of the loops and the array it is copied to. -/
structure Matches (field : BodyField M) (destination : CString × ℕ) : Prop where
  name : field.name = destination.1
  store : ∀ child, field.store child = none ↔
    ¬ ∃ s, child = .string s ∧ s.length < destination.2

theorem stringField_matches (name : String) (size : ℕ) (set : CString → M → M) :
    Matches (stringField name size set) (cstr name, size) := by
  refine ⟨rfl, fun child => ?_⟩
  cases child with
  | string s => by_cases h : s.length < size <;> simp [stringField, h]
  | _ => simp [stringField]

theorem after_crashed {x : Extract M} {set : M → M} : x.after set = .crashed ↔ x = .crashed := by
  cases x <;> simp [Extract.after]

theorem copyFields_crashed (h : List.Forall₂ Matches fields destinations) :
    copyFields fields root = .crashed ↔ ¬ Copied destinations root := by
  induction h with
  | nil => exact iff_of_false (by simp [copyFields]) (not_not.mpr copied_nil)
  | @cons field destination fields destinations hfield _ ih =>
    obtain ⟨name, size⟩ := destination
    have hname : field.name = name := hfield.name
    cases hchild : getObjectItem root name with
    | none =>
      simp only [copyFields, hname, hchild]
      exact iff_of_false (by simp) (not_not.mpr (copied_absent hchild))
    | some child =>
      rw [copied_cons hchild]
      simp only [copyFields, hname, hchild]
      cases hstore : field.store child with
      | none => simp [(hfield.store child).mp hstore]
      | some set =>
        have hstring : ∃ s, child = .string s ∧ s.length < size := by
          by_contra hno
          rw [(hfield.store child).mpr hno] at hstore
          cases hstore
        simp only [after_crashed, ih, hstring, true_and]

/-- The log has room for the text of a request. -/
def FitsLog (r : Request) : Prop := (untilNul (received r)).length + 7 < mesgSize

theorem fitsLog_of_nothing (h : received r = []) : FitsLog r := by
  rw [FitsLog, h]
  decide

theorem crashed_iff (h : List.Forall₂ Matches fields destinations) :
    (r.read = .overflow ∨ ∃ buf, r.read = .text buf ∧ getInfo fields buf = .crashed) ↔
      ¬ (Fits destinations r ∧ FitsLog r) := by
  have hreceived : (r.body.take r.len.toNat) = received r := rfl
  by_cases hno : r.len ≤ 0 ∨ r.body = []
  · have hnothing := received_nil hno
    refine iff_of_false ?_ (not_not.mpr ⟨fits_of_nothing hnothing, fitsLog_of_nothing hnothing⟩)
    by_cases hlen : r.len ≤ 0
    · simp [Request.read, hlen]
    · simp [Request.read, hlen, hno.resolve_left hlen]
  · obtain ⟨hlen, hbody⟩ := not_or.mp hno
    rw [fits_iff, FitsLog]
    by_cases hroom : bufSize ≤ (received r).length
    · simp [Request.read, hlen, hbody, hreceived, hroom]
    by_cases hlog : mesgSize ≤ (untilNul (received r)).length + 7
    · simp [Request.read, hlen, hbody, hreceived, hroom, hlog]
    · have hread : r.read = .text (untilNul (received r)) := by
        simp [Request.read, hlen, hbody, hreceived, hroom, hlog]
      simp only [hread, reduceCtorEq, false_or, Body.text.injEq, exists_eq_left', not_le.mp hroom,
        not_le.mp hlog, true_and, and_true, getInfo]
      cases cJsonParse (untilNul (received r)) with
      | none => simp
      | some root => simpa using copyFields_crashed h

def Lives (p : Handler (Served M)) : Prop := ∀ e d, (p.run Cmd.exec e d).1 ≠ .crashed

theorem lives_reply (m : M) (out : List Printed) : Lives (reply m out) := by
  intro e d h
  cases h

theorem lives_bind {α : Type} {p : Handler α} {f : α → Handler (Served M)}
    (h : ∀ a, Lives (f a)) : Lives (p >>= f) := by
  induction p with
  | ret a => exact h a
  | call c next ih => exact fun e d => ih _ (fun i => e (i + 1)) _

theorem lives_ite {c : Prop} [Decidable c] {p q : Handler (Served M)} (hp : Lives p)
    (hq : Lives q) : Lives (if c then p else q) := by
  by_cases h : c
  · rwa [if_pos h]
  · rwa [if_neg h]

theorem withBody_crashed {m : M} {next : CString → Handler (Served M)} {e : ℕ → Outcome}
    {d : Disk} : ((withBody r m next).run Cmd.exec e d).1 = .crashed ↔
      r.read = .overflow ∨
        ∃ buf, r.read = .text buf ∧ ((next buf).run Cmd.exec e d).1 = .crashed := by
  cases h : r.read with
  | noData => simp [withBody, h, reply]
  | nothing => simp [withBody, h, reply]
  | overflow => simp [withBody, h, crash]
  | text buf => simp [withBody, h]

theorem round_crashed {N : Type} (h : List.Forall₂ Matches fields destinations) {m : N}
    {next : CString → Handler (Served N)}
    (hcrash : ∀ buf, getInfo fields buf = .crashed → next buf = crash)
    (hlives : ∀ buf, getInfo fields buf ≠ .crashed → Lives (next buf)) (e : ℕ → Outcome)
    (d : Disk) :
    ((withBody r m next).run Cmd.exec e d).1 = .crashed ↔
      ¬ (Fits destinations r ∧ FitsLog r) := by
  rw [withBody_crashed, ← crashed_iff h]
  refine or_congr_right (exists_congr fun buf => and_congr_right fun _ => ?_)
  constructor
  · intro hcrashed
    by_contra hinfo
    exact hlives buf hinfo e d hcrashed
  · intro hinfo
    rw [hcrash buf hinfo]
    rfl

end Rounds

theorem filesopRun_lives (m : Filesop) : Lives (filesopRun m) := by
  refine lives_bind fun ret => lives_ite (lives_reply _ _) ?_
  exact lives_bind fun ret => lives_reply _ _

theorem filesRun_lives (m : Files) : Lives (filesRun m) := by
  refine lives_bind fun _ => lives_bind fun _ => lives_bind fun ret => ?_
  refine lives_ite (lives_reply _ _) (lives_bind fun o => ?_)
  cases o <;> exact lives_reply _ _

theorem md5Run_lives (now : CString) (m : Filesop) : Lives (md5Run now m) := by
  refine lives_bind fun ret => lives_ite ?_ (lives_reply _ _)
  exact lives_bind fun ret => lives_reply _ _

theorem filesop_matches : List.Forall₂ Matches filesopFields Loop.filesop.destinations :=
  .cons (stringField_matches _ _ _) <| .cons (stringField_matches _ _ _) <|
    .cons (stringField_matches _ _ _) <| .cons (stringField_matches _ _ _) .nil

theorem files_matches : List.Forall₂ Matches filesFields Loop.files.destinations :=
  .cons (stringField_matches _ _ _) <| .cons (stringField_matches _ _ _) .nil

theorem md5_matches : List.Forall₂ Matches md5Fields Loop.md5.destinations :=
  .cons (stringField_matches _ _ _) <| .cons (stringField_matches _ _ _) <|
    .cons (stringField_matches _ _ _) <| .cons (stringField_matches _ _ _) .nil

/-- In the model of the loops a process dies of exactly these requests. -/
theorem rounds_crashed_iff (r : Request) (e : ℕ → Outcome) (d : Disk) :
    (∀ m, ((filesop r m).run Cmd.exec e d).1 = .crashed ↔
      ¬ (Fits Loop.filesop.destinations r ∧ FitsLog r)) ∧
    (∀ m, ((files r m).run Cmd.exec e d).1 = .crashed ↔
      ¬ (Fits Loop.files.destinations r ∧ FitsLog r)) ∧
    (((md5 r ()).run Cmd.exec e d).1 = .crashed ↔
      ¬ (Fits Loop.md5.destinations r ∧ FitsLog r)) := by
  refine ⟨fun m => ?_, fun m => ?_, ?_⟩
  · refine round_crashed filesop_matches (fun buf h => by simp only [h, Extract.written]) ?_ e d
    intro buf h
    cases hinfo : getInfo filesopFields buf with
    | crashed => exact absurd hinfo h
    | stopped write => exact filesopRun_lives _
    | complete write => exact filesopRun_lives _
  · refine round_crashed files_matches (fun buf h => by simp only [h, Extract.written]) ?_ e d
    intro buf h
    cases hinfo : getInfo filesFields buf with
    | crashed => exact absurd hinfo h
    | stopped write => exact filesRun_lives _
    | complete write => exact filesRun_lives _
  · refine round_crashed md5_matches (fun buf h => by simp only [h]) ?_ e d
    intro buf h
    cases hinfo : getInfo md5Fields buf with
    | crashed => exact absurd hinfo h
    | stopped write => exact lives_reply _ _
    | complete write => exact md5Run_lives _ _

/-- For each of the loops, and whatever the length and the body of a request are: the bytes
leave room for a NUL and the copies stay in bounds exactly when the members that are reached
are strings that fit. -/
theorem request_fits_iff (l : Loop) (r : Request) :
    ((received r).length < bufSize ∧ Returns (receive l.destinations r) fun _ => True) ↔
      Fits l.destinations r := by
  constructor
  · rintro ⟨hroom, h⟩
    exact (returns_receive hroom).mp h
  · intro h
    exact ⟨h.room, (returns_receive h.room).mpr h⟩

/-- The body of a request without a query, with its own length. -/
def posted (contentLength : String) (body : List UInt8) : Request :=
  ⟨none, some (cstr contentLength), body, []⟩

/-- A body of 4096 blanks, a number for the user, and a user of 128 bytes. -/
theorem request_overruns :
    ¬ (received (posted "4096" (List.replicate 4096 32))).length < bufSize ∧
    (¬ Returns (receive Loop.login.destinations (posted "10" (cstr "\x7b\"user\":1\x7d")))
      fun _ => True) ∧
    ¬ Returns (receive Loop.files.destinations
      (posted "139" (cstr "\x7b\"user\":\"" ++ List.replicate 128 97 ++ cstr "\"\x7d")))
      fun _ => True := by
  refine ⟨?_, by decide +kernel, by decide +kernel⟩
  have hlen : (posted "4096" (List.replicate 4096 32)).len = 4096 := by decide
  rw [received, hlen, show (4096 : ℤ).toNat = 4096 from rfl, posted, List.length_take,
    List.length_replicate]
  decide

end RequestBuffers
