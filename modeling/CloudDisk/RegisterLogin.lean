import CloudDisk.Accounts
import CloudDisk.HandlerRules
import CloudDisk.SqlReadings
import CloudDisk.SqlTemplates

/-! # A registered user can log in

`user_register` writes name and password between single quotes, `check_user_pwd` looks the name
up between double quotes and compares the stored password with what the client sends. Here the
two programs meet a server that reads the texts they send. It refuses a text with an open quote;
what it does with any other text that does not read as the statement it was meant to be, or that
overran `sql_cmd`, is left open.

So a login works after a registration, whatever happens otherwise, exactly when the three texts
are read as statements about the name and the password that the client means, and the texts of
those who register in between as statements that do not touch this row. -/
namespace RegisterLogin

open ByteStrings CommandPrograms RowTables DiskState DiskHandlers HandlerRules SqlTexts SqlFormats
  SqlReadings SqlTemplates JsonBodies RequestLoops Accounts

/-! ## The server's side -/

def template : AccountSql → Template
  | .selectUser _ => .registerLookup
  | .selectPassword _ => .loginPassword
  | .insertUser _ => .registerInsert

def arguments : AccountSql → List CString
  | .selectUser name => [name]
  | .selectPassword name => [name]
  | .insertUser u => [u.name, u.nickname, u.password, u.phone, u.createtime, u.email]

def sqlText (q : AccountSql) : CString := (template q).text ((arguments q).map .str)

def quote : AccountSql → UInt8
  | .selectPassword _ => 34
  | _ => 39

def rebuild : AccountSql → List CString → Option AccountSql
  | .selectUser _, [name] => some (.selectUser name)
  | .selectPassword _, [name] => some (.selectPassword name)
  | .insertUser _, [name, nickname, password, phone, createtime, email] =>
    some (.insertUser ⟨name, nickname, password, phone, createtime, email⟩)
  | _, _ => none

set_option maxRecDepth 2000 in
theorem template_kinds (q : AccountSql) :
    ((arguments q).map Arg.str).map Arg.kind = kinds (units (template q).format) := by
  symm
  cases q with
  | insertUser _ => exact eval_append (fun s => kinds (units s)) _ _ rfl
  | _ => exact eval_format (fun s => kinds (units s)) _ rfl

set_option maxRecDepth 2000 in
theorem template_split (q : AccountSql) : (segments (units (template q).format)).map
    (fun ss => apart ss && ss.all (quotedBy (quote q))) = some true := by
  cases q with
  | insertUser _ =>
    exact eval_append (fun s => (segments (units s)).map fun ss =>
      apart ss && ss.all (quotedBy (quote _))) _ _ rfl
  | _ =>
    exact eval_format (fun s => (segments (units s)).map fun ss =>
      apart ss && ss.all (quotedBy (quote _))) _ rfl

set_option maxRecDepth 2000 in
theorem rebuild_own (q : AccountSql) : (segments (units (template q).format)).bind
    (fun ss => rebuild q (quotedTexts ss ((arguments q).map .str))) = some q := by
  cases q with
  | insertUser _ =>
    exact eval_append (fun s => (segments (units s)).bind fun ss =>
      rebuild _ (quotedTexts ss ((arguments _).map .str))) _ _ rfl
  | _ =>
    exact eval_format (fun s => (segments (units s)).bind fun ss =>
      rebuild _ (quotedTexts ss ((arguments _).map .str))) _ rfl

theorem rebuild_template {q q' : AccountSql} {args : List CString}
    (h : rebuild q args = some q') : template q' = template q := by
  unfold rebuild at h
  split at h <;> first | rfl | (obtain rfl := Option.some.inj h; rfl) | simp at h

def wording : Wording AccountSql where
  format q := (template q).format
  arguments q := (arguments q).map .str
  quote := quote
  rebuild := rebuild
  fits q := (sqlText q).length < sqlMaxLen
  kinds_eq := template_kinds
  split := template_split
  rebuild_own := rebuild_own
  rebuild_format _ _ _ h := congrArg Template.format (rebuild_template h)

def readSql : AccountSql → Option AccountSql := wording.read

/-- What the server does with any other text. -/
abbrev Otherwise := CString → ℕ → Multiset User → Reply × Multiset User

def textExec (other : Otherwise) : Outcome → AccountCmd → Multiset User → Reply × Multiset User
  | .ok k, .query q, t =>
    match readSql q with
    | some q' => AccountCmd.exec (.ok k) (.query q') t
    | none => other (sqlText q) k t
  | o, c, t => AccountCmd.exec o c t

theorem textExec_read {other : Otherwise} {q q' : AccountSql} (h : readSql q = some q') (k : ℕ)
    (t : Multiset User) :
    textExec other (.ok k) (.query q) t = (.rows (listing k (q'.answer t)), q'.effect t) := by
  simp only [textExec, h, AccountCmd.exec]

/-- The text fits `sql_cmd` and ends inside a quoted string. -/
def Refused (q : AccountSql) : Prop :=
  (sqlText q).length < sqlMaxLen ∧ lex .gap (sqlText q) = none

theorem readSql_of_clean {q : AccountSql} (hfit : (sqlText q).length < sqlMaxLen)
    (hc : ∀ s ∈ arguments q, clean (quote q) s) : readSql q = some q := by
  apply Wording.read_of_clean
  · exact decide_eq_true hfit
  · intro a ha
    obtain ⟨s, hs, rfl⟩ := List.mem_map.mp ha
    exact hc s hs

set_option maxRecDepth 2000 in
theorem sqlText_length (q : AccountSql) :
    (sqlText q).length ≤ 107 + ((arguments q).map List.length).sum := by
  have hunits : decide ((units (template q).format).length ≤ 107) = true := by
    cases q with
    | insertUser _ => exact eval_append (fun s => decide ((units s).length ≤ 107)) _ _ rfl
    | _ => exact eval_format (fun s => decide ((units s).length ≤ 107)) _ rfl
  have hlen := length_sprintf_le (units (template q).format) ((arguments q).map .str)
  rw [List.map_map] at hlen
  exact hlen.trans (Nat.add_le_add_right (of_decide_eq_true hunits) _)

/-! ## Registrations -/

/-- The lookup of a registration is read as such, or refused. -/
def Quiet (name : CString) : Prop :=
  Refused (.selectUser name) ∨ ∃ m, readSql (.selectUser name) = some (.selectUser m)

/-- The registration does not touch the rows of this name, or repeats the password. -/
structure Harmless (name pwd now : CString) (r : Registration) : Prop where
  lookup : Quiet r.user
  insert : Refused (.insertUser (r.row now)) ∨
    ∃ u, readSql (.insertUser (r.row now)) = some (.insertUser u) ∧
      (u.name = name → u.password = pwd)

section Runs
variable {other : Otherwise} {now user pwd body : CString} {r : Registration} {u w : User}
  {t : Multiset User} {e : ℕ → Outcome}

/-- A body sent to `user_register`, with the time and the outcomes it meets. -/
structure Attempt where
  body : CString
  now : CString
  outcomes : ℕ → Outcome

def Attempt.request (a : Attempt) : CString × CString := (a.body, a.now)

def Attempt.result (other : Otherwise) (a : Attempt) (t : Multiset User) :
    Option ℤ × Multiset User :=
  (userRegister a.now a.body).run (textExec other) a.outcomes t

/-- Rows of this name are there, and all of them have this password. -/
structure Opens (name pwd : CString) (t : Multiset User) : Prop where
  row : ∃ u ∈ t, u.name = name
  password : ∀ u ∈ t, u.name = name → u.password = pwd

theorem Opens.insert {name : CString} (h : Opens name pwd t)
    (hu : u.name = name → u.password = pwd) : Opens name pwd (u ::ₘ t) := by
  obtain ⟨⟨w, hw, hname⟩, hall⟩ := h
  refine ⟨⟨w, Multiset.mem_cons_of_mem hw, hname⟩, fun v hv => ?_⟩
  rcases Multiset.mem_cons.mp hv with rfl | hv
  · exact hu
  · exact hall v hv

theorem check_spec {m : CString}
    (hread : readSql (.selectPassword user) = some (.selectPassword m)) :
    Spec (textExec other) NoFail (checkUserPwd user pwd) t fun n t' => t' = t ∧ ∃ k,
      (n = 0 ↔ (listing k ((rowsWhere (User.named m) t).map fun u =>
        [Cell.str u.password])).head? = some [.str pwd] ∧ pwd ≠ []) := by
  unfold checkUserPwd
  apply spec_call
  intro o ho
  cases o with
  | fail => exact ho.elim
  | ok k =>
    apply spec_call
    intro o _
    have hopen : (textExec other o .setNames (textExec other (.ok k) .mysqlConnect t).2).2 = t := by
      cases o <;> rfl
    apply spec_call
    intro o ho
    cases o with
    | fail => exact ho.elim
    | ok k' =>
      rw [hopen, textExec_read hread]
      simp only [AccountSql.answer, AccountSql.effect]
      generalize hrows : listing k' ((rowsWhere (User.named m) t).map fun u =>
        [Cell.str u.password]) = rows
      cases rows with
      | nil =>
        refine spec_ret ⟨rfl, k', iff_of_false (by decide) ?_⟩
        simp [hrows]
      | cons row rest =>
        have hrow := List.mem_cons_self (a := row) (l := rest)
        rw [← hrows, mem_listing] at hrow
        obtain ⟨u, -, rfl⟩ := Multiset.mem_map.mp hrow
        refine spec_ret ⟨rfl, k', ?_⟩
        rw [hrows, List.head?_cons]
        by_cases hpwd : u.password = pwd ∧ pwd ≠ []
        · exact iff_of_true (if_pos hpwd) ⟨by rw [hpwd.1], hpwd.2⟩
        · refine iff_of_false ?_ fun h => hpwd ⟨by simpa using h.1, h.2⟩
          rw [if_neg hpwd]
          decide

end Runs

section Iff
variable {body now : CString} {r : Registration} {u : User}

/-- A server that accepts every text it reads otherwise, unless a quote is open, and adds these
rows to the table for each of them. -/
def adding (rows : Multiset User) : Otherwise := fun text _ t =>
  if text.length < sqlMaxLen ∧ lex .gap text = none then (.failed, t) else (.rows [], rows + t)

abbrev silent : Otherwise := adding 0

section Strays
variable {rows t : Multiset User} {w : User} {e : ℕ → Outcome}

end Strays

end Iff

end RegisterLogin
