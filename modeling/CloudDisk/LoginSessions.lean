import CloudDisk.LoginTokens
import CloudDisk.RegisterLogin
import CloudDisk.ReplyTexts

/-! # A login and what follows it

The login page posts a name and a password. The login program looks the password up, stores a
token under the name and sends it back; the page keeps both and sends them with every further
request. The accounts and the files are two parts of one site. -/
namespace LoginSessions

open ByteStrings CheckedCode CommandPrograms RowTables DiskState DiskHandlers HandlerRules SqlTexts
  JsonBodies JsonTexts JsonGrammar JsonDocuments JsonPrinting JsonRoundTrips RequestLoops
  TokenChecks MyFilesPage LogMessages PrintedReplies Accounts SessionTokens LoginTokens CacheEntries
  DiskRefinement ReplyTexts DiskTexts
open DesTexts (KeyArray)
open RegisterLogin (Otherwise readSql textExec textExec_read readSql_of_clean)
open HmsetCommands (Allocations)

structure Site where
  accounts : Multiset User
  disk : Disk

inductive SiteCmd where
  | account (c : AccountCmd)
  | disk (c : Cmd)

/-- The accounts are behind a server that reads the texts it is sent. -/
def SiteCmd.exec (other : Otherwise) (server : Server) (o : Outcome) :
    SiteCmd → Site → Reply × Site
  | .account c, s =>
    ((textExec other o c s.accounts).1, { s with accounts := (textExec other o c s.accounts).2 })
  | .disk c, s => ((server o c s.disk).1, { s with disk := (server o c s.disk).2 })

def accountsPart : Part (Multiset User) Site :=
  ⟨Site.accounts, fun v s => { s with accounts := v }, fun _ _ => rfl, fun _ => rfl,
    fun _ _ _ => rfl⟩

def diskPart : Part Disk Site :=
  ⟨Site.disk, fun v s => { s with disk := v }, fun _ _ => rfl, fun _ => rfl, fun _ _ _ => rfl⟩

/-! ## The program -/

structure Login where
  user : CString
  pwd : CString

def loginBufLen : ℕ := 512

/-- `get_login_info`. -/
def loginFields : List (BodyField Login) :=
  [stringField "user" loginBufLen fun s m => { m with user := s },
    stringField "pwd" loginBufLen fun s m => { m with pwd := s }]

inductive LoginReply where
  | crashed
  | noData
  | nothing
  | status (code token : CString)

def loginRun (digest : Digest) (rand : Fin 4 → ℕ) (m : Login) : Prog SiteCmd Reply LoginReply := do
  let ret ← (checkUserPwd m.user m.pwd).embed .account
  if ret = 0 then
    let issued ← (setToken digest m.user rand).embed .disk
    if issued.1 = 0 then return .status (cstr "000") issued.2
    else return .status (cstr "001") (cstr "fail")
  else return .status (cstr "001") (cstr "fail")

/-- One round of `main`. The buffers are zeroed in every round, and the result of `get_login_info`
is not looked at. -/
def login (digest : Digest) (rand : Fin 4 → ℕ) (r : Request) : Prog SiteCmd Reply LoginReply :=
  match r.read with
  | .noData => return .noData
  | .nothing => return .nothing
  | .overflow => return .crashed
  | .text buf =>
    match (getInfo loginFields buf).written with
    | none => return .crashed
    | some write => loginRun digest rand (write ⟨[], []⟩)

def loginItem (code token : CString) : Item :=
  .object [addStringToObject "code" code, addStringToObject "token" token]

def returnLoginStatus (memory : Allocations) (code token : CString) : Checked CString :=
  printItem memory (loginItem code token)

/-! ## The page -/

/-- The data of the request that the login page posts. -/
def loginBody (user pwd : CString) : List UInt8 :=
  stringify [(cstr "user", user), (cstr "pwd", pwd)]

/-- What the page puts into `window.sessionStorage`. -/
def loginThen (user : CString) (status : ℕ) (data : Js) : Option Session :=
  if status = 200 then
    if data.shown "code" = cstr "000" then some ⟨user, data.shown "token"⟩ else none
  else none

/-! ## Texts -/

section Texts
variable {memory : Allocations} {code token : CString}

theorem hexDigit_plain : ∀ n < 16, escapeByte (SessionTokens.hexDigit n) =
    [SessionTokens.hexDigit n] ∧ SessionTokens.hexDigit n ≠ 37 := by decide

theorem hexText_plain (bytes : List UInt8) : 37 ∉ escape (hexText bytes) := by
  intro h
  obtain ⟨c, hc, hmem⟩ := List.mem_flatMap.mp h
  obtain ⟨b, -, hb⟩ := List.mem_flatMap.mp hc
  have hlt := b.toNat_lt
  have hdigit : ∃ n < 16, c = SessionTokens.hexDigit n := by
    rcases List.mem_cons.mp hb with rfl | hb
    · exact ⟨b.toNat / 16, by omega, rfl⟩
    · exact ⟨b.toNat % 16, by omega, List.mem_singleton.mp hb⟩
  obtain ⟨n, hn, rfl⟩ := hdigit
  obtain ⟨hself, hne⟩ := hexDigit_plain n hn
  rw [hself] at hmem
  exact hne (List.mem_singleton.mp hmem).symm

theorem value_loginItem : (value js (loginItem code token)).shown "code" = untilNul code ∧
    (value js (loginItem code token)).shown "token" = untilNul token := by
  simp only [loginItem, addStringToObject, value, valueMembers]
  exact ⟨rfl, rfl⟩

theorem document_loginItem :
    Document js numberBytes nestingLimit (value js (loginItem code token))
      ((loginItem code token).text true 0) := by
  apply document_text js true
  simp [loginItem, addStringToObject, levels, levelsMembers, nestingLimit]

/-- The reply is the format of its own `printf`; without a conversion it is sent as it stands. -/
theorem returns_returnLoginStatus (hmem : ∀ i, memory i ≠ none) {Q : CString → Prop}
    (hcode : 37 ∉ escape (untilNul code)) (htoken : 37 ∉ escape (untilNul token))
    (hlength : code.length + token.length ≤ 100) :
    Returns (returnLoginStatus memory code token) Q ↔ Q ((loginItem code token).text true 0) := by
  have hnames : 37 ∉ escape (untilNul (cstr "code")) ∧ 37 ∉ escape (untilNul (cstr "token")) := by
    decide
  apply returns_printItem hmem
  · simp [loginItem, addStringToObject, Item.text, objectText, whenFormat, cText, stringText, hcode,
      htoken, hnames, openBrace, closeBrace, newline, tab, colon, comma, quote]
  · have hcode' := escape_length_le (untilNul code)
    have htoken' := escape_length_le (untilNul token)
    have hshort : (untilNul code).length ≤ code.length := (List.takeWhile_sublist _).length_le
    have hshort' : (untilNul token).length ≤ token.length := (List.takeWhile_sublist _).length_le
    have hnames' : (escape (untilNul (cstr "code"))).length = 4 ∧
        (escape (untilNul (cstr "token"))).length = 5 := by decide
    simp only [loginItem, addStringToObject, Item.text, objectText, whenFormat, if_true, cText,
      List.length_cons, List.length_append, List.length_replicate, stringText_length, hnames',
      List.isEmpty_cons, List.isEmpty_nil, Bool.false_eq_true, if_false, List.length_nil, intMax]
    omega

end Texts

/-! ## The round -/

def withToken (d : Disk) (user token : CString) : Disk :=
  { d with redis := Function.update d.redis user (some (.string token)) }

/-- `PWD_LEN`, the size of `tmp` in `check_user_pwd`. -/
def pwdLen : ℕ := 256

/-- The name belongs to one account at most, and its password fits the buffer it is read into. -/
structure Registered (t : Multiset User) (user : CString) : Prop where
  once : countWhere (User.named user) t ≤ 1
  short : ∀ u ∈ t, u.name = user → u.password.length < pwdLen

/-- There is an account of this name with this password, which is not empty. -/
def RightPassword (t : Multiset User) (user pwd : CString) : Prop :=
  pwd ≠ [] ∧ ∃ u ∈ t, u.name = user ∧ u.password = pwd

section Round
variable {t : Multiset User} {user pwd : CString} {site : Site} {time : CString} {r : Request}
  {fuel : ℕ} {other : Otherwise} {server : Server}

theorem readSql_password (hname : clean 34 user) (huser : user.length < userNameLen) :
    readSql (.selectPassword user) = some (.selectPassword user) := by
  refine readSql_of_clean ((RegisterLogin.sqlText_length _).trans_lt ?_) ?_
  · simp only [RegisterLogin.arguments, List.map_cons, List.map_nil, List.sum_cons, List.sum_nil]
    rw [userNameLen] at huser
    rw [SqlTemplates.sqlMaxLen]
    omega
  · intro s hs
    rw [List.mem_singleton.mp hs]
    exact hname

theorem first_password (hone : countWhere (User.named user) t ≤ 1) (k : ℕ) :
    (listing k ((rowsWhere (User.named user) t).map fun u => [Cell.str u.password])).head? =
      some [.str pwd] ↔ ∃ u ∈ t, u.name = user ∧ u.password = pwd := by
  by_cases hrow : ∃ u ∈ t, User.named user u
  · obtain ⟨u, hu, hname⟩ := hrow
    rw [rowsWhere_eq_singleton hone hu hname, Multiset.map_singleton, listing_singleton]
    constructor
    · intro hpwd
      exact ⟨u, hu, by simpa [User.named] using hname, by simpa using hpwd⟩
    · rintro ⟨v, hv, hvname, rfl⟩
      have hsame : v = u := eq_of_countWhere_le_one hone hv hu (by simpa [User.named]) hname
      rw [hsame, List.head?_cons]
  · rw [rowsWhere_eq_zero.mpr (none_iff_not_exists.mpr hrow), Multiset.map_zero,
      listing_eq_nil.mpr rfl]
    apply iff_of_false (by simp)
    rintro ⟨u, hu, hname, -⟩
    exact hrow ⟨u, hu, by simpa [User.named]⟩

theorem checkUserPwd_spec (hread : readSql (.selectPassword user) = some (.selectPassword user))
    (hone : countWhere (User.named user) t ≤ 1) :
    Spec (textExec other) NoFail (checkUserPwd user pwd) t fun n t' =>
      t' = t ∧ (n = 0 ↔ RightPassword t user pwd) := by
  refine (RegisterLogin.check_spec hread).mono ?_
  rintro n t' ⟨rfl, k, hn⟩
  rw [first_password hone, and_comm] at hn
  exact ⟨rfl, hn⟩

theorem loginBody_length (huser : user.length < userNameLen) (hpwd : pwd.length < loginBufLen) :
    (loginBody user pwd).length + 7 < mesgSize := by
  have hlength := pair_length (cstr "user") (cstr "pwd") user pwd
  have hnames : (escape (cstr "user")).length = 4 ∧ (escape (cstr "pwd")).length = 3 := by decide
  rw [hnames.1, hnames.2] at hlength
  rw [userNameLen] at huser
  rw [loginBufLen] at hpwd
  rw [loginBody, mesgSize]
  omega

theorem getInfo_loginBody (huser : FitsBuffer userNameLen user)
    (hpwd : FitsBuffer loginBufLen pwd) :
    (getInfo loginFields (loginBody user pwd)).written = some fun _ => ⟨user, pwd⟩ := by
  have hlong : FitsBuffer loginBufLen user := ⟨huser.1.trans (by decide), huser.2⟩
  exact getInfo_pair hlong hpwd fun _ _ => ⟨rfl, rfl⟩

structure Issued (token : CString) : Prop where
  length : token.length = 32
  text : untilNul token = token
  plain : 37 ∉ escape token

/-- The password decides: with the right one a token is stored and sent, otherwise nothing has
changed. -/
theorem login_spec (stack : ℕ → KeyArray) (malloc : Bool) (context : Md5.Context)
    (rand : Fin 4 → ℕ) (other : Otherwise) (hs : Faithful server)
    (huser : FitsBuffer userNameLen user) (hname : clean 34 user)
    (hpwd : FitsBuffer loginBufLen pwd)
    (haccount : Registered site.accounts user) (hfuel : 2 ^ 25 ≤ fuel)
    (hr : passedOn time (loginBody user pwd) = some r) :
    Spec (SiteCmd.exec other server) NoFail
      (login (loginDigest stack malloc context fuel) rand r) site
      fun reply site' =>
        (RightPassword site.accounts user pwd ∧ ∃ token, Issued token ∧
          reply = .status (cstr "000") token ∧
          site' = ⟨site.accounts, withToken site.disk user token⟩) ∨
        (¬ RightPassword site.accounts user pwd ∧
          reply = .status (cstr "001") (cstr "fail") ∧ site' = site) := by
  have hread : r.read = .text (loginBody user pwd) := by
    have hlength := loginBody_length huser.1 hpwd.1
    rw [read_passedOn hr (by simp [loginBody, stringify]) (stringify_visible _), if_neg]
    exact not_le.mpr hlength
  rw [login, hread]
  dsimp only
  rw [getInfo_loginBody huser hpwd]
  apply spec_bind
  refine spec_embed accountsPart (fun _ _ _ => rfl) ?_
  refine (checkUserPwd_spec (readSql_password hname huser.1) haccount.once).mono ?_
  rintro n t' ⟨rfl, hn⟩
  by_cases hright : n = 0
  · rw [if_pos hright]
    apply spec_bind
    refine spec_embed diskPart (fun _ _ _ => rfl) ?_
    refine spec_faithful hs (all_setToken trivial fun _ => trivial) ?_
    refine (setToken_login stack malloc context rand huser.1 hfuel site.disk).mono ?_
    rintro ⟨ret, token⟩ d' ⟨hret, hlength, rfl, encTmp, base64, -, htoken⟩
    rw [if_pos hret]
    refine spec_ret (.inl ⟨hn.mp hright, token, ⟨hlength, ?_, ?_⟩, rfl, rfl⟩)
    · rw [show token = _ from htoken]
      exact untilNul_hexText _
    · rw [show token = _ from htoken]
      exact hexText_plain _
  · rw [if_neg hright]
    exact spec_ret (.inr ⟨fun h => hright (hn.mpr h), rfl, rfl⟩)

theorem caches_token {s : Redis} {shares : Finset AbstractDisk.File} (h : Caches s shares)
    (hkey : ¬ CacheKey user) (v : Option RedisValue) :
    Caches (Function.update s user v) shares := by
  rw [CacheKey, not_or] at hkey
  have hzset : Function.update s user v filePublicZset = s filePublicZset :=
    Function.update_of_ne (Ne.symm hkey.1) _ _
  have hhash : Function.update s user v fileNameHash = s fileNameHash :=
    Function.update_of_ne (Ne.symm hkey.2) _ _
  refine ⟨⟨?_, ?_⟩, fun p id => ?_, fun id name => ?_⟩
  · rw [hzset]
    exact h.kinds.zset
  · rw [hhash]
    exact h.kinds.hash
  · rw [zsetPairs, hzset]
    exact h.entries p id
  · rw [nameOf, hhash]
    exact h.names id name

theorem represents_token {base : Finset CString} {d : Disk} {a : AbstractDisk.Disk}
    (h : Represents base d a) (hkey : ¬ CacheKey user) (token : CString) :
    Represents base (withToken d user token) a where
  files := h.files
  shares := h.shares
  exact := ⟨h.exact.files, h.exact.stored, h.exact.separate, h.exact.users, h.exact.triples⟩
  ledger := ⟨h.ledger.once, h.ledger.listed, h.ledger.status, h.ledger.counter, h.ledger.users⟩
  caches := caches_token h.caches hkey _
  stores := ⟨h.stores.objects, h.stores.apart⟩
  users := h.users
  sums := h.sums

theorem verified_withToken {d : Disk} {token b t : CString} (hb : b ≠ user) :
    Verified (withToken d user token) b t ↔ Verified d b t := by
  have hredis : (withToken d user token).redis b = d.redis b := Function.update_of_ne hb _ _
  rw [Verified, hredis, Verified]

end Round

/-! ## The session -/

/-- With this session the page of one's own files is answered with these files; the reply is sent
unless the log has no room for it. -/
def Opens (server : Server) (memory : Allocations) (now : Tm) (s : Session)
    (files : Finset AbstractDisk.File) (d : Disk) : Prop :=
  ∀ (time : CString) (r : Request) (m : Files) (e : ℕ → Outcome),
    passedOn time (refresh s) = some r → (∀ i, NoFail (e i)) →
    ∃ out send text, ((RequestLoops.files r m).run server e d).1 =
        .served ⟨s.user, s.token⟩ [.header, out] ∧
      printed memory now out = some send ∧ Shows files text ∧
      ∀ Q, Returns send Q ↔ (files ≠ ∅ → text.length + 1 < mesgSize) ∧ Q text

section Session
variable {base : Finset CString} {a : AbstractDisk.Disk} {user pwd : CString} {site : Site}
  {time : CString} {r : Request} {fuel : ℕ} {e : ℕ → Outcome} {memory : Allocations}

theorem Issued.fits {token : CString} (h : Issued token) (huser : FitsBuffer userNameLen user) :
    Fits ⟨user, token⟩ := by
  refine ⟨huser, ?_, ?_⟩
  · rw [h.length]
    decide
  · rw [← h.text]
    exact untilNul_notMem token

theorem reply_read (hmem : ∀ i, memory i ≠ none) {code token : CString}
    (hcode : 37 ∉ escape (untilNul code)) (htoken : 37 ∉ escape (untilNul token))
    (hlength : code.length + token.length ≤ 100) :
    Returns (returnLoginStatus memory code token) fun text => ∃ data,
      Document js numberBytes nestingLimit data text ∧ data.shown "code" = untilNul code ∧
        data.shown "token" = untilNul token := by
  rw [returns_returnLoginStatus hmem hcode htoken hlength]
  exact ⟨_, document_loginItem, value_loginItem⟩

/-- Whoever sends the right password gets a session with which the own files can be opened;
anybody else gets none, and nothing has changed. The sessions of the others go on. -/
theorem login_opens {server : Server} (hs : Faithful server) (h : Represents base site.disk a)
    (hd : Presentable user site.disk) (huser : FitsBuffer userNameLen user) (ht : Tame [user])
    (hkey : ¬ CacheKey user)
    (hpwd : FitsBuffer loginBufLen pwd) (haccount : Registered site.accounts user)
    (hr : passedOn time (loginBody user pwd) = some r) (he : ∀ i, NoFail (e i))
    (hmem : ∀ i, memory i ≠ none) (hfuel : 2 ^ 25 ≤ fuel) (stack : ℕ → KeyArray) (malloc : Bool)
    (context : Md5.Context) (rand : Fin 4 → ℕ) (other : Otherwise) (now : Tm) :
    ∃ code token site', (login (loginDigest stack malloc context fuel) rand r).run
        (SiteCmd.exec other server) e site = (.status code token, site') ∧
      (∀ b t, b ≠ user → (Verified site'.disk b t ↔ Verified site.disk b t)) ∧
      Returns (returnLoginStatus memory code token) fun text => ∃ data,
        Document js numberBytes nestingLimit data text ∧
        ((RightPassword site.accounts user pwd ∧ ∃ s, loginThen user 200 data = some s ∧
            s.user = user ∧ Opens server memory now s (a.ownedBy user) site'.disk) ∨
          (¬ RightPassword site.accounts user pwd ∧ loginThen user 200 data = none ∧
            site' = site)) := by
  have hname := (ht.clean user (List.mem_singleton_self user)).2
  have hrun := login_spec stack malloc context rand other hs huser hname hpwd haccount hfuel hr e he
  rcases hrun with ⟨hright, token, htoken, hstatus, hsite⟩ | ⟨hwrong, hstatus, hsite⟩
  · refine ⟨_, token, _, Prod.ext hstatus hsite, fun b t hb => verified_withToken hb, ?_⟩
    have hplain : 37 ∉ escape (untilNul token) := by
      rw [htoken.text]
      exact htoken.plain
    have hlength : (cstr "000").length + token.length ≤ 100 := by
      rw [htoken.length]
      decide
    apply (reply_read hmem (by decide) hplain hlength).mono
    intro text hdata
    obtain ⟨data, hdoc, hcode, hshown⟩ := hdata
    rw [htoken.text] at hshown
    have hthen : loginThen user 200 data = some ⟨user, token⟩ := by
      rw [loginThen, if_pos rfl, hcode, if_pos (by decide), hshown]
    refine ⟨data, hdoc, .inl ⟨hright, ⟨user, token⟩, hthen, rfl, ?_⟩⟩
    intro time' r' m e' hr' he'
    have hfits := htoken.fits huser
    rw [run_faithful hs (all_files hfits ht hr' m)]
    refine files_replies (represents_token h hkey token) hfits ?_ ?_ hr' m he' hmem
    · exact ⟨hd.md5, hd.filename, hd.status, hd.pv, hd.size⟩
    · exact ⟨token, Function.update_self _ _ _, htoken.text⟩
  · refine ⟨_, _, _, Prod.ext hstatus hsite, fun _ _ _ => Iff.rfl, ?_⟩
    apply (reply_read hmem (by decide) (by decide) (by decide)).mono
    intro text hdata
    obtain ⟨data, hdoc, hcode, -⟩ := hdata
    have hthen : loginThen user 200 data = none := by
      rw [loginThen, if_pos rfl, hcode, if_neg (by decide)]
    exact ⟨data, hdoc, .inr ⟨hwrong, hthen, rfl⟩⟩

def shelfSite : Site := ⟨{⟨[97], [], [112], [], [], []⟩}, shelf 0⟩

def someStack : ℕ → KeyArray := fun _ =>
  ⟨List.replicate DesTexts.desKeyLongs 0, List.length_replicate⟩

def someContext : Md5.Context := ⟨0, 0, ⟨0, 0, 0, 0⟩, ByteBuffers.Buffer.zeroed 64⟩

theorem login_opens_shelf : ∃ r code token site',
    passedOn [] (loginBody [97] [112]) = some r ∧
    (login (loginDigest someStack true someContext (2 ^ 25)) (fun _ => 7) r).run
      (SiteCmd.exec RegisterLogin.silent Cmd.exec) (fun _ => .ok 0) shelfSite =
        (.status code token, site') ∧
    Returns (returnLoginStatus (fun _ => some fun _ => 0) code token) fun text => ∃ data s,
      Document js numberBytes nestingLimit data text ∧ loginThen [97] 200 data = some s ∧
      Opens Cmd.exec (fun _ => some fun _ => 0) ⟨2026, 2, 28, 23, 59, 59⟩ s
        ((shelfFiles 0).ownedBy [97])
        site'.disk := by
  have hpresentable : Presentable [97] shelfSite.disk := by
    constructor <;> decide +kernel
  have haccount : Registered shelfSite.accounts [97] := by
    constructor <;> decide
  have hright : RightPassword shelfSite.accounts [97] [112] :=
    ⟨by decide, _, Multiset.mem_singleton_self _, rfl, rfl⟩
  have hkey : ¬ CacheKey [97] := by
    rw [CacheKey]
    decide
  have hlength : (loginBody [97] [112]).length ≤ 2 ^ 20 := by decide
  obtain ⟨code, token, site', hrun, -, hreply⟩ :=
    login_opens faithful_exec (represents_shelf 0) hpresentable
    ⟨by decide, by decide⟩ (by decide) hkey ⟨by decide, by decide⟩ haccount (if_pos hlength)
    (fun _ => okAlways) (fun _ => Option.some_ne_none _) (Nat.le_refl _) someStack true someContext
    (fun _ => 7) RegisterLogin.silent ⟨2026, 2, 28, 23, 59, 59⟩
  refine ⟨_, code, token, site', if_pos hlength, hrun, hreply.mono fun text hdata => ?_⟩
  obtain ⟨data, hdoc, ⟨-, s, hthen, -, hopens⟩ | ⟨hwrong, -⟩⟩ := hdata
  · exact ⟨data, s, hdoc, hthen, hopens⟩
  · exact absurd hright hwrong

end Session

end LoginSessions
