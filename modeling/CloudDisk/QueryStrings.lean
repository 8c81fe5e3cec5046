import CloudDisk.CheckedCode
import CloudDisk.RequestLoops

/-! # Arguments in the query string

`query_parse_key_value` looks for the key with `strstr`, anywhere in the query, skips the byte
behind it and takes what follows up to the next separator. So the first mention of the key
decides, and it may stand inside another key or inside a value. -/
namespace QueryStrings

open ByteStrings CheckedCode DiskHandlers RequestLoops

/-- The result of a call, and the value and its length as they are stored. A walk past the
terminating NUL is a fault. `value_len` is an `int`, and `strncpy` takes a negative one for the
length of a text without an end. -/
def parse (query key : CString) : Checked (ℤ × Option (CString × ℕ)) :=
  match queryParseKeyValue query key with
  | .outside => throw .outOfBounds
  | .absent => pure (-1, none)
  | .found text =>
    if toInt32 text.length < 0 then throw .outOfBounds
    else pure (0, some (text.take (toInt32 text.length).toNat, (toInt32 text.length).toNat))

def Plain (s : CString) : Prop := ∀ b ∈ s, b ≠ 61 ∧ b ≠ 38 ∧ b ≠ 35 ∧ b ≠ 0

instance (s : CString) : Decidable (Plain s) :=
  inferInstanceAs (Decidable (∀ b ∈ s, b ≠ 61 ∧ b ≠ 38 ∧ b ≠ 35 ∧ b ≠ 0))

def pairText (p : CString × CString) : CString := p.1 ++ 61 :: p.2

def queryOf : List (CString × CString) → CString
  | [] => []
  | [p] => pairText p
  | p :: rest => pairText p ++ 38 :: queryOf rest

/-- The first pair that mentions the key, either at the end of its own key and with this value,
or in its value only, with one byte between the mention and this value. -/
def FirstMention (key value : CString) : List (CString × CString) → Prop
  | [] => False
  | p :: rest =>
    match strstr key p.1 with
    | some found => found = key ∧ p.2 = value
    | none =>
      match strstr key p.2 with
      | some found => ∃ c, found = key ++ c :: value
      | none => FirstMention key value rest

/-! ## The search -/

section Search
variable {key s t : CString}

theorem strstr_nil (s : CString) : strstr [] s = some s := by
  cases s <;> rfl

theorem strstr_cons_of_head {b : UInt8} (h : key <+: b :: s) :
    strstr key (b :: s) = some (b :: s) := by
  rw [strstr, if_pos (List.prefix_iff_eq_take.mp h).symm]

theorem strstr_cons_skip {b : UInt8} (h : ¬ key <+: b :: s) :
    strstr key (b :: s) = strstr key s := by
  rw [strstr, if_neg fun htake => h (List.prefix_iff_eq_take.mpr htake.symm)]

theorem strstr_eq_some (h : strstr key s = some t) :
    key <+: t ∧ t <:+ s ∧ ∀ x y, s = x ++ (key ++ y) → (key ++ y).length ≤ t.length := by
  induction s with
  | nil =>
    by_cases hkey : key = []
    · subst hkey
      simp only [strstr, if_true, Option.some.injEq] at h
      subst h
      refine ⟨List.nil_prefix, List.nil_suffix, fun x y hxy => ?_⟩
      have := congrArg List.length hxy
      simp only [List.length_nil, List.length_append] at this ⊢
      omega
    · simp [strstr, hkey] at h
  | cons b s ih =>
    by_cases hp : key <+: b :: s
    · rw [strstr_cons_of_head hp, Option.some.injEq] at h
      subst h
      refine ⟨hp, List.suffix_rfl, fun x y hxy => ?_⟩
      have := congrArg List.length hxy
      simp only [List.length_append] at this ⊢
      omega
    · rw [strstr_cons_skip hp] at h
      obtain ⟨hkey, hsuffix, hfirst⟩ := ih h
      refine ⟨hkey, hsuffix.trans (List.suffix_cons b s), fun x y hxy => ?_⟩
      cases x with
      | nil => exact absurd ⟨y, hxy.symm⟩ hp
      | cons c x => exact hfirst x y (List.cons.inj hxy).2

theorem strstr_eq_none : strstr key s = none ↔ ¬ key <:+: s := by
  induction s with
  | nil =>
    by_cases hkey : key = []
    · simp [strstr, hkey]
    · simp [strstr, hkey]
  | cons b s ih =>
    rw [List.infix_cons_iff]
    by_cases hp : key <+: b :: s
    · simp [strstr_cons_of_head hp, hp]
    · rw [strstr_cons_skip hp, ih]
      simp [hp]

theorem prefix_append_cons_iff {c : UInt8} (hc : c ∉ key) : key <+: s ++ c :: t ↔ key <+: s := by
  constructor
  · intro h
    by_cases hle : key.length ≤ s.length
    · exact List.prefix_of_prefix_length_le h (List.prefix_append s _) hle
    · have hcut : s ++ [c] <+: s ++ c :: t := ⟨t, by simp⟩
      have hlong : s ++ [c] <+: key := by
        apply List.prefix_of_prefix_length_le hcut h
        rw [List.length_append, List.length_singleton]
        omega
      exact absurd (hlong.subset (by simp)) hc
  · intro h
    exact h.trans (List.prefix_append s _)

theorem strstr_append_cons {c : UInt8} (hc : c ∉ key) :
    strstr key (s ++ c :: t) = ((strstr key s).map (· ++ c :: t)).or (strstr key t) := by
  by_cases hkey : key = []
  · simp [hkey, strstr_nil]
  · induction s with
    | nil =>
      have hskip : ¬ key <+: c :: t := by
        rw [← List.nil_append (c :: t), prefix_append_cons_iff hc, List.prefix_nil]
        exact hkey
      simp [strstr_cons_skip hskip, strstr, hkey]
    | cons b s ih =>
      rw [List.cons_append]
      by_cases hp : key <+: b :: s
      · have hlong : key <+: b :: (s ++ c :: t) := (prefix_append_cons_iff hc).mpr hp
        rw [strstr_cons_of_head hp, strstr_cons_of_head hlong]
        rfl
      · have hlong : ¬ key <+: b :: (s ++ c :: t) := fun h => hp ((prefix_append_cons_iff hc).mp h)
        rw [strstr_cons_skip hp, strstr_cons_skip hlong, ih]

end Search

/-! ## The value -/

section Value
variable {key value : CString}

theorem parse_found {query text : CString} (h : queryParseKeyValue query key = .found text)
    (hlen : text.length < 2 ^ 31) : parse query key = pure (0, some (text, text.length)) := by
  have hint : toInt32 (text.length : ℤ) = text.length := toInt32_eq (by omega) (by omega)
  have hnot : ¬ (text.length : ℤ) < 0 := by omega
  simp only [parse, h, hint, hnot, if_false, Int.toNat_natCast, List.take_length]

theorem parse_mention {query : CString} {c : UInt8} {rest : CString}
    (h : strstr key query = some (key ++ c :: rest)) (hlen : query.length < 2 ^ 31) :
    parse query key = pure (0, some (rest.takeWhile (fun b => b ≠ 35 ∧ b ≠ 38),
      (rest.takeWhile fun b => b ≠ 35 ∧ b ≠ 38).length)) := by
  have hsuffix := (strstr_eq_some h).2.1.length_le
  have htake := (List.takeWhile_prefix (l := rest) fun b => b ≠ 35 ∧ b ≠ 38).length_le
  rw [List.length_append, List.length_cons] at hsuffix
  apply parse_found
  · simp only [queryParseKeyValue, h, List.drop_left]
  · omega

theorem parse_end {query : CString} (h : strstr key query = some key) :
    parse query key = throw .outOfBounds := by
  have hdrop : key.drop key.length = [] := List.drop_length
  simp only [parse, queryParseKeyValue, h, hdrop]

theorem parse_absent {query : CString} (h : strstr key query = none) :
    parse query key = pure (-1, none) := by
  simp only [parse, queryParseKeyValue, h]

theorem strstr_cases (query key : CString) :
    strstr key query = none ∨ strstr key query = some key ∨
      ∃ c rest, strstr key query = some (key ++ c :: rest) := by
  cases h : strstr key query with
  | none => exact .inl rfl
  | some t =>
    obtain ⟨⟨y, rfl⟩, -, -⟩ := strstr_eq_some h
    cases y with
    | nil => exact .inr (.inl (by rw [List.append_nil]))
    | cons c rest => exact .inr (.inr ⟨c, rest, rfl⟩)

theorem parse_congr {query query' : CString} (h : strstr key query = strstr key query') :
    parse query key = parse query' key := by
  simp only [parse, queryParseKeyValue, h]

theorem parse_absent_iff {query : CString} (hlen : query.length < 2 ^ 31) :
    parse query key = pure (-1, none) ↔ ¬ key <:+: query := by
  rw [← strstr_eq_none]
  rcases strstr_cases query key with h | h | ⟨c, rest, h⟩
  · simp [parse_absent h, h]
  · simp [parse_end h, h, pure, Except.pure, throw, throwThe, MonadExceptOf.throw]
  · simp [parse_mention h hlen, h, pure, Except.pure]

/-- The walk stays inside unless the only mention is at the very end. -/
theorem parse_inside_iff {query : CString} (hlen : query.length < 2 ^ 31) :
    (∃ r, parse query key = pure r) ↔
      (key <:+: query → ∃ x c y, query = x ++ key ++ c :: y) := by
  rcases strstr_cases query key with h | h | ⟨c, rest, h⟩
  · rw [parse_absent h]
    exact iff_of_true ⟨_, rfl⟩ fun hin => absurd hin (strstr_eq_none.mp h)
  · rw [parse_end h]
    obtain ⟨-, hsuffix, hfirst⟩ := strstr_eq_some h
    refine iff_of_false ?_ fun himp => ?_
    · rintro ⟨r, hr⟩
      cases hr
    · obtain ⟨x, c, y, hxy⟩ := himp hsuffix.isInfix
      have := hfirst x (c :: y) (by rw [hxy, List.append_assoc])
      simp only [List.length_append, List.length_cons] at this
      omega
  · rw [parse_mention h hlen]
    obtain ⟨-, ⟨x, hx⟩, -⟩ := strstr_eq_some h
    exact iff_of_true ⟨_, rfl⟩ fun _ => ⟨x, c, rest, by rw [List.append_assoc, hx]⟩

end Value

/-! ## Joined pairs -/

section Pairs
variable {key value : CString}

def following : List (CString × CString) → CString
  | [] => []
  | p :: rest => 38 :: queryOf (p :: rest)

theorem queryOf_cons (p : CString × CString) (rest : List (CString × CString)) :
    queryOf (p :: rest) = p.1 ++ 61 :: (p.2 ++ following rest) := by
  cases rest with
  | nil => simp [queryOf, pairText, following]
  | cons q rest => simp [queryOf, pairText, following]

theorem length_queryOf (p : CString × CString) (rest : List (CString × CString)) :
    (queryOf rest).length ≤ (queryOf (p :: rest)).length := by
  have hrest : (queryOf rest).length ≤ (following rest).length := by
    cases rest with
    | nil => exact Nat.le_refl 0
    | cons q rest => exact Nat.le_succ _
  rw [queryOf_cons, List.length_append, List.length_cons, List.length_append]
  omega

theorem takeWhile_following {s : CString} (hs : ∀ b ∈ s, b ≠ 38 ∧ b ≠ 35)
    (rest : List (CString × CString)) :
    (s ++ following rest).takeWhile (fun b => b ≠ 35 ∧ b ≠ 38) = s := by
  have hall : ∀ b ∈ s, decide (b ≠ 35 ∧ b ≠ 38) = true := by
    intro b hb
    exact decide_eq_true ⟨(hs b hb).2, (hs b hb).1⟩
  rw [List.takeWhile_append_of_pos hall]
  cases rest with
  | nil => simp [following]
  | cons p rest => simp [following]

theorem strstr_following (hkey : Plain key) (hne : key ≠ []) (s : CString)
    (rest : List (CString × CString)) :
    strstr key (s ++ following rest) =
      ((strstr key s).map (· ++ following rest)).or (strstr key (queryOf rest)) := by
  cases rest with
  | nil => simp [following, queryOf, strstr, hne]
  | cons p rest => exact strstr_append_cons fun h => (hkey _ h).2.1 rfl

theorem parse_pair {query rest : CString} {c : UInt8} {pairs : List (CString × CString)}
    (hrest : ∀ b ∈ rest, b ≠ 38 ∧ b ≠ 35) (hlen : query.length < 2 ^ 31)
    (h : strstr key query = some (key ++ c :: (rest ++ following pairs))) :
    parse query key = pure (0, some (value, value.length)) ↔ rest = value := by
  rw [parse_mention h hlen, takeWhile_following hrest]
  constructor
  · intro heq
    exact congrArg Prod.fst (Option.some.inj (congrArg Prod.snd (Except.ok.inj heq)))
  · rintro rfl
    rfl

theorem parse_end_ne {query : CString} (h : strstr key query = some key) :
    parse query key ≠ pure (0, some (value, value.length)) := by
  rw [parse_end h]
  exact fun heq => by cases heq

theorem append_cons_ne (hvalue : Plain value) (x y : CString) : x ++ 61 :: y ≠ value := by
  intro h
  exact (hvalue 61 (by rw [← h]; simp)).1 rfl

theorem pairText_stops {p : CString × CString} (h1 : Plain p.1) (h2 : Plain p.2) {x : CString}
    (hx : ∀ b ∈ x, b ∈ p.1) : ∀ b ∈ x ++ 61 :: p.2, b ≠ 38 ∧ b ≠ 35 := by
  intro b hb
  rcases List.mem_append.mp hb with hb | hb
  · exact ⟨(h1 b (hx b hb)).2.1, (h1 b (hx b hb)).2.2.1⟩
  · rcases List.mem_cons.mp hb with rfl | hb
    · exact ⟨by decide, by decide⟩
    · exact ⟨(h2 b hb).2.1, (h2 b hb).2.2.1⟩

theorem parse_in_key {p : CString × CString} {rest : List (CString × CString)} {found : CString}
    (h1 : Plain p.1) (h2 : Plain p.2) (hkey : Plain key) (hvalue : Plain value)
    (hlen : (queryOf (p :: rest)).length < 2 ^ 31) (hfound : strstr key p.1 = some found) :
    parse (queryOf (p :: rest)) key = pure (0, some (value, value.length)) ↔
      found = key ∧ p.2 = value := by
  have hsearch : strstr key (queryOf (p :: rest)) =
      some (found ++ 61 :: (p.2 ++ following rest)) := by
    rw [queryOf_cons, strstr_append_cons fun h => (hkey _ h).1 rfl, hfound]
    rfl
  obtain ⟨⟨y, rfl⟩, hsuffix, -⟩ := strstr_eq_some hfound
  cases y with
  | nil =>
    rw [List.append_nil] at hsearch ⊢
    rw [parse_pair (fun b hb => ⟨(h2 b hb).2.1, (h2 b hb).2.2.1⟩) hlen hsearch]
    exact (and_iff_right rfl).symm
  | cons c y =>
    -- the key goes on behind the mention, and the `=` ends up in the value
    have hy : ∀ b ∈ y, b ∈ p.1 := fun b hb => hsuffix.subset (by simp [hb])
    have hsearch' : strstr key (queryOf (p :: rest)) =
        some (key ++ c :: ((y ++ 61 :: p.2) ++ following rest)) := by
      rw [hsearch]
      simp
    rw [parse_pair (pairText_stops h1 h2 hy) hlen hsearch']
    apply iff_of_false (append_cons_ne hvalue y p.2)
    rintro ⟨h, -⟩
    simp at h

theorem parse_in_value {p : CString × CString} {rest : List (CString × CString)}
    {found : CString} (hall : ∀ q ∈ p :: rest, Plain q.1 ∧ Plain q.2) (hkey : Plain key)
    (hvalue : Plain value) (hlen : (queryOf (p :: rest)).length < 2 ^ 31)
    (hnone : strstr key p.1 = none) (hfound : strstr key p.2 = some found) :
    parse (queryOf (p :: rest)) key = pure (0, some (value, value.length)) ↔
      ∃ c, found = key ++ c :: value := by
  have hne : key ≠ [] := by
    rintro rfl
    simp [strstr_nil] at hnone
  have hsearch : strstr key (queryOf (p :: rest)) = some (found ++ following rest) := by
    rw [queryOf_cons, strstr_append_cons fun h => (hkey _ h).1 rfl, hnone,
      strstr_following hkey hne, hfound]
    rfl
  have h2 := (hall p List.mem_cons_self).2
  obtain ⟨⟨y, rfl⟩, hsuffix, -⟩ := strstr_eq_some hfound
  cases y with
  | nil =>
    have hnever : ¬ ∃ c, key ++ [] = key ++ c :: value := by simp
    rw [List.append_nil] at hsearch hnever ⊢
    refine iff_of_false ?_ hnever
    -- the skipped byte is the NUL or the `&` behind the pair
    cases rest with
    | nil =>
      rw [following, List.append_nil] at hsearch
      exact parse_end_ne hsearch
    | cons q rest =>
      have hq := hall q (by simp)
      have hnext : strstr key (queryOf (p :: q :: rest)) =
          some (key ++ 38 :: ((q.1 ++ 61 :: q.2) ++ following rest)) := by
        rw [hsearch, following, queryOf_cons q rest]
        simp
      rw [parse_pair (pairText_stops hq.1 hq.2 fun b hb => hb) hlen hnext]
      exact append_cons_ne hvalue q.1 q.2
  | cons c y =>
    have hy : ∀ b ∈ y, b ≠ 38 ∧ b ≠ 35 := by
      intro b hb
      have hmem : b ∈ p.2 := hsuffix.subset (by simp [hb])
      exact ⟨(h2 b hmem).2.1, (h2 b hmem).2.2.1⟩
    have hsearch' : strstr key (queryOf (p :: rest)) =
        some (key ++ c :: (y ++ following rest)) := by
      rw [hsearch]
      simp
    rw [parse_pair hy hlen hsearch']
    simp

theorem parse_value_iff (hkey : Plain key) (hvalue : Plain value)
    (pairs : List (CString × CString)) (hall : ∀ p ∈ pairs, Plain p.1 ∧ Plain p.2)
    (hlen : (queryOf pairs).length < 2 ^ 31) :
    parse (queryOf pairs) key = pure (0, some (value, value.length)) ↔
      FirstMention key value pairs := by
  induction pairs with
  | nil =>
    refine iff_of_false ?_ id
    by_cases hne : key = []
    · subst hne
      exact parse_end_ne (strstr_nil [])
    · have hnone : strstr key (queryOf []) = none := if_neg hne
      rw [parse_absent hnone]
      exact fun heq => by cases heq
  | cons p rest ih =>
    obtain ⟨h1, h2⟩ := hall p List.mem_cons_self
    rw [FirstMention]
    cases hone : strstr key p.1 with
    | some found => exact parse_in_key h1 h2 hkey hvalue hlen hone
    | none =>
      cases htwo : strstr key p.2 with
      | some found => exact parse_in_value hall hkey hvalue hlen hone htwo
      | none =>
        have hne : key ≠ [] := by
          rintro rfl
          simp [strstr_nil] at hone
        have hskip : strstr key (queryOf (p :: rest)) = strstr key (queryOf rest) := by
          rw [queryOf_cons, strstr_append_cons fun h => (hkey _ h).1 rfl, hone,
            strstr_following hkey hne, htwo]
          rfl
        rw [parse_congr hskip]
        apply ih
        · exact fun q hq => hall q (List.mem_cons_of_mem p hq)
        · exact (length_queryOf p rest).trans_lt hlen

end Pairs

/-- A key that is there is answered with its value exactly when its first mention leads to
that value, one that is not exactly when it is not mentioned at all, and the walk stays in the
query exactly when the key is not mentioned at its end only. An `int` counts the bytes. -/
theorem query_parsed_iff (pairs : List (CString × CString)) (key query : CString)
    (hplain : ∀ p ∈ pairs, Plain p.1 ∧ Plain p.2) (hlen : (queryOf pairs).length < 2 ^ 31)
    (hquery : query.length < 2 ^ 31) :
    (∀ value, (key, value) ∈ pairs →
      (parse (queryOf pairs) key = pure (0, some (value, value.length)) ↔
        FirstMention key value pairs)) ∧
    (key ∉ pairs.map Prod.fst →
      (parse (queryOf pairs) key = pure (-1, none) ↔ ¬ key <:+: queryOf pairs)) ∧
    ((∃ r, parse query key = pure r) ↔ (key <:+: query → ∃ x c y, query = x ++ key ++ c :: y)) := by
  refine ⟨?_, ?_, parse_inside_iff hquery⟩
  · intro value hmem
    exact parse_value_iff (hplain _ hmem).1 (hplain _ hmem).2 pairs hplain hlen
  · intro _
    exact parse_absent_iff hlen

def pvQuery : List (CString × CString) := [(cstr "page", cstr "2"), (cstr "cmd", cstr "pv")]

set_option maxRecDepth 2000 in
theorem query_parsed_cmd_page :
    (∀ p ∈ pvQuery, Plain p.1 ∧ Plain p.2) ∧
      parse (queryOf pvQuery) (cstr "cmd") = pure (0, some (cstr "pv", 2)) ∧
      parse (queryOf pvQuery) (cstr "start") = pure (-1, none) := by
  have hplain : ∀ p ∈ pvQuery, Plain p.1 ∧ Plain p.2 := by decide
  have hlen : (queryOf pvQuery).length < 2 ^ 31 := by decide
  have hparsed := fun key => query_parsed_iff pvQuery key [] hplain hlen (by decide)
  refine ⟨hplain, ?_, ?_⟩
  · apply ((hparsed (cstr "cmd")).1 (cstr "pv") (by simp [pvQuery])).mpr
    change cstr "cmd" = cstr "cmd" ∧ cstr "pv" = cstr "pv"
    exact ⟨rfl, rfl⟩
  · exact ((hparsed (cstr "start")).2.1 (by decide)).mpr (by decide)

/-- A key inside another key, a key inside a value, and a key without anything behind it. -/
theorem query_misread :
    parse (queryOf [(cstr "xcmd", cstr "a"), (cstr "cmd", cstr "pv")]) (cstr "cmd") =
      pure (0, some (cstr "a", 1)) ∧
    parse (queryOf [(cstr "cmds", cstr "pv")]) (cstr "cmd") =
      pure (0, some (cstr "=pv", 3)) ∧
    parse (queryOf [(cstr "a", cstr "cmd")]) (cstr "cmd") = throw .outOfBounds :=
  ⟨parse_found rfl (by decide), parse_found rfl (by decide), rfl⟩

end QueryStrings
