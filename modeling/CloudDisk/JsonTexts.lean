import CloudDisk.JsonBodies

/-! # JSON as the client writes it

`JSON.stringify` of an object whose members are strings, in UTF-8, and what the parser of the
server makes of it: the same members, each cut at its first NUL. -/
namespace JsonTexts

open ByteStrings JsonBodies

def hexLower (n : ℕ) : UInt8 := if n < 10 then UInt8.ofNat (48 + n) else UInt8.ofNat (87 + n)

/-- The letter of the short escape of a control character. -/
def shortEscape (b : UInt8) : Option UInt8 :=
  if b = 8 then some 98
  else if b = 9 then some 116
  else if b = 10 then some 110
  else if b = 12 then some 102
  else if b = 13 then some 114
  else if b = quote ∨ b = backslash then some b
  else none

def escapeByte (b : UInt8) : List UInt8 :=
  match shortEscape b with
  | some c => [backslash, c]
  | none =>
    if b < 32 then
      [backslash, letterU, 48, 48, hexLower (b.toNat / 16), hexLower (b.toNat % 16)]
    else [b]

def escape (s : CString) : List UInt8 := s.flatMap escapeByte

def stringText (s : CString) : List UInt8 := quote :: (escape s ++ [quote])

def memberText (p : CString × CString) : List UInt8 := stringText p.1 ++ colon :: stringText p.2

/-- Members with commas between them, and the closing brace. -/
def membersText : List (CString × CString) → List UInt8
  | [] => [closeBrace]
  | [p] => memberText p ++ [closeBrace]
  | p :: rest => memberText p ++ comma :: membersText rest

def stringify (members : List (CString × CString)) : List UInt8 := openBrace :: membersText members

/-! ## Strings -/

theorem hexDigit_hexLower : ∀ n < 16, hexDigit (hexLower n) = some n := by decide

theorem hexLower_plain : ∀ n < 16, hexLower n ≠ quote ∧ hexLower n ≠ backslash := by decide

theorem escaped_shortEscape {b c : UInt8} (h : shortEscape b = some c) :
    c ≠ letterU ∧ escaped c = some b := by
  unfold shortEscape at h
  split_ifs at h with h8 h9 h10 h12 h13 hq
  · obtain rfl := Option.some.inj h
    exact ⟨by decide, by rw [h8]; decide⟩
  · obtain rfl := Option.some.inj h
    exact ⟨by decide, by rw [h9]; decide⟩
  · obtain rfl := Option.some.inj h
    exact ⟨by decide, by rw [h10]; decide⟩
  · obtain rfl := Option.some.inj h
    exact ⟨by decide, by rw [h12]; decide⟩
  · obtain rfl := Option.some.inj h
    exact ⟨by decide, by rw [h13]; decide⟩
  · obtain rfl := Option.some.inj h
    rcases hq with rfl | rfl
    · exact ⟨by decide, by decide⟩
    · exact ⟨by decide, by decide⟩

theorem plain_of_shortEscape {b : UInt8} (h : shortEscape b = none) :
    b ≠ quote ∧ b ≠ backslash := by
  unfold shortEscape at h
  split_ifs at h with _ _ _ _ _ hq
  exact not_or.mp hq

theorem parseHex4_control {b : UInt8} (h : b < 32) :
    parseHex4 48 48 (hexLower (b.toNat / 16)) (hexLower (b.toNat % 16)) = b.toNat := by
  have hb : b.toNat < 32 := by simpa using UInt8.lt_iff_toNat_lt.mp h
  have hzero : hexDigit 48 = some 0 := by decide
  simp only [parseHex4, hzero, hexDigit_hexLower _ (show b.toNat / 16 < 16 by omega),
    hexDigit_hexLower _ (show b.toNat % 16 < 16 by omega)]
  omega

theorem unescape_escapeByte (b : UInt8) (rest : List UInt8) :
    unescape (escapeByte b ++ rest) = (unescape rest).map (b :: ·) := by
  unfold escapeByte
  cases hs : shortEscape b with
  | some c =>
    obtain ⟨hu, hc⟩ := escaped_shortEscape hs
    rw [List.cons_append, List.cons_append, List.nil_append, unescape.eq_def]
    simp [hu, hc]
  | none =>
    by_cases hlt : b < 32
    · have hb : b.toNat < 32 := by simpa using UInt8.lt_iff_toNat_lt.mp hlt
      have hlow : isLowSurrogate b.toNat = false := by
        simp only [isLowSurrogate, decide_eq_false_iff_not]
        omega
      have hhigh : isHighSurrogate b.toNat = false := by
        simp only [isHighSurrogate, decide_eq_false_iff_not]
        omega
      have hcode : encodeUtf8 b.toNat = [b] := by
        rw [encodeUtf8, if_pos (by omega), UInt8.ofNat_toNat]
      rw [unescape.eq_def]
      simp [hlt, parseHex4_control hlt, hlow, hhigh, hcode]
    · simp only [hlt, if_false, List.cons_append, List.nil_append]
      rw [unescape.eq_def]
      simp [(plain_of_shortEscape hs).2]

theorem literalBytes_plain {b : UInt8} (hq : b ≠ quote) (hb : b ≠ backslash) (rest : List UInt8) :
    literalBytes (b :: rest) = (literalBytes rest).map fun q => (b :: q.1, q.2) := by
  rw [literalBytes.eq_def]
  simp [hq, hb]

theorem literalBytes_escapeByte (b : UInt8) (rest : List UInt8) :
    literalBytes (escapeByte b ++ rest) =
      (literalBytes rest).map fun q => (escapeByte b ++ q.1, q.2) := by
  have hpair : ∀ c rest', literalBytes (backslash :: c :: rest') =
      (literalBytes rest').map fun q => (backslash :: c :: q.1, q.2) := by
    intro c rest'
    rw [literalBytes.eq_def]
    simp [show backslash ≠ quote by decide]
  unfold escapeByte
  cases hs : shortEscape b with
  | some c => exact hpair c rest
  | none =>
    by_cases hlt : b < 32
    · have hb : b.toNat < 32 := by simpa using UInt8.lt_iff_toNat_lt.mp hlt
      obtain ⟨h1, h2⟩ := hexLower_plain _ (show b.toNat / 16 < 16 by omega)
      obtain ⟨h3, h4⟩ := hexLower_plain _ (show b.toNat % 16 < 16 by omega)
      have hz : (48 : UInt8) ≠ quote ∧ (48 : UInt8) ≠ backslash := by decide
      simp only [hlt, if_true, List.cons_append, List.nil_append, hpair,
        literalBytes_plain hz.1 hz.2, literalBytes_plain h1 h2, literalBytes_plain h3 h4,
        Option.map_map, Function.comp_def]
    · obtain ⟨hq, hb⟩ := plain_of_shortEscape hs
      simp only [hlt, if_false, List.cons_append, List.nil_append, literalBytes_plain hq hb]

theorem unescape_escape (s : CString) : unescape (escape s) = some s := by
  induction s with
  | nil => rfl
  | cons b s ih =>
    rw [escape, List.flatMap_cons, unescape_escapeByte]
    change (unescape (escape s)).map (b :: ·) = _
    rw [ih]
    rfl

theorem literalBytes_escape (s : CString) (rest : List UInt8) :
    literalBytes (escape s ++ quote :: rest) = some (escape s, rest) := by
  induction s with
  | nil =>
    rw [escape, List.flatMap_nil, List.nil_append, literalBytes.eq_def]
    exact if_pos rfl
  | cons b s ih =>
    rw [escape, List.flatMap_cons, List.append_assoc, literalBytes_escapeByte]
    change (literalBytes (escape s ++ quote :: rest)).map _ = _
    rw [ih]
    rfl

theorem parseString_stringText (s : CString) (rest : List UInt8) :
    parseString (stringText s ++ rest) = some (untilNul s, rest) := by
  have htext : stringText s ++ rest = quote :: (escape s ++ quote :: rest) := by simp [stringText]
  rw [htext, parseString, if_pos rfl, literalBytes_escape]
  simp [unescape_escape]

theorem escapeByte_visible (b : UInt8) : (0 : UInt8) ∉ escapeByte b := by
  unfold escapeByte
  cases hs : shortEscape b with
  | some c =>
    have hc : c ≠ 0 := by
      rintro rfl
      exact absurd (escaped_shortEscape hs).2 (by simp [escaped, quote, backslash])
    simp [hc.symm, backslash]
  | none =>
    have hhex : ∀ n < 16, hexLower n ≠ 0 := by decide
    by_cases hlt : b < 32
    · have hb : b.toNat < 32 := by simpa using UInt8.lt_iff_toNat_lt.mp hlt
      simp [hlt, backslash, letterU, (hhex (b.toNat / 16) (by omega)).symm,
        (hhex (b.toNat % 16) (by omega)).symm]
    · have hb : b ≠ 0 := by
        rintro rfl
        exact hlt (by decide)
      simp [hlt, hb.symm]

theorem escape_visible (s : CString) : (0 : UInt8) ∉ escape s := by
  intro h
  obtain ⟨b, -, hb⟩ := List.mem_flatMap.mp h
  exact escapeByte_visible b hb

theorem memberText_visible (p : CString × CString) : (0 : UInt8) ∉ memberText p := by
  simp [memberText, stringText, escape_visible, quote, colon]

/-! ## Objects -/

theorem skip_visible {b : UInt8} (h : 32 < b) (rest : List UInt8) :
    bufferSkipWhitespace (b :: rest) = b :: rest := by
  have hb : ¬ b ≤ 32 := UInt8.not_le.mpr h
  simp [bufferSkipWhitespace, hb]

theorem parseScalar_visible {b : UInt8} (hn : b ≠ 110) (hf : b ≠ 102) (ht : b ≠ 116)
    (rest : List UInt8) : parseScalar (b :: rest) =
      if b = quote then some ((parseString (b :: rest)).map fun q => (.string q.1, q.2))
      else if b = minus ∨ isDigit b then some (parseNumber (b :: rest)) else none := by
  have hnull : (b :: rest).take 4 ≠ cstr "null" := fun h => hn (List.cons.inj h).1
  have hfalse : (b :: rest).take 5 ≠ cstr "false" := fun h => hf (List.cons.inj h).1
  have htrue : (b :: rest).take 4 ≠ cstr "true" := fun h => ht (List.cons.inj h).1
  rw [parseScalar, if_neg hnull, if_neg hfalse, if_neg htrue]

theorem parseValue_stringText (levels : ℕ) (s : CString) (rest : List UInt8) :
    parseValue levels (stringText s ++ rest) = some (.string (untilNul s), rest) := by
  have hscalar : parseScalar (stringText s ++ rest) =
      some (some (.string (untilNul s), rest)) := by
    have hstring := parseString_stringText s rest
    rw [stringText, List.cons_append] at hstring ⊢
    rw [parseScalar_visible (by decide) (by decide) (by decide), if_pos rfl, hstring]
    rfl
  cases levels with
  | zero => simp only [parseValue, hscalar, Option.getD_some]
  | succ levels => simp only [parseValue, hscalar]

def readMember (p : CString × CString) : CString × Json := (untilNul p.1, .string (untilNul p.2))

theorem parseMember_memberText (levels : ℕ) (p : CString × CString) (rest : List UInt8) :
    parseMember (parseValue levels) (memberText p ++ rest) = some (readMember p, rest) := by
  have hskip : ∀ l, bufferSkipWhitespace (stringText p.2 ++ l) = stringText p.2 ++ l :=
    fun l => skip_visible (by decide) _
  have htext : memberText p ++ rest = stringText p.1 ++ colon :: (stringText p.2 ++ rest) := by
    simp [memberText]
  simp only [htext, parseMember, parseString_stringText, skip_visible (show 32 < colon by decide),
    if_true, hskip, parseValue_stringText, Option.map_some, readMember]

theorem memberText_skip (p : CString × CString) (rest : List UInt8) :
    bufferSkipWhitespace (memberText p ++ rest) = memberText p ++ rest :=
  skip_visible (by decide) _

theorem parseEntries_membersText (levels : ℕ) {n : ℕ} {members : List (CString × CString)}
    (hne : members ≠ []) (hn : members.length ≤ n) (rest : List UInt8) :
    parseEntries (parseMember (parseValue levels)) closeBrace n (membersText members ++ rest) =
      some (members.map readMember, rest) := by
  induction members generalizing n with
  | nil => exact absurd rfl hne
  | cons p members ih =>
    rw [List.length_cons] at hn
    obtain ⟨n, rfl⟩ : ∃ k, n = k + 1 := ⟨n - 1, by omega⟩
    cases members with
    | nil =>
      have htext : membersText [p] ++ rest = memberText p ++ closeBrace :: rest := by
        simp [membersText]
      simp only [htext, parseEntries, memberText_skip, parseMember_memberText,
        skip_visible (show 32 < closeBrace by decide), show closeBrace ≠ comma by decide, if_false,
        if_true, List.map_cons, List.map_nil]
    | cons q members =>
      have htext : membersText (p :: q :: members) ++ rest =
          memberText p ++ comma :: (membersText (q :: members) ++ rest) := by simp [membersText]
      simp only [htext, parseEntries, memberText_skip, parseMember_memberText,
        skip_visible (show 32 < comma by decide), if_true, ih (n := n) (by simp) (by omega),
        Option.map_some, List.map_cons]

theorem membersText_length (members : List (CString × CString)) :
    members.length < (membersText members).length := by
  induction members with
  | nil => simp [membersText]
  | cons p members ih =>
    cases members with
    | nil =>
      simp only [membersText, List.length_append, List.length_cons, List.length_nil, memberText,
        stringText]
      omega
    | cons q members =>
      simp only [membersText, List.length_append, List.length_cons] at ih ⊢
      omega

theorem parseList_membersText (levels : ℕ) (members : List (CString × CString))
    (rest : List UInt8) :
    parseList (parseMember (parseValue levels)) closeBrace (membersText members ++ rest) =
      some (members.map readMember, rest) := by
  cases members with
  | nil =>
    have hskip := skip_visible (show 32 < closeBrace by decide) rest
    simp only [parseList, membersText, List.cons_append, List.nil_append, hskip, if_true,
      List.map_nil]
  | cons p members =>
    have hlen : (p :: members).length ≤ (membersText (p :: members) ++ rest).length := by
      have := membersText_length (p :: members)
      rw [List.length_append]
      omega
    obtain ⟨text, htext⟩ : ∃ text, membersText (p :: members) ++ rest = quote :: text := by
      cases members <;> exact ⟨_, rfl⟩
    have hentries := parseEntries_membersText levels (by simp) hlen rest
    rw [htext] at hentries ⊢
    simp only [parseList, skip_visible (show 32 < quote by decide),
      show quote ≠ closeBrace by decide, if_false, hentries]

theorem stringify_visible (members : List (CString × CString)) :
    (0 : UInt8) ∉ stringify members := by
  have hmembers : (0 : UInt8) ∉ membersText members := by
    induction members with
    | nil => simp [membersText, closeBrace]
    | cons p members ih =>
      cases members with
      | nil => simp [membersText, memberText_visible, closeBrace]
      | cons q members => simp [membersText, memberText_visible, comma, ih]
  simp [stringify, openBrace, hmembers]

theorem cJsonParse_stringify (members : List (CString × CString)) :
    cJsonParse (stringify members) = some (.object (members.map readMember)) := by
  have hbom : skipUtf8Bom (openBrace :: (membersText members ++ [0])) =
      openBrace :: (membersText members ++ [0]) := by
    apply if_neg
    intro h
    exact absurd (List.cons.inj h.2).1 (by decide)
  have hscalar : parseScalar (openBrace :: (membersText members ++ [0])) = none := by
    rw [parseScalar_visible (by decide) (by decide) (by decide), if_neg (by decide),
      if_neg (by decide)]
  have hlimit : nestingLimit = 999 + 1 := rfl
  rw [cJsonParse, stringify, List.cons_append, hbom, skip_visible (by decide), hlimit, parseValue]
  simp only [hscalar, show openBrace ≠ openBracket by decide, if_false, if_true,
    parseList_membersText, Option.map_some]

end JsonTexts
