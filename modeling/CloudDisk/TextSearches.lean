import CloudDisk.ByteBuffers
import CloudDisk.UploadBodies
import CloudDisk.UploadedRows

/-! # Searching in names and bodies

`memstr` looks for the boundary in the bytes of an upload, and `get_file_suffix` for the last dot
in the name of a file. Both keep lengths in an `int`, which a string of 2 GiB leaves, and the
suffix goes into an array of eight bytes. -/
namespace TextSearches

open ByteStrings CheckedCode ByteBuffers DiskHandlers UploadedRows

/-! ## A byte string in a block of bytes -/

/-- `memcmp(cur, substr, sublen) == 0`; a negative number is a `size_t` beyond any block. -/
def memcmp (cur : List UInt8) (substr : CString) (sublen : ℤ) : Checked Bool :=
  if sublen < 0 ∨ cur.length < sublen.toNat then throw .outOfBounds
  else pure (decide (cur.take sublen.toNat = substr.take sublen.toNat))

/-- The loop of `memstr` at the position `cur`, with so many positions left. -/
def memstrLoop (substr : CString) (sublen : ℤ) : ℕ → List UInt8 → Checked (Option ℕ)
  | 0, _ => pure none
  | _ + 1, [] => throw .outOfBounds
  | n + 1, b :: cur =>
    if substr.head? = some b then do
      if ← memcmp (b :: cur) substr sublen then return some 0
      else return (← memstrLoop substr sublen n cur).map (· + 1)
    else do return (← memstrLoop substr sublen n cur).map (· + 1)

def memstr (fullData : List UInt8) (fullDataLen : ℤ) (substr : CString) : Checked (Option ℕ) :=
  if fullDataLen ≤ 0 ∨ substr = [] then pure none
  else do
    let sublen := toInt32 substr.length
    let lastPossible ← asInt ((← asInt (fullDataLen - sublen)) + 1)
    memstrLoop substr sublen lastPossible.toNat fullData

section Memstr
variable {data : List UInt8} {substr : CString} {n k : ℕ}

theorem memcmp_eq {cur : List UInt8} (hle : k ≤ substr.length) : memcmp cur substr k =
    if cur.length < k then throw .outOfBounds else pure (decide (substr.take k <+: cur)) := by
  have hequal : cur.take k = substr.take k ↔ substr.take k <+: cur := by
    rw [List.prefix_iff_eq_take, List.length_take_of_le hle, eq_comm]
  have hneg : ¬ (k : ℤ) < 0 := by omega
  simp only [memcmp, hneg, false_or, Int.toNat_natCast, hequal]

theorem memstrLoop_eq_search (hk : 0 < k) (hle : k ≤ substr.length) :
    memstrLoop substr k n data = search (substr.take k) n data := by
  have hhead : (substr.take k).head? = substr.head? := by
    rw [List.head?_take, if_neg (by omega)]
  induction n generalizing data with
  | zero => rfl
  | succ n ih =>
    cases data with
    | nil => rfl
    | cons b cur =>
      rw [memstrLoop, search, hhead, List.length_take_of_le hle, memcmp_eq hle, ih]
      by_cases hfirst : substr.head? = some b
      · rw [if_pos hfirst, if_pos hfirst]
        by_cases hshort : (b :: cur).length < k
        · rw [if_pos hshort, if_pos hshort]
          rfl
        · rw [if_neg hshort, if_neg hshort]
          by_cases hit : substr.take k <+: b :: cur
          · rw [if_pos hit, decide_eq_true hit]
            rfl
          · rw [if_neg hit, decide_eq_false hit]
            rfl
      · rw [if_neg hfirst, if_neg hfirst]

theorem memstrLoop_beyond {sublen : ℤ} {Q : Option ℕ → Prop} (hn : data.length < n)
    (h : Returns (memstrLoop substr sublen n data) Q) : ∃ m, Q (some m) := by
  induction data generalizing n Q with
  | nil =>
    cases n with
    | zero => exact absurd hn (Nat.not_lt_zero _)
    | succ n => exact absurd h returns_throw
  | cons b cur ih =>
    cases n with
    | zero => exact absurd hn (Nat.not_lt_zero _)
    | succ n =>
      have hlater : Returns (do return (← memstrLoop substr sublen n cur).map (· + 1)) Q →
          ∃ m, Q (some m) := by
        rw [returns_bind]
        intro hret
        simp only [returns_pure] at hret
        obtain ⟨m, hm⟩ := ih (Nat.lt_of_succ_lt_succ hn) hret
        exact ⟨m + 1, hm⟩
      rw [memstrLoop] at h
      split at h
      · rw [returns_bind] at h
        obtain ⟨hit, -, h⟩ := h
        cases hit with
        | true => exact ⟨0, returns_pure.mp h⟩
        | false => exact hlater h
      · exact hlater h

theorem memstr_eq_loop {len : ℤ} (hpos : 0 < len) (hne : substr ≠ []) :
    memstr data len substr =
      (do
        let lastPossible ← asInt ((← asInt (len - toInt32 substr.length)) + 1)
        memstrLoop substr (toInt32 substr.length) lastPossible.toNat data) := by
  rw [memstr, if_neg]
  rintro (h | h)
  · omega
  · exact hne h

/-- What is looked for are the bytes that the length, as an `int`, still counts. -/
theorem memstr_eq_search {len : ℤ} (hpos : 0 < len) (hint : IsInt len)
    (hk : toInt32 substr.length = k) (hk0 : 0 < k) :
    memstr data len substr = search (substr.take k) (len - k + 1).toNat data := by
  obtain ⟨-, hhigh, q, hq⟩ := toInt32_spec substr.length
  rw [hk] at hhigh hq
  have hle : k ≤ substr.length := by omega
  have hne : substr ≠ [] := by
    rintro rfl
    rw [List.length_nil] at hle
    omega
  have hlen := hint.2
  have hfirst : IsInt (len - k) := ⟨by omega, by omega⟩
  have hsecond : IsInt (len - k + 1) := ⟨by omega, by omega⟩
  rw [memstr_eq_loop hpos hne, hk, asInt_eq hfirst]
  change asInt (len - k + 1) >>= _ = _
  rw [asInt_eq hsecond]
  exact memstrLoop_eq_search hk0 hle

/-- In `recv_save_file` the boundary is a line of at most 511 bytes. -/
theorem memstr_eq_upload {len : ℤ} (hint : IsInt len) (hlen : substr.length < 2 ^ 31) :
    memstr data len substr = UploadBodies.memstr data len substr := by
  by_cases h : len ≤ 0 ∨ substr = []
  · rw [memstr, if_pos h, UploadBodies.memstr, if_pos h]
  · obtain ⟨hpos, hne⟩ := not_or.mp h
    have hk : toInt32 substr.length = substr.length := toInt32_eq (by omega) (by omega)
    rw [memstr_eq_search (by omega) hint hk (List.length_pos_of_ne_nil hne), List.take_length,
      UploadBodies.memstr, if_neg h]

theorem memstr_eq_search_all (hpos : 0 < data.length) (hint : data.length < 2 ^ 31)
    (hk : toInt32 substr.length = k) (hk0 : 0 < k) :
    memstr data data.length substr =
      search (substr.take k) (data.length + 1 - k) data := by
  have hlast : (data.length - k + 1 : ℤ).toNat = data.length + 1 - k := by omega
  rw [memstr_eq_search (by omega) ⟨by omega, by omega⟩ hk hk0, hlast]

theorem memstr_beyond (hpos : 0 < data.length) (hne : substr ≠ [])
    (hk : toInt32 substr.length ≤ 0) {Q : Option ℕ → Prop}
    (h : Returns (memstr data data.length substr) Q) : ∃ m, Q (some m) := by
  rw [memstr_eq_loop (by omega) hne, returns_bind, returns_asInt] at h
  obtain ⟨-, h⟩ := h
  rw [returns_bind, returns_asInt] at h
  exact memstrLoop_beyond (by omega) h.2

theorem finds_long (hlong : data.length < substr.length) {o : Option ℕ} :
    Finds substr data o ↔ o = none := by
  cases o with
  | none =>
    refine iff_of_true (fun h => ?_) rfl
    have hle := h.length_le
    omega
  | some m =>
    refine iff_of_false (fun h => ?_) (by simp)
    have hle := h.1.length_le
    rw [List.length_drop] at hle
    omega

/-- A string of at least 2 GiB occurs in no block, but what is looked for may. -/
theorem memstr_long (hpos : 0 < data.length) (hint : data.length < 2 ^ 31)
    (hlong : 2 ^ 31 ≤ substr.length) :
    Returns (memstr data data.length substr) (Finds substr data) ↔
      0 < toInt32 substr.length ∧ ¬ substr.take (toInt32 substr.length).toNat <:+: data := by
  have hne : substr ≠ [] := by
    rintro rfl
    simp at hlong
  have hnone : ∀ o, Finds substr data o ↔ o = none := fun o => finds_long (by omega)
  by_cases hk0 : 0 < toInt32 substr.length
  · obtain ⟨k, hk⟩ := Int.eq_ofNat_of_zero_le hk0.le
    rw [memstr_eq_search_all hpos hint hk (by omega)]
    have hlen : (substr.take k).length = k := by
      have hhigh := (toInt32_spec substr.length).2.1
      exact List.length_take_of_le (by omega)
    have hw : substr.take k ≠ [] := by
      intro h
      rw [h, List.length_nil] at hlen
      omega
    have hall := returns_search_all (w := substr.take k) (s := data) hw
    rw [hlen] at hall
    obtain ⟨o, ho, hfinds⟩ := hall
    rw [ho, returns_ok, hnone, hk, Int.toNat_natCast]
    cases o with
    | none => exact iff_of_true rfl ⟨by omega, hfinds⟩
    | some m => exact iff_of_false (by simp) fun h => h.2 (infix_iff_drop.mpr ⟨m, hfinds.1⟩)
  · refine iff_of_false (fun h => ?_) fun h => hk0 h.1
    obtain ⟨m, hm⟩ := memstr_beyond hpos hne (by omega) h
    simp [hnone] at hm

/-- The first occurrence is found, and nothing outside the block is read, for every string whose
length is an `int`. Of a longer one only the bytes are looked for that its length modulo `2 ^ 32`
still counts, and these must not occur. -/
theorem memstr_iff (data : List UInt8) (substr : CString) (hpos : 0 < data.length)
    (hint : data.length < 2 ^ 31) (hne : substr ≠ []) :
    Returns (memstr data data.length substr) (Finds substr data) ↔
      substr.length < 2 ^ 31 ∨ 0 < substr.length % 2 ^ 32 ∧ substr.length % 2 ^ 32 < 2 ^ 31 ∧
        ¬ substr.take (substr.length % 2 ^ 32) <:+: data := by
  obtain ⟨hlow, hhigh, q, hq⟩ := toInt32_spec substr.length
  by_cases hlong : 2 ^ 31 ≤ substr.length
  · rw [memstr_long hpos hint hlong]
    have hmod : 0 < toInt32 substr.length ↔
        0 < substr.length % 2 ^ 32 ∧ substr.length % 2 ^ 32 < 2 ^ 31 := by omega
    have hcount : 0 < toInt32 substr.length →
        (toInt32 substr.length).toNat = substr.length % 2 ^ 32 := by omega
    constructor
    · rintro ⟨h0, hno⟩
      rw [hcount h0] at hno
      exact Or.inr ⟨(hmod.mp h0).1, (hmod.mp h0).2, hno⟩
    · rintro (h | ⟨h0, h1, hno⟩)
      · omega
      · have hk0 := hmod.mpr ⟨h0, h1⟩
        rw [hcount hk0]
        exact ⟨hk0, hno⟩
  · have hlen : 0 < substr.length := List.length_pos_of_ne_nil hne
    have hk : toInt32 substr.length = substr.length := toInt32_eq (by omega) (by omega)
    refine iff_of_true ?_ (Or.inl (by omega))
    rw [memstr_eq_search_all hpos hint hk hlen, List.take_length]
    exact returns_search_all hne

/-- `ab` in `xab`. -/
theorem memstr_iff_xab : Returns (memstr [120, 97, 98] 3 [97, 98]) (Finds [97, 98] [120, 97, 98]) :=
  (memstr_iff [120, 97, 98] [97, 98] (by decide) (by decide) (by decide)).mpr (Or.inl (by decide))

/-- A block of one byte, and a string of that byte so long that its length as an `int` is 1: it is
found. -/
theorem memstr_found_long :
    Returns (memstr [97] 1 (List.replicate (2 ^ 32 + 1) 97)) (· = some 0) ∧
      ¬ Returns (memstr [97] 1 (List.replicate (2 ^ 32 + 1) 97))
        (Finds (List.replicate (2 ^ 32 + 1) 97) [97]) := by
  have hlen : (List.replicate (2 ^ 32 + 1) (97 : UInt8)).length = 2 ^ 32 + 1 :=
    List.length_replicate
  have hk : toInt32 (List.replicate (2 ^ 32 + 1) (97 : UInt8)).length = (1 : ℕ) := by
    rw [hlen]
    decide
  have hrun : memstr [97] 1 (List.replicate (2 ^ 32 + 1) 97) = .ok (some 0) := by
    apply (memstr_eq_search_all (by decide) (by decide) hk (by decide)).trans
    rw [List.take_replicate]
    decide
  rw [hrun, returns_ok, returns_ok, finds_long (by rw [hlen]; decide)]
  simp

end Memstr

/-! ## The suffix of a file name -/

def dot : UInt8 := 46

/-- From the position `k` back to a dot or to the first character. -/
def lastDot (p : CString) : ℕ → ℕ
  | 0 => 0
  | k + 1 => if p[k + 1]? = some dot then k + 1 else lastDot p k

def getFileSuffix {n : ℕ} (p : CString) (suffix : Buffer n) : Checked (Buffer n) :=
  let q := p.length
  let k := lastDot p q
  if p[k]? = some dot then
    let k := k + 1
    let len := toInt32 (q - k)
    if len ≠ 0 then
      -- a negative number is a `size_t` beyond any array
      if len < 0 then throw .overflow
      else do (← suffix.strncpy (p.drop k) len.toNat).put len.toNat 0
    else suffix.strncpy (cstr "null") 5
  else suffix.strncpy (cstr "null") 5

/-- The characters after the last dot when there are any, and `null` otherwise. -/
inductive Suffix (name : CString) : CString → Prop
  | named (stem t : CString) (h : name = stem ++ dot :: t) (hdot : dot ∉ t) (hne : t ≠ []) :
      Suffix name t
  | unnamed (h : ∀ stem t, name = stem ++ dot :: t → dot ∉ t → t = []) :
      Suffix name (cstr "null")

section Suffixes
variable {name stem t : CString} {n : ℕ}

theorem exists_last_dot (h : dot ∈ name) : ∃ stem t, name = stem ++ dot :: t ∧ dot ∉ t := by
  obtain ⟨front, back, hrev, hfront⟩ := List.eq_append_cons_of_mem (List.mem_reverse.mpr h)
  refine ⟨back.reverse, front.reverse, ?_, by simpa using hfront⟩
  rw [← List.reverse_reverse name, hrev]
  simp

theorem takeWhile_last_dot (ht : dot ∉ t) :
    ((stem ++ dot :: t).reverse.takeWhile (· ≠ 46)).reverse = t := by
  have hall : ∀ b ∈ t.reverse, decide (b ≠ 46) = true := by
    intro b hb
    have hne : b ≠ 46 := fun h => by
      subst h
      exact ht (List.mem_reverse.mp hb)
    simpa using hne
  rw [List.reverse_append, List.reverse_cons, List.append_assoc,
    List.takeWhile_append_of_pos hall, List.singleton_append,
    List.takeWhile_cons_of_neg (by decide),
    List.append_nil, List.reverse_reverse]

theorem last_dot_unique {stem' t' : CString} (h : stem ++ dot :: t = stem' ++ dot :: t')
    (ht : dot ∉ t) (ht' : dot ∉ t') : t = t' := by
  rw [← @takeWhile_last_dot stem t ht, h, takeWhile_last_dot ht']

/-- The handlers use the suffix as it is meant. -/
theorem suffix_iff : Suffix name t ↔ t = DiskHandlers.getFileSuffix name := by
  by_cases hmem : dot ∈ name
  · obtain ⟨stem, last, rfl, hlast⟩ := exists_last_dot hmem
    have huse : DiskHandlers.getFileSuffix (stem ++ dot :: last) =
        if last ≠ [] then last else cstr "null" := by
      have hdot : (46 : UInt8) ∈ stem ++ dot :: last := hmem
      simp only [DiskHandlers.getFileSuffix, takeWhile_last_dot hlast, hdot, true_and]
    rw [huse]
    constructor
    · rintro (⟨stem', t', h, hdot, hne⟩ | h)
      · rw [last_dot_unique h hlast hdot, if_pos hne]
      · rw [if_neg (not_not.mpr (h stem last rfl hlast))]
    · rintro rfl
      split_ifs with hne
      · exact .named stem last rfl hlast hne
      · refine .unnamed fun stem' t' h ht' => ?_
        rw [← last_dot_unique h hlast ht']
        exact not_not.mp hne
  · have huse : DiskHandlers.getFileSuffix name = cstr "null" := by
      have hdot : (46 : UInt8) ∉ name := hmem
      simp only [DiskHandlers.getFileSuffix, hdot, false_and, if_false]
    rw [huse]
    constructor
    · rintro (⟨stem, t', h, -, -⟩ | -)
      · exact absurd (h ▸ List.mem_append_right stem List.mem_cons_self) hmem
      · rfl
    · rintro rfl
      refine .unnamed fun stem t' h => ?_
      exact absurd (h ▸ List.mem_append_right stem List.mem_cons_self) hmem

theorem lastDot_eq (ht : dot ∉ t) {k : ℕ} (hk : stem.length ≤ k) :
    lastDot (stem ++ dot :: t) k = stem.length := by
  induction k with
  | zero => exact (Nat.le_zero.mp hk).symm
  | succ k ih =>
    rw [lastDot]
    by_cases hlast : stem.length = k + 1
    · rw [← hlast, if_pos (by simp)]
    · have hafter : (stem ++ dot :: t)[k + 1]? = t[k - stem.length]? := by
        rw [List.getElem?_append_right (by omega),
          show k + 1 - stem.length = k - stem.length + 1 by omega, List.getElem?_cons_succ]
      rw [hafter, if_neg fun h => ht (List.mem_of_getElem? h), ih (by omega)]

theorem returns_copy {b : Buffer n} {k : ℕ} {Q : Buffer n → Prop} (hk : k ≤ t.length) :
    Returns (do (← b.strncpy t k).put k 0) Q ↔ k < n ∧ Q (b.overlay 0 (t.take k ++ [0])) := by
  have hlen : 0 + (t.take k).length = k := by
    rw [List.length_take_of_le hk, Nat.zero_add]
  have hend : (b.overlay 0 (t.take k)).set k 0 = b.overlay 0 (t.take k ++ [0]) := by
    rw [Buffer.overlay_append, hlen]
    rfl
  rw [returns_bind, Buffer.returns_strncpy, Nat.sub_eq_zero_of_le hk, List.replicate_zero,
    List.append_nil, Buffer.returns_put, hend]
  constructor
  · exact fun h => h.2
  · exact fun h => ⟨h.1.le, h⟩

theorem returns_null {b : Buffer n} {Q : Buffer n → Prop} :
    Returns (b.strncpy (cstr "null") 5) Q ↔ 5 ≤ n ∧ Q (b.overlay 0 (cstr "null" ++ [0])) := by
  have hbytes : (cstr "null").take 5 ++ List.replicate (5 - (cstr "null").length) 0 =
      cstr "null" ++ [0] := by decide
  rw [Buffer.returns_strncpy, hbytes]

theorem text_overlay {b : Buffer n} (h0 : 0 ∉ t) (hn : t.length < n) :
    (b.overlay 0 (t ++ [0])).text = .ok t := by
  rw [Buffer.text_strcpy hn, untilNul_of_notMem h0]
  rfl

theorem getFileSuffix_last (ht : dot ∉ t) (suffix : Buffer n) :
    getFileSuffix (stem ++ dot :: t) suffix =
      if toInt32 t.length ≠ 0 then
        if toInt32 t.length < 0 then throw .overflow
        else do (← suffix.strncpy t (toInt32 t.length).toNat).put (toInt32 t.length).toNat 0
      else suffix.strncpy (cstr "null") 5 := by
  have hk : lastDot (stem ++ dot :: t) (stem ++ dot :: t).length = stem.length :=
    lastDot_eq ht (by simp)
  have hat : (stem ++ dot :: t)[stem.length]? = some dot := by simp
  have hlen : ((stem ++ dot :: t).length - (stem.length + 1 : ℕ) : ℤ) = t.length := by
    rw [List.length_append, List.length_cons]
    omega
  have hdrop : (stem ++ dot :: t).drop (stem.length + 1) = t := by
    rw [← List.drop_drop, List.drop_left]
    rfl
  simp only [getFileSuffix, hk, hat, if_true, hlen, hdrop]

theorem getFileSuffix_unnamed (h : ∀ stem t, name = stem ++ dot :: t → dot ∉ t → t = [])
    (suffix : Buffer n) : getFileSuffix name suffix = suffix.strncpy (cstr "null") 5 := by
  by_cases hmem : dot ∈ name
  · obtain ⟨stem, last, rfl, hlast⟩ := exists_last_dot hmem
    rw [h stem last rfl hlast, getFileSuffix_last (by simp)]
    exact if_neg (not_not.mpr rfl)
  · have hno : ∀ k, name[k]? ≠ some dot := fun k hk => hmem (List.mem_of_getElem? hk)
    simp only [getFileSuffix, hno, if_false]

/-- A suffix that does not fit, or is so long that its length is no `int`, is not stored. -/
theorem getFileSuffix_named_iff (h0 : 0 ∉ t) (ht : dot ∉ t) (hne : t ≠ [])
    (suffix : Buffer suffixLen) :
    (Returns (getFileSuffix (stem ++ dot :: t) suffix) fun b => b.text = .ok t) ↔
      t.length < suffixLen := by
  have hlen : 0 < t.length := List.length_pos_of_ne_nil hne
  rw [getFileSuffix_last ht]
  by_cases hshort : t.length < suffixLen
  · have hint : toInt32 t.length = t.length :=
      toInt32_eq (by omega) (by simp only [suffixLen] at hshort; omega)
    rw [hint, if_pos (by omega), if_neg (by omega), Int.toNat_natCast, returns_copy le_rfl,
      List.take_length]
    exact iff_of_true ⟨hshort, text_overlay h0 hshort⟩ hshort
  · refine iff_of_false (fun h => ?_) hshort
    obtain ⟨hlow, hhigh, q, hq⟩ := toInt32_spec t.length
    split_ifs at h with hzero hneg
    · exact returns_throw h
    · -- only the first `len` characters are stored
      have hle : (toInt32 t.length).toNat ≤ t.length := by omega
      rw [returns_copy hle] at h
      obtain ⟨hfits, htext⟩ := h
      have hcut : (t.take (toInt32 t.length).toNat).length = (toInt32 t.length).toNat :=
        List.length_take_of_le hle
      rw [text_overlay (fun h => h0 (List.mem_of_mem_take h)) (by omega)] at htext
      have heq := congrArg List.length (Except.ok.inj htext)
      omega
    · rw [returns_null] at h
      have htext := h.2
      rw [text_overlay (by decide) (by decide)] at htext
      have heq := congrArg List.length (Except.ok.inj htext)
      have hnull : (cstr "null").length = 4 := by decide
      simp only [suffixLen] at hshort
      omega

/-- The right text is stored, inside the array of `store_fileinfo_to_mysql`, exactly when at most
seven characters follow the last dot. -/
theorem getFileSuffix_iff (name : CString) (h0 : 0 ∉ name) (suffix : Buffer suffixLen) :
    (Returns (getFileSuffix name suffix) fun b => Returns b.text (Suffix name)) ↔
      ∀ stem t, name = stem ++ dot :: t → dot ∉ t → t.length < suffixLen := by
  by_cases hnamed : ∃ stem t, name = stem ++ dot :: t ∧ dot ∉ t ∧ t ≠ []
  · obtain ⟨stem, t, rfl, ht, hne⟩ := hnamed
    have hsuffix : Suffix (stem ++ dot :: t) = (· = t) := by
      funext u
      apply propext
      constructor
      · rintro (⟨stem', t', h, ht', -⟩ | h)
        · exact last_dot_unique h.symm ht' ht
        · exact absurd (h stem t rfl ht) hne
      · rintro rfl
        exact .named stem u rfl ht hne
    simp only [hsuffix, ← eq_ok_iff]
    rw [getFileSuffix_named_iff (fun h => h0 (by simp [h])) ht hne]
    constructor
    · intro hlen stem' t' h ht'
      rw [← last_dot_unique h ht ht']
      exact hlen
    · exact fun h => h stem t rfl ht
  · have hunnamed : ∀ stem t, name = stem ++ dot :: t → dot ∉ t → t = [] := by
      intro stem t h ht
      by_contra hne
      exact hnamed ⟨stem, t, h, ht, hne⟩
    refine iff_of_true ?_ fun stem t h ht => by rw [hunnamed stem t h ht]; decide
    rw [getFileSuffix_unnamed hunnamed, returns_null, text_overlay (by decide) (by decide),
      returns_ok]
    exact ⟨by decide, .unnamed hunnamed⟩

/-- `a.c`. -/
theorem getFileSuffix_iff_c :
    Returns (getFileSuffix [97, 46, 99] (Buffer.zeroed suffixLen)) fun b =>
      Returns b.text (Suffix [97, 46, 99]) := by
  apply (getFileSuffix_iff [97, 46, 99] (by decide) (Buffer.zeroed suffixLen)).mpr
  intro stem t h ht
  have hlen := congrArg List.length h
  rw [List.length_append, List.length_cons] at hlen
  simp only [List.length_cons, List.length_nil] at hlen
  simp only [suffixLen]
  omega

/-- The eight characters and the NUL of `a.12345678` overrun the array. -/
theorem getFileSuffix_overflow :
    getFileSuffix (cstr "a.12345678") (Buffer.zeroed suffixLen) = .error .overflow ∧
      ¬ Returns (getFileSuffix (cstr "a.12345678") (Buffer.zeroed suffixLen)) fun b =>
        Returns b.text (Suffix (cstr "a.12345678")) := by
  have hrun : getFileSuffix (cstr "a.12345678") (Buffer.zeroed suffixLen) = .error .overflow := by
    rfl
  rw [hrun]
  exact ⟨rfl, returns_throw⟩

end Suffixes

end TextSearches
