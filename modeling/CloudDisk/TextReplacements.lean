import CloudDisk.ByteBuffers
import CloudDisk.DiskHandlers
import CloudDisk.Replacements

/-! # Replacing in place

`str_replace` goes through a string once. At an occurrence it saves what follows in memory of its
own, writes the replacement over the occurrence, puts the saved text and a NUL behind it, and
goes on after the replacement. The length of the rest is counted in an `int`, and the result of
`malloc` is used without a look. -/
namespace TextReplacements

open ByteStrings CheckedCode ByteBuffers DiskHandlers Replacements

/-- `strncmp(strSrc, strFind, strlen(strFind)) == 0`; the first difference ends it. -/
def strncmp : CString → List UInt8 → Checked Bool
  | [], _ => pure true
  | _ :: _, [] => throw .outOfBounds
  | f :: strFind, b :: strSrc => if f = b then strncmp strFind strSrc else pure false

/-- `while (*q++ != '\0') lastLen++`. -/
def countLast : ℕ → List UInt8 → Checked ℕ
  | _, [] => throw .outOfBounds
  | lastLen, b :: q => if b = 0 then pure lastLen else do countLast (← intAdd lastLen 1) q

/-- One occurrence at the position `p`, and the position after its replacement. -/
def replaceAt {n : ℕ} (strFind strReplace : CString) (malloc : Bool) (b : Buffer n) (p : ℕ) :
    Checked (Buffer n × ℕ) := do
  let q := p + toInt32 strFind.length
  if q < 0 then throw .outOfBounds
  else do
    let lastLen ← countLast 0 (b.bytes.drop q.toNat)
    let _ ← intAdd lastLen 1
    if malloc then do
      -- the rest is saved, and put back behind the replacement
      let temp := (b.bytes.drop q.toNat).take lastLen
      let b ← b.write p strReplace
      let b ← b.write (p + strReplace.length) temp
      let b ← b.put (p + strReplace.length + temp.length) 0
      return (b, p + strReplace.length)
    else throw .nullPointer

/-- The loop from the position `p` on; `malloc` tells how the calls end that are still to come. -/
def strReplaceLoop {n : ℕ} (strFind strReplace : CString) :
    ℕ → (ℕ → Bool) → Buffer n → ℕ → Checked (Option (Buffer n))
  | 0, _, _, _ => pure none
  | fuel + 1, malloc, b, p =>
    match b.bytes[p]? with
    | none => throw .outOfBounds
    | some c =>
      if c = 0 then pure (some b)
      -- the first characters are compared before `strncmp` is called
      else if strFind.head? = some c then do
        if ← strncmp strFind (b.bytes.drop p) then do
          let (b, p) ← replaceAt strFind strReplace (malloc 0) b p
          strReplaceLoop strFind strReplace fuel (fun i => malloc (i + 1)) b p
        else strReplaceLoop strFind strReplace fuel malloc b (p + 1)
      else strReplaceLoop strFind strReplace fuel malloc b (p + 1)

/-- Nothing when the fuel runs out. -/
def strReplace {n : ℕ} (fuel : ℕ) (malloc : ℕ → Bool) (strSrc : Buffer n)
    (strFind strReplace : CString) : Checked (Option (Buffer n)) :=
  strReplaceLoop strFind strReplace fuel malloc strSrc 0

/-! ## One occurrence -/

section Occurrence
variable {n p : ℕ} {find repl text s junk : CString} {b : Buffer n}

theorem strncmp_eq (h0 : 0 ∉ find) : strncmp find (s ++ 0 :: junk) = .ok (decide (find <+: s)) := by
  induction find generalizing s with
  | nil => rfl
  | cons f find ih =>
    have hf : f ≠ 0 := fun h => h0 (h ▸ List.mem_cons_self)
    cases s with
    | nil =>
      have hno : ¬ f :: find <+: [] := by simp
      rw [List.nil_append, strncmp, if_neg hf, decide_eq_false hno]
      rfl
    | cons c s =>
      rw [List.cons_append, strncmp]
      by_cases hc : f = c
      · subst hc
        rw [if_pos rfl, ih fun h => h0 (List.mem_cons_of_mem f h)]
        simp
      · have hno : ¬ f :: find <+: c :: s := fun h => hc (List.cons_prefix_cons.mp h).1
        rw [if_neg hc, decide_eq_false hno]
        rfl

theorem returns_countLast {k : ℕ} {Q : ℕ → Prop} (h0 : 0 ∉ text) (hk : k < 2 ^ 31) :
    Returns (countLast k (text ++ 0 :: junk)) Q ↔
      k + text.length < 2 ^ 31 ∧ Q (k + text.length) := by
  induction text generalizing k with
  | nil =>
    rw [List.nil_append, countLast, if_pos rfl, returns_pure, List.length_nil, Nat.add_zero]
    exact (and_iff_right hk).symm
  | cons c text ih =>
    have hc : c ≠ 0 := fun h => h0 (h ▸ List.mem_cons_self)
    have hrest : 0 ∉ text := fun h => h0 (List.mem_cons_of_mem c h)
    have hsum : k + (text.length + 1) = k + 1 + text.length := by omega
    rw [List.cons_append, countLast, if_neg hc, returns_bind, returns_intAdd, List.length_cons,
      hsum]
    constructor
    · rintro ⟨hlt, h⟩
      exact (ih hrest hlt).mp h
    · rintro ⟨hlt, hq⟩
      have hlt' : k + 1 < 2 ^ 31 := by omega
      exact ⟨hlt', (ih hrest hlt').mpr ⟨hlt, hq⟩⟩

/-- The string in the buffer, with the position `front.length` in it. -/
structure At (b : Buffer n) (front rest : CString) : Prop where
  holds : b.Holds (front ++ rest)
  front_plain : 0 ∉ front
  rest_plain : 0 ∉ rest

variable {front rest : CString}

theorem At.drop_bytes (h : At b front rest) {q : ℕ} (hq : q ≤ front.length + rest.length) :
    ∃ junk, b.bytes.drop q = (front ++ rest).drop q ++ 0 :: junk := by
  obtain ⟨junk, hbytes⟩ := h.holds
  refine ⟨junk, ?_⟩
  rw [hbytes, List.drop_append_of_le_length (by rwa [List.length_append])]

theorem At.plain (h : At b front rest) : 0 ∉ front ++ rest := by
  rw [List.mem_append]
  rintro (h0 | h0)
  · exact h.front_plain h0
  · exact h.rest_plain h0

theorem At.length_lt (h : At b front rest) : front.length + rest.length < n := by
  have hlt := h.holds.length_lt
  rwa [List.length_append] at hlt

theorem returns_writes {Q : Buffer n × ℕ → Prop} (hp : p ≤ n) :
    Returns (do
      let b ← b.write p repl
      let b ← b.write (p + repl.length) s
      let b ← b.put (p + repl.length + s.length) 0
      return (b, p + repl.length)) Q ↔
      p + repl.length + s.length < n ∧
        Q (b.overlay p (repl ++ s ++ [0]), p + repl.length) := by
  have hoverlay : ((b.overlay p repl).overlay (p + repl.length) s).set
      (p + repl.length + s.length) 0 = b.overlay p (repl ++ s ++ [0]) := by
    rw [Buffer.overlay_append, Buffer.overlay_append, List.length_append, ← Nat.add_assoc]
    rfl
  constructor
  · intro h
    obtain ⟨hrepl, h⟩ := (Buffer.returns_write hp).mp (returns_bind.mp h)
    obtain ⟨hs, h⟩ := (Buffer.returns_write hrepl).mp (returns_bind.mp h)
    obtain ⟨hend, h⟩ := Buffer.returns_put.mp (returns_bind.mp h)
    rw [hoverlay] at h
    exact ⟨hend, returns_pure.mp h⟩
  · rintro ⟨hend, hq⟩
    refine returns_bind.mpr ((Buffer.returns_write hp).mpr ⟨by omega, ?_⟩)
    refine returns_bind.mpr ((Buffer.returns_write (by omega)).mpr ⟨by omega, ?_⟩)
    refine returns_bind.mpr (Buffer.returns_put.mpr ⟨hend, ?_⟩)
    rw [hoverlay]
    exact returns_pure.mpr hq

/-- A string of 2 GiB is not stepped over: what would be counted is longer still. -/
theorem replaceAt_long {malloc : Bool} {Q : Buffer n × ℕ → Prop} (h : At b front (find ++ s))
    (hlong : 2 ^ 31 ≤ find.length) : ¬ Returns (replaceAt find repl malloc b front.length) Q := by
  obtain ⟨hlow, hhigh, k, hk⟩ := toInt32_spec find.length
  rw [replaceAt]
  by_cases hneg : (front.length + toInt32 find.length : ℤ) < 0
  · rw [if_pos hneg]
    exact returns_throw
  · have hq : (front.length + toInt32 find.length : ℤ).toNat ≤
        front.length + (find ++ s).length := by
      rw [List.length_append]
      omega
    obtain ⟨junk, hdrop⟩ := h.drop_bytes hq
    have hplain : 0 ∉ (front ++ (find ++ s)).drop (front.length + toInt32 find.length : ℤ).toNat :=
      fun h0 => h.plain (List.mem_of_mem_drop h0)
    rw [if_neg hneg, hdrop, returns_bind, returns_countLast hplain (by decide)]
    rintro ⟨hcount, -⟩
    rw [List.length_drop, List.length_append, List.length_append] at hcount
    omega

theorem returns_replaceAt {malloc : Bool} {Q : Buffer n × ℕ → Prop} (h : At b front (find ++ s)) :
    Returns (replaceAt find repl malloc b front.length) Q ↔
      find.length < 2 ^ 31 ∧ s.length + 1 < 2 ^ 31 ∧ malloc = true ∧
        front.length + repl.length + s.length < n ∧
          Q (b.overlay front.length (repl ++ s ++ [0]), front.length + repl.length) := by
  by_cases hlong : 2 ^ 31 ≤ find.length
  · exact iff_of_false (replaceAt_long h hlong) fun h => absurd h.1 (by omega)
  · have hint : toInt32 find.length = find.length := toInt32_eq (by omega) (by omega)
    have hq : (front.length + find.length : ℤ).toNat = (front ++ find).length := by
      rw [List.length_append]
      omega
    have hlen := h.length_lt
    rw [List.length_append] at hlen
    obtain ⟨junk, hdrop⟩ := h.drop_bytes (q := (front ++ find).length)
      (by rw [List.length_append, List.length_append]; omega)
    rw [← List.append_assoc, List.drop_left] at hdrop
    have hplain : 0 ∉ s := fun h0 => h.rest_plain (List.mem_append_right find h0)
    rw [replaceAt, hint, if_neg (by omega), hq, hdrop, returns_bind,
      returns_countLast hplain (by decide), Nat.zero_add, returns_bind, returns_intAdd,
      List.take_left]
    cases malloc with
    | false => simp
    | true =>
      rw [if_pos rfl, returns_writes (by omega)]
      constructor
      · rintro ⟨-, hs, hwrites⟩
        exact ⟨by omega, hs, rfl, hwrites⟩
      · rintro ⟨-, hs, -, hwrites⟩
        exact ⟨by omega, hs, hwrites⟩

theorem At.replaced (h : At b front (find ++ s)) (hrepl : 0 ∉ repl)
    (hfits : front.length + repl.length + s.length < n) :
    At (b.overlay front.length (repl ++ s ++ [0])) (front ++ repl) s := by
  refine ⟨?_, ?_, fun h0 => h.rest_plain (List.mem_append_right find h0)⟩
  · rw [List.append_assoc front]
    apply h.holds.overlay
    rw [List.length_append]
    omega
  · rw [List.mem_append]
    rintro (h0 | h0)
    · exact h.front_plain h0
    · exact hrepl h0

theorem At.skip {c : UInt8} (h : At b front (c :: s)) : At b (front ++ [c]) s := by
  obtain ⟨junk, hbytes⟩ := h.holds
  refine ⟨⟨junk, by rw [hbytes]; simp⟩, ?_, fun h0 => h.rest_plain (List.mem_cons_of_mem c h0)⟩
  rw [List.mem_append, List.mem_singleton]
  rintro (h0 | h0)
  · exact h.front_plain h0
  · exact h.rest_plain (h0 ▸ List.mem_cons_self)

end Occurrence

/-! ## The loop -/

/-- From the first occurrence on all lengths are `int`s, and there is memory for every one. -/
def Suffices (find : CString) (malloc : ℕ → Bool) (s : CString) : Prop :=
  ∀ m, FirstAt find s m → find.length < 2 ^ 31 ∧ s.length - (m + find.length) + 1 < 2 ^ 31 ∧
    ∀ i < occurrences find s, malloc i = true

section Loop
variable {n fuel : ℕ} {find repl front s : CString} {malloc : ℕ → Bool} {b : Buffer n} {c : UInt8}

theorem suffices_nil (hne : find ≠ []) : Suffices find malloc [] := by
  intro m hm
  have hle := hm.add_length_le hne
  have hpos : 0 < find.length := List.length_pos_of_ne_nil hne
  rw [List.length_nil] at hle
  omega

theorem suffices_skip (hno : ¬ find <+: c :: s) :
    Suffices find malloc (c :: s) ↔ Suffices find malloc s := by
  have hlen : ∀ m, (c :: s).length - (m + 1 + find.length) = s.length - (m + find.length) := by
    intro m
    rw [List.length_cons]
    omega
  constructor
  · intro h m hm
    have hlater := h (m + 1) (firstAt_succ.mpr ⟨hno, hm⟩)
    rwa [hlen, occurrences_skip hno] at hlater
  · intro h m hm
    cases m with
    | zero => exact absurd (firstAt_zero.mp hm) hno
    | succ m =>
      rw [hlen, occurrences_skip hno]
      exact h m (firstAt_succ.mp hm).2

theorem suffices_hit (hne : find ≠ []) : Suffices find malloc (find ++ s) ↔
    find.length < 2 ^ 31 ∧ s.length + 1 < 2 ^ 31 ∧ malloc 0 = true ∧
      Suffices find (fun i => malloc (i + 1)) s := by
  have hfirst : FirstAt find (find ++ s) 0 := firstAt_zero.mpr (List.prefix_append find s)
  have hlen : (find ++ s).length - (0 + find.length) = s.length := by
    rw [List.length_append]
    omega
  constructor
  · intro h
    obtain ⟨hint, hrest, hmalloc⟩ := h 0 hfirst
    rw [hlen] at hrest
    rw [occurrences_hit hne] at hmalloc
    refine ⟨hint, hrest, hmalloc 0 (Nat.succ_pos _), fun m _ => ⟨hint, by omega, fun i hi => ?_⟩⟩
    exact hmalloc (i + 1) (Nat.succ_lt_succ hi)
  · rintro ⟨hint, hrest, hnow, hlater⟩ m hm
    obtain rfl : m = 0 := by
      by_contra hpos
      exact hm.2 0 (Nat.pos_of_ne_zero hpos) (List.prefix_append find s)
    rw [hlen, occurrences_hit hne]
    refine ⟨hint, hrest, fun i hi => ?_⟩
    cases i with
    | zero => exact hnow
    | succ i =>
      have hocc : 0 < occurrences find s := by omega
      obtain ⟨k, hk⟩ := firstAt_of_infix (infix_of_occurrences hne hocc)
      exact (hlater k hk).2.2 i (by omega)

theorem At.head (h : At b front (c :: s)) : b.bytes[front.length]? = some c ∧ c ≠ 0 := by
  obtain ⟨junk, hbytes⟩ := h.holds
  refine ⟨by rw [hbytes]; simp, fun h0 => h.rest_plain (h0 ▸ List.mem_cons_self)⟩

theorem loop_end (h : At b front []) :
    strReplaceLoop find repl (fuel + 1) malloc b front.length = .ok (some b) := by
  obtain ⟨junk, hbytes⟩ := h.holds
  have hget : b.bytes[front.length]? = some 0 := by
    rw [hbytes]
    simp
  rw [strReplaceLoop, hget]
  rfl

theorem loop_compares (h : At b front s) (h0 : 0 ∉ find) :
    strncmp find (b.bytes.drop front.length) = .ok (decide (find <+: s)) := by
  obtain ⟨junk, hdrop⟩ := h.drop_bytes (Nat.le_add_right front.length s.length)
  rw [List.drop_left] at hdrop
  rw [hdrop, strncmp_eq h0]

theorem loop_skip (h : At b front (c :: s)) (h0 : 0 ∉ find) (hno : ¬ find <+: c :: s) :
    strReplaceLoop find repl (fuel + 1) malloc b front.length =
      strReplaceLoop find repl fuel malloc b (front ++ [c]).length := by
  obtain ⟨hget, hc⟩ := h.head
  rw [strReplaceLoop, hget, List.length_append, List.length_singleton]
  simp only [hc, if_false]
  split
  · rw [loop_compares h h0, decide_eq_false hno]
    rfl
  · rfl

theorem loop_hit {Q : Option (Buffer n) → Prop} (h : At b front (find ++ s)) (h0 : 0 ∉ find)
    (hne : find ≠ []) : Returns (strReplaceLoop find repl (fuel + 1) malloc b front.length) Q ↔
      Returns (replaceAt find repl (malloc 0) b front.length) fun r =>
        Returns (strReplaceLoop find repl fuel (fun i => malloc (i + 1)) r.1 r.2) Q := by
  obtain ⟨c, t, rfl⟩ := List.exists_cons_of_ne_nil hne
  obtain ⟨hget, hc⟩ := h.head
  have hit : c :: t <+: c :: t ++ s := List.prefix_append (c :: t) s
  rw [strReplaceLoop, hget]
  simp only [hc, if_false, List.head?_cons, if_true]
  rw [loop_compares h h0, decide_eq_true hit, returns_bind, returns_ok, if_pos rfl, returns_bind]

theorem hit_fits (hne : find ≠ []) (h : At b front (find ++ s))
    (hfits : front.length + (replaced find repl (find ++ s)).length < n) :
    front.length + repl.length + s.length < n := by
  have hlen := h.length_lt
  rw [List.length_append] at hlen
  rw [replaced_hit hne, List.length_append] at hfits
  by_cases hle : find.length ≤ repl.length
  · have hgrow := length_le_replaced (s := s) hne hle
    omega
  · omega

theorem loop_eq (hne : find ≠ []) (h0 : 0 ∉ find) (hrepl : 0 ∉ repl) (h : At b front s)
    (hsuff : Suffices find malloc s) (hfits : front.length + (replaced find repl s).length < n)
    (hfuel : s.length < fuel) :
    ∃ b', strReplaceLoop find repl fuel malloc b front.length = .ok (some b') ∧
      At b' (front ++ replaced find repl s) [] := by
  -- each round takes an occurrence or a character off the rest, so that its length bounds the fuel
  induction s using hit_induction hne generalizing fuel front malloc b with
  | nil =>
    obtain ⟨fuel, rfl⟩ : ∃ k, fuel = k + 1 := ⟨fuel - 1, by omega⟩
    exact ⟨b, loop_end h, by simpa [replaced, parts] using h⟩
  | hit s ih =>
    rw [List.length_append] at hfuel
    obtain ⟨fuel, rfl⟩ : ∃ k, fuel = k + 1 := ⟨fuel - 1, by omega⟩
    have hpos : 0 < find.length := List.length_pos_of_ne_nil hne
    obtain ⟨hint, hrest, hnow, hlater⟩ := (suffices_hit hne).mp hsuff
    have hroom := hit_fits hne h hfits
    have hnext := h.replaced hrepl hroom
    rw [replaced_hit hne, ← List.append_assoc]
    rw [replaced_hit hne, List.length_append, ← Nat.add_assoc, ← List.length_append] at hfits
    have hleft : s.length < fuel := by omega
    obtain ⟨b', hrun, hend⟩ := ih hnext hlater hfits hleft
    refine ⟨b', ?_, hend⟩
    rw [eq_ok_iff, loop_hit h h0 hne, returns_replaceAt h, ← eq_ok_iff, ← List.length_append]
    exact ⟨hint, hrest, hnow, by rwa [List.length_append], hrun⟩
  | skip c s hno ih =>
    rw [List.length_cons] at hfuel
    obtain ⟨fuel, rfl⟩ : ∃ k, fuel = k + 1 := ⟨fuel - 1, by omega⟩
    rw [replaced_skip hno, List.append_cons, loop_skip h h0 hno]
    refine ih h.skip ((suffices_skip hno).mp hsuff) ?_ (by omega)
    rw [replaced_skip hno] at hfits
    simp only [List.length_append, List.length_cons, List.length_nil] at hfits ⊢
    omega

theorem suffices_of_loop (hne : find ≠ []) (h0 : 0 ∉ find) (hrepl : 0 ∉ repl) (h : At b front s)
    (hrun : Returns (strReplaceLoop find repl fuel malloc b front.length)
      fun o => o.isSome = true) :
    Suffices find malloc s := by
  induction s using hit_induction hne generalizing fuel front malloc b with
  | nil => exact suffices_nil hne
  | hit s ih =>
    cases fuel with
    | zero => simp [strReplaceLoop] at hrun
    | succ fuel =>
      rw [loop_hit h h0 hne, returns_replaceAt h] at hrun
      obtain ⟨hint, hrest, hnow, hroom, hrun⟩ := hrun
      rw [← List.length_append] at hrun
      exact (suffices_hit hne).mpr ⟨hint, hrest, hnow, ih (h.replaced hrepl hroom) hrun⟩
  | skip c s hno ih =>
    cases fuel with
    | zero => simp [strReplaceLoop] at hrun
    | succ fuel =>
      rw [loop_skip h h0 hno] at hrun
      exact (suffices_skip hno).mpr (ih h.skip hrun)

end Loop

/-- The call comes to an end, and the string in the buffer is the source with every occurrence
replaced. -/
def Replaces {n : ℕ} (malloc : ℕ → Bool) (b : Buffer n) (src find repl : CString) : Prop :=
  ∃ fuel₀, ∀ fuel, fuel₀ ≤ fuel → ∃ b', strReplace fuel malloc b find repl = .ok (some b') ∧
    b'.text = .ok (replaced find repl src)

/-- In a buffer for the source and the result. -/
theorem strReplace_iff {n : ℕ} (malloc : ℕ → Bool) (b : Buffer n) (src find repl : CString)
    (hsrc : 0 ∉ src) (hfind : 0 ∉ find) (hrepl : 0 ∉ repl) (hne : find ≠ []) (hb : b.Holds src)
    (hfits : (replaced find repl src).length < n) :
    Replaces malloc b src find repl ↔ ∀ m, FirstAt find src m →
      find.length < 2 ^ 31 ∧ src.length - (m + find.length) + 1 < 2 ^ 31 ∧
        ∀ i < occurrences find src, malloc i = true := by
  have hat : At b [] src := ⟨hb, by simp, hsrc⟩
  constructor
  · rintro ⟨fuel, h⟩
    obtain ⟨b', hrun, -⟩ := h fuel le_rfl
    exact suffices_of_loop hne hfind hrepl hat ⟨_, hrun, rfl⟩
  · intro hsuff
    refine ⟨src.length + 1, fun fuel hfuel => ?_⟩
    obtain ⟨b', hrun, hend⟩ := loop_eq hne hfind hrepl hat hsuff (by simpa using hfits) hfuel
    have hholds := hend.holds
    rw [List.nil_append, List.append_nil] at hholds
    exact ⟨b', hrun, hholds.text_eq (notMem_replaced hne hrepl hsrc)⟩

/-- `ab` in `aba` by `aab`, which has it again. -/
theorem strReplace_iff_aba :
    Replaces (n := 8) (fun _ => true) ⟨[97, 98, 97, 0, 0, 0, 0, 0], rfl⟩ [97, 98, 97] [97, 98]
      [97, 97, 98] := by
  refine (strReplace_iff _ _ _ _ _ (by decide) (by decide) (by decide) (by decide)
    ⟨[0, 0, 0, 0], rfl⟩ (by decide)).mpr ?_
  intro m hm
  refine ⟨by decide, ?_, fun i hi => rfl⟩
  simp only [List.length_cons, List.length_nil]
  omega

theorem rest_uncounted (k : ℕ) (hk : 2 ^ 31 ≤ k + 1) :
    ∃ b : Buffer (k + 2), b.Holds (97 :: List.replicate k 98) ∧
      (replaced [97] [98] (97 :: List.replicate k 98 : CString)).length < k + 2 ∧
      ¬ Replaces (fun _ => true) b (97 :: List.replicate k 98) [97] [98] := by
  have hne : ([97] : CString) ≠ [] := by decide
  have hlen : (97 :: List.replicate k 98 : CString).length = k + 1 := by
    rw [List.length_cons, List.length_replicate]
  have hplain : (0 : UInt8) ∉ 97 :: List.replicate k 98 := by simp [List.mem_replicate]
  have hbytes : (97 :: List.replicate k 98 ++ [0] : CString).length = k + 2 := by
    rw [List.length_append, hlen, List.length_singleton]
  refine ⟨⟨97 :: List.replicate k 98 ++ [0], hbytes⟩, ⟨[], rfl⟩, ?_, ?_⟩
  · refine lt_of_le_of_lt (length_replaced_le hne le_rfl) ?_
    rw [hlen]
    omega
  · rintro ⟨fuel, h⟩
    obtain ⟨b', hrun, -⟩ := h fuel le_rfl
    have hat : At ⟨97 :: List.replicate k 98 ++ [0], hbytes⟩ [] ([97] ++ List.replicate k 98) :=
      ⟨⟨[], rfl⟩, List.not_mem_nil, hplain⟩
    have hsuff := suffices_of_loop hne (by decide) (by decide) hat ⟨_, hrun, rfl⟩
    obtain ⟨-, hrest, -⟩ := (suffices_hit hne).mp hsuff
    rw [List.length_replicate] at hrest
    omega

/-- Without memory for the rest a null pointer is written to. With it, 2 GiB behind an occurrence
are more than an `int` counts. -/
theorem strReplace_fails :
    (∃ b : Buffer 2, b.Holds [97] ∧ (replaced [97] [98] ([97] : CString)).length < 2 ∧
      strReplace 2 (fun _ => false) b [97] [98] = .error .nullPointer ∧
      ¬ Replaces (fun _ => false) b [97] [97] [98]) ∧
    ∃ b : Buffer (2 ^ 31 + 2), b.Holds (97 :: List.replicate (2 ^ 31) 98) ∧
      (replaced [97] [98] (97 :: List.replicate (2 ^ 31) 98 : CString)).length < 2 ^ 31 + 2 ∧
      ¬ Replaces (fun _ => true) b (97 :: List.replicate (2 ^ 31) 98) [97] [98] := by
  refine ⟨⟨⟨[97, 0], rfl⟩, ⟨[], rfl⟩, by decide, rfl, ?_⟩, rest_uncounted (2 ^ 31) (Nat.le_succ _)⟩
  rintro ⟨fuel, h⟩
  obtain ⟨b', hrun, -⟩ := h (fuel + 1) (Nat.le_succ fuel)
  have hfail : strReplace (n := 2) (fuel + 1) (fun _ => false) ⟨[97, 0], rfl⟩ [97] [98] =
      .error .nullPointer := rfl
  rw [hfail] at hrun
  cases hrun

end TextReplacements
